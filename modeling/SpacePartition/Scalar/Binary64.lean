import SpacePartition.Scalar.Basic

/-!
Rounded arithmetic: binary floating point of 64 bits.
-/

namespace SpacePartition.Binary64

def infinity : Float :=
  .ofBits 0x7ff0000000000000

def nan : Float :=
  .ofBits 0x7ff8000000000000

-- The least number that is not subnormal.
def leastNormal : Float :=
  .ofBits 0x0010000000000000

-- The place of a number in the total order. Numbers of one sign are ordered as their magnitudes,
-- `-0` lies just below `0`, and `nan` below everything.
def rank (x : Float) : Int :=
  let bits := x.toBits.toNat
  if x.isNaN then -0x8000000000000000
  else if bits < 0x8000000000000000 then bits
  else 0x7fffffffffffffff - bits

def totalLE (x y : Float) : Bool :=
  rank x ≤ rank y

-- The square root of `x * x + y * y` carries the rounding errors of the two squares. One Newton
-- step takes them out again, with the residual computed from differences that are exact. The
-- squares must neither overflow nor vanish.
def hypot (x y : Float) : Float :=
  if x.isInf || y.isInf then infinity
  else
    let a := if x.abs < y.abs then y.abs else x.abs
    let b := if x.abs < y.abs then x.abs else y.abs
    if b == 0 then a else
      let h := (a * a + b * b).sqrt
      let residual :=
        if h ≤ 2 * b then
          let d := h - b
          a * (2 * d - a) + (d - 2 * (a - b)) * d
        else
          let d := h - a
          2 * d * (a - 2 * b) + ((4 * d - b) * b + d * d)
      h - residual / (2 * h)

instance : Scalar Float where
  natCast     := Float.ofNat
  decidableLT := inferInstance
  decidableLE := inferInstance
  abs         := Float.abs
  infinity    := infinity
  nan         := nan
  leastSize   := leastNormal
  totalLE     := totalLE

instance : Metric Float where
  sqrt  := Float.sqrt
  hypot := hypot
  sin   := Float.sin
  cos   := Float.cos
  atan2 := Float.atan2

end SpacePartition.Binary64
