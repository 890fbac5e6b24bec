/-!
The numbers that measure a space. No law is asked for: rounded arithmetic has few of them, and what
holds of exact arithmetic is stated where exact arithmetic is used.
-/

namespace SpacePartition

class Scalar (R : Type) extends
    Zero R, One R, NatCast R, Neg R, Add R, Sub R, Mul R, Div R, BEq R, LT R, LE R where
  decidableLT : DecidableLT R
  decidableLE : DecidableLE R
  abs         : R → R
  infinity    : R
  nan         : R
  -- The least size that counts as a size. A smaller one belongs to a region without interior.
  leastSize   : R
  -- A total order for sorting, in which infinities, signed zeros and `nan` have a place too.
  totalLE     : R → R → Bool

namespace Scalar

variable {R : Type} [Scalar R]

instance (x y : R) : Decidable (x < y) :=
  decidableLT x y

instance (x y : R) : Decidable (x ≤ y) :=
  decidableLE x y

def isNaN (x : R) : Bool :=
  !(x == x)

def isInfinite (x : R) : Bool :=
  x == infinity || x == -infinity

-- The smaller of two numbers, passing over one that is not a number.
def min (x y : R) : R :=
  if isNaN x then y else if isNaN y then x else if y < x then y else x

-- The larger of two numbers, passing over one that is not a number.
def max (x y : R) : R :=
  if isNaN x then y else if isNaN y then x else if x < y then y else x

-- A sum starts at `-0`, the neutral element of rounded addition: `0` would turn `-0` into `0`.
def sum (xs : List R) : R :=
  xs.foldl (· + ·) (-0)

def half : R :=
  1 / (2 : Nat)

end Scalar

-- Numbers with the functions that lengths and angles need.
class Metric (R : Type) extends Scalar R where
  sqrt  : R → R
  hypot : R → R → R
  sin   : R → R
  cos   : R → R
  atan2 : R → R → R

end SpacePartition
