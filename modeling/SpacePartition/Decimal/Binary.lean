/-!
The exact values of binary floating point numbers.
-/

namespace SpacePartition.Decimal

-- The number `mantissa * 2 ^ exponent`, or its negative.
structure Binary where
  negative : Bool
  mantissa : Nat
  exponent : Int
  deriving DecidableEq, Repr

namespace Binary

def ofFloat (x : Float) : Binary :=
  let bits     := x.toBits.toNat
  let fraction := bits % (1 <<< 52)
  let biased   := (bits >>> 52) % (1 <<< 11)
  { negative := 1 <<< 63 ≤ bits
    mantissa := if biased = 0 then fraction else (1 <<< 52) + fraction
    exponent := (max biased 1 : Nat) - 1075 }

-- The magnitude times `10 ^ scale`, as a quotient.
def scaled (x : Binary) (scale : Int) : Nat × Nat :=
  ((x.mantissa <<< x.exponent.toNat) * Nat.pow 10 scale.toNat,
   (1 <<< (-x.exponent).toNat) * Nat.pow 10 (-scale).toNat)

-- The exponent of the leading decimal digit. Multiplying the binary exponent by 0.30103 misses it
-- by one at most, so that the estimate is mended by looking at its neighbours.
def decimalExponent (x : Binary) : Int :=
  let estimate := ((x.mantissa.log2 : Int) + x.exponent) * 30103 / 100000
  let reaches (e : Int) : Bool :=
    let (num, den) := x.scaled (-e)
    den ≤ num
  if reaches (estimate + 1) then estimate + 1
  else if reaches estimate then estimate
  else estimate - 1

end Binary
end SpacePartition.Decimal
