import SpacePartition.Decimal.Binary

/-!
Numbers in scientific notation, rounded to a fixed count of digits.
-/

namespace SpacePartition.Decimal

-- The quotient rounded to the nearest integer, and to the even one of two.
def roundHalfEven (num den : Nat) : Nat :=
  let q := num / den
  let r := num % den
  if 2 * r < den then q
  else if den < 2 * r then q + 1
  else q + q % 2

def dropTrailingZeros (digits : List Char) : List Char :=
  (digits.reverse.dropWhile (· == '0')).reverse

-- A point stands after the first digit if other digits follow it.
def point : List Char → List Char
  | d :: e :: ds => d :: '.' :: e :: ds
  | ds           => ds

-- The exact value is rounded, and zeros at the end are dropped. Both zeros are `0`.
def scientific (digits : Nat) (x : Float) : String :=
  if x.isNaN then "nan"
  else
    let b := Binary.ofFloat x
    let sign := if b.negative then "-" else ""
    if x.isInf then sign ++ "inf"
    else if b.mantissa = 0 then "0"
    else
      let e := b.decimalExponent
      let (num, den) := b.scaled (digits - 1 - e)
      let m := roundHalfEven num den
      -- Rounding up may take one digit more.
      let e := if m = Nat.pow 10 digits then e + 1 else e
      sign ++ .ofList (point (dropTrailingZeros (Nat.toDigits 10 m))) ++ "e" ++ toString e

end SpacePartition.Decimal
