import SpacePartition.Decimal.Scientific

/-!
Numbers in positional notation, with the fewest digits that read back as the same number.
-/

namespace SpacePartition.Decimal

-- The quotient rounded to the nearest integer, and to the larger one of two.
def roundHalfUp (num den : Nat) : Nat :=
  (2 * num + den) / (2 * den)

namespace Binary

-- Whether a decimal `d * 10 ^ -scale` is nearer to the number than to its neighbours. The halfway
-- points belong to the number if its mantissa is even. Below a power of two the neighbour is only
-- half as far away.
def roundsTo (x : Binary) (d : Nat) (scale : Int) : Bool :=
  let quarter : Binary := { x with exponent := x.exponent - 2 }
  let isPower := x.mantissa = 1 <<< 52 ∧ x.exponent ≠ -1074
  let (upper, den) := { quarter with mantissa := 4 * x.mantissa + 2 }.scaled scale
  let (lower, _) :=
    { quarter with mantissa := 4 * x.mantissa - if isPower then 1 else 2 }.scaled scale
  if x.mantissa % 2 = 0 then lower ≤ d * den && d * den ≤ upper
  else lower < d * den && d * den < upper

-- The decimal with `count` digits that is nearest to the number, if it reads back, and else the one
-- on the other side of the number. Of two that are equally near the larger comes first.
def candidate? (x : Binary) (e : Int) (count : Nat) : Option (Nat × Int) :=
  let scale := count - 1 - e
  let (num, den) := x.scaled scale
  let nearest := roundHalfUp num den
  let other := if nearest * den ≤ num then nearest + 1 else nearest - 1
  if x.roundsTo nearest scale then some (nearest, scale)
  else if x.roundsTo other scale then some (other, scale)
  else none

-- Seventeen digits always read back.
def shortest (x : Binary) : Nat × Int :=
  let e := x.decimalExponent
  ((List.range 17).findSome? fun n => x.candidate? e (n + 1)).getD (x.mantissa, 0)

end Binary

-- The decimal `d * 10 ^ -scale`.
def positional (d : Nat) (scale : Int) : List Char :=
  let digits := Nat.toDigits 10 d
  if scale ≤ 0 then digits ++ List.replicate (-scale).toNat '0'
  else
    let digits := List.replicate (scale.toNat + 1 - digits.length) '0' ++ digits
    let whole := digits.take (digits.length - scale.toNat)
    let fraction := dropTrailingZeros (digits.drop (digits.length - scale.toNat))
    if fraction.isEmpty then whole else whole ++ '.' :: fraction

def shortest (x : Float) : String :=
  if x.isNaN then "NaN"
  else
    let b := Binary.ofFloat x
    let sign := if b.negative then "-" else ""
    if x.isInf then sign ++ "inf"
    else if b.mantissa = 0 then sign ++ "0"
    else
      let (d, scale) := b.shortest
      sign ++ .ofList (positional d scale)

end SpacePartition.Decimal
