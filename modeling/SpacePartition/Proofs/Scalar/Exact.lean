import Mathlib.Algebra.Order.Field.Basic
import SpacePartition.Scalar.Basic

/-!
Exact arithmetic: the numbers of an ordered field, with infinities and an undefined number for what
has no value in the field. Finite results are those of the field.
-/

namespace SpacePartition

inductive Exact (K : Type)
  | finite (x : K)
  | infinite (positive : Bool)
  | undefined
  deriving DecidableEq, Repr

namespace Exact

variable {K : Type}

section Arithmetic

variable [Field K] [LinearOrder K]

def neg : Exact K → Exact K
  | finite x   => finite (-x)
  | infinite s => infinite !s
  | undefined  => undefined

def add : Exact K → Exact K → Exact K
  | finite x, finite y     => finite (x + y)
  | infinite s, infinite r => if s = r then infinite s else undefined
  | infinite s, finite _   => infinite s
  | finite _, infinite s   => infinite s
  | _, _                   => undefined

def mul : Exact K → Exact K → Exact K
  | finite x, finite y     => finite (x * y)
  | infinite s, infinite r => infinite (s == r)
  | infinite s, finite x   => if x = 0 then undefined else infinite (s == decide (0 < x))
  | finite x, infinite s   => if x = 0 then undefined else infinite (s == decide (0 < x))
  | _, _                   => undefined

def div : Exact K → Exact K → Exact K
  | finite x, finite y   =>
    if y ≠ 0 then finite (x / y) else if x = 0 then undefined else infinite (decide (0 < x))
  | infinite s, finite y => infinite (s == decide (0 ≤ y))
  | finite _, infinite _ => finite 0
  | _, _                 => undefined

def abs : Exact K → Exact K
  | finite x   => finite |x|
  | infinite _ => infinite true
  | undefined  => undefined

-- The undefined number is neither less nor greater than any other.
def Less : Exact K → Exact K → Prop
  | finite x, finite y     => x < y
  | infinite s, infinite r => s = false ∧ r = true
  | infinite s, finite _   => s = false
  | finite _, infinite s   => s = true
  | _, _                   => False

instance : DecidableRel (Less (K := K)) := fun x y =>
  match x, y with
  | finite x, finite y     => inferInstanceAs (Decidable (x < y))
  | infinite s, infinite r => inferInstanceAs (Decidable (s = false ∧ r = true))
  | infinite s, finite _   => inferInstanceAs (Decidable (s = false))
  | finite _, infinite s   => inferInstanceAs (Decidable (s = true))
  | undefined, _           => isFalse nofun
  | finite _, undefined    => isFalse nofun
  | infinite _, undefined  => isFalse nofun

def totalLE (x y : Exact K) : Bool :=
  x = undefined ∨ (Less x y ∨ x = y ∧ x ≠ undefined)

instance : Scalar (Exact K) where
  zero        := finite 0
  one         := finite 1
  natCast n   := finite n
  neg         := neg
  add         := add
  sub x y     := add x (neg y)
  mul         := mul
  div         := div
  beq x y     := x = y ∧ x ≠ undefined
  lt          := Less
  le x y      := Less x y ∨ x = y ∧ x ≠ undefined
  decidableLT := fun x y => inferInstanceAs (Decidable (Less x y))
  decidableLE := fun x y => inferInstanceAs (Decidable (Less x y ∨ x = y ∧ x ≠ undefined))
  abs         := abs
  infinity    := infinite true
  nan         := undefined
  leastSize   := finite (2 ^ 1022)⁻¹
  totalLE     := totalLE

variable {x y : K}

@[simp]
theorem zero_eq : (0 : Exact K) = finite 0 :=
  rfl

@[simp]
theorem neg_finite : -finite x = finite (-x) :=
  rfl

@[simp]
theorem finite_lt : finite x < finite y ↔ x < y :=
  Iff.rfl

@[simp]
theorem finite_le : finite x ≤ finite y ↔ x ≤ y := by
  change x < y ∨ finite x = finite y ∧ _ ↔ _
  simp [le_iff_lt_or_eq]

@[simp]
theorem abs_finite : Scalar.abs (finite x) = finite |x| :=
  rfl

@[simp]
theorem isNaN_finite : Scalar.isNaN (finite x) = false := by
  change (!decide (finite x = finite x ∧ _)) = false
  simp

theorem finite_beq_self : (Scalar.toBEq.beq (finite x) (finite x)) = true := by
  change decide (finite x = finite x ∧ _) = true
  simp

@[simp]
theorem finite_sub : finite x - finite y = finite (x - y) := by
  change finite (x + -y) = _
  rw [sub_eq_add_neg]

@[simp]
theorem finite_add : finite x + finite y = finite (x + y) :=
  rfl

@[simp]
theorem finite_mul : finite x * finite y = finite (x * y) :=
  rfl

theorem finite_div (h : y ≠ 0) : finite x / finite y = finite (x / y) :=
  if_pos h

variable [IsStrictOrderedRing K]

theorem not_pos_and_neg_pos (x : Exact K) : ¬(0 < x ∧ 0 < -x) := by
  intro ⟨h, h'⟩
  rcases x with x | (_ | _) | _
  case finite         => exact absurd (finite_lt.mp h') (by simpa using (finite_lt.mp h).le)
  case infinite.true  => cases h'
  all_goals cases h

-- No magnitude is negative.
theorem not_abs_lt_zero (x : Exact K) : ¬Scalar.abs x < 0 := by
  cases x
  case finite x => simp
  all_goals exact nofun

end Arithmetic
end Exact
end SpacePartition
