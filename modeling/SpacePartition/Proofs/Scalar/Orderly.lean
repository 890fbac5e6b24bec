import SpacePartition.Proofs.Scalar.Order

/-!
What the order of numbers, the infinities, the zeros and the magnitudes have to do with each other,
in exact and in rounded arithmetic alike.
-/

namespace SpacePartition

open Scalar in
class Scalar.Orderly (R : Type) [Scalar R] : Prop where
  defined_of_le {x y : R} : x ≤ y → isNaN x = false ∧ isNaN y = false
  le_trans {x y z : R} : x ≤ y → y ≤ z → x ≤ z
  le_total {x y : R} : isNaN x = false → isNaN y = false → x ≤ y ∨ y ≤ x
  not_le {x y : R} : isNaN x = false → isNaN y = false → (¬x ≤ y ↔ y < x)
  totalLE_trans {x y z : R} : totalLE x y → totalLE y z → totalLE x z
  totalLE_total (x y : R) : totalLE x y || totalLE y x
  le_of_totalLE {x y : R} : isNaN x = false → isNaN y = false → totalLE x y → x ≤ y
  le_infinity {x : R} : isNaN x = false → x ≤ infinity
  neg_infinity_lt : (-infinity : R) < infinity
  eq_infinity {x : R} : infinity ≤ x → x = infinity
  eq_neg_infinity {x : R} : x ≤ -infinity → x = -infinity
  isNaN_neg_infinity : isNaN (-infinity : R) = false
  infinity_sub : (infinity : R) - -infinity = infinity
  zero_add_infinity : (-0 : R) + infinity = infinity
  not_zero_lt : ¬(0 : R) < 0
  zero_beq : (0 : R) == 0
  neg_zero_beq : (-0 : R) == 0
  zero_div {n : Nat} : n = 2 ∨ n = 3 → (0 : R) / n == 0

open Scalar in
class Scalar.Magnitudes (R : Type) [Scalar R] : Prop where
  isNaN_abs (x : R) : isNaN (abs x) = isNaN x
  not_abs_lt_zero (x : R) : ¬abs x < 0

namespace Scalar

variable {R : Type} [Scalar R] {x y z : R}

theorem lt_min (hx : isNaN x = false) (hy : isNaN y = false) (h : z < x) (h' : z < y) :
    z < min x y := by
  simp only [min, hx, hy, Bool.false_eq_true, if_false]
  split
  case isTrue  => exact h'
  case isFalse => exact h

theorem isNaN_min (hx : isNaN x = false) (hy : isNaN y = false) : isNaN (min x y) = false := by
  simp only [min, hx, hy, Bool.false_eq_true, if_false]
  split <;> assumption

theorem isNaN_max (hx : isNaN x = false) (hy : isNaN y = false) : isNaN (max x y) = false := by
  simp only [max, hx, hy, Bool.false_eq_true, if_false]
  split <;> assumption

variable [Orderly R]

theorem isNaN_infinity : isNaN (infinity : R) = false :=
  (Orderly.defined_of_le <| Orderly.le_infinity (R := R) Orderly.isNaN_neg_infinity).2

theorem le_refl (hx : isNaN x = false) : x ≤ x :=
  (Orderly.le_total hx hx).elim id id

theorem le_of_lt (hx : isNaN x = false) (hy : isNaN y = false) (h : x < y) : x ≤ y :=
  (Orderly.le_total hx hy).resolve_right <| (Orderly.not_le hy hx).mpr h

theorem le_of_not_lt (hx : isNaN x = false) (hy : isNaN y = false) (h : ¬y < x) : x ≤ y :=
  not_not.mp fun hn => h <| (Orderly.not_le hx hy).mp hn

theorem neg_infinity_le (hx : isNaN x = false) : -infinity ≤ x := by
  refine not_not.mp fun hn => hn ?_
  have hl := (Orderly.not_le Orderly.isNaN_neg_infinity hx).mp hn
  exact Orderly.eq_neg_infinity (le_of_lt hx Orderly.isNaN_neg_infinity hl) ▸ le_refl hx

theorem max_le (h : x ≤ z) (h' : y ≤ z) : max x y ≤ z := by
  simp only [max, (Orderly.defined_of_le h).1, (Orderly.defined_of_le h').1, Bool.false_eq_true,
    if_false]
  split
  case isTrue  => exact h'
  case isFalse => exact h

theorem le_max (hx : isNaN x = false) (hy : isNaN y = false) : x ≤ max x y ∧ y ≤ max x y := by
  simp only [max, hx, hy, Bool.false_eq_true, if_false]
  split
  case isTrue h  => exact ⟨le_of_lt hx hy h, le_refl hy⟩
  case isFalse h => exact ⟨le_refl hx, le_of_not_lt hy hx h⟩

end Scalar

namespace Exact

variable {K : Type} [Field K] [LinearOrder K]

theorem isNaN_eq_false_iff {x : Exact K} : Scalar.isNaN x = false ↔ x ≠ undefined := by
  refine ⟨?_, isNaN_eq_false⟩
  rintro h rfl
  change (!decide (undefined = undefined ∧ _)) = false at h
  simp at h

variable [IsStrictOrderedRing K]

instance : Scalar.Orderly (Exact K) where
  defined_of_le h := by
    rw [isNaN_eq_false_iff, isNaN_eq_false_iff]
    rcases h with h | ⟨rfl, h⟩
    case inl => exact defined_of_lt h
    case inr => exact ⟨h, h⟩
  le_trans := Exact.le_trans
  le_total hx hy := by
    rw [isNaN_eq_false_iff] at hx hy
    rcases Exact.lt_trichotomy hx hy with h | h | h
    case inl     => exact .inl (.inl h)
    case inr.inl => exact .inl (.inr ⟨h, hx⟩)
    case inr.inr => exact .inr (.inl h)
  not_le hx hy := Exact.not_le (isNaN_eq_false_iff.mp hx) (isNaN_eq_false_iff.mp hy)
  totalLE_trans h h' := by
    rw [totalLE_iff] at h h' ⊢
    rcases h with h | h
    case inl => exact .inl h
    case inr =>
      rcases h' with rfl | h'
      case inl => rcases h with h | ⟨h, -⟩; exacts [absurd h not_lt_undefined, .inl h]
      case inr => exact .inr <| Exact.le_trans h h'
  totalLE_total x y := by
    rw [Bool.or_eq_true, totalLE_iff, totalLE_iff]
    by_cases hx : x = undefined
    case pos => exact .inl (.inl hx)
    case neg =>
      by_cases hy : y = undefined
      case pos => exact .inr (.inl hy)
      case neg =>
        rcases Exact.lt_trichotomy hx hy with h | h | h
        case inl     => exact .inl (.inr (.inl h))
        case inr.inl => exact .inl (.inr (.inr ⟨h, hx⟩))
        case inr.inr => exact .inr (.inr (.inl h))
  le_of_totalLE hx _ h := (totalLE_iff.mp h).resolve_left (isNaN_eq_false_iff.mp hx)
  le_infinity {x} hx := by
    rw [isNaN_eq_false_iff] at hx
    rcases x with x | (_ | _) | _
    case finite         => exact .inl rfl
    case infinite.false => exact .inl ⟨rfl, rfl⟩
    case infinite.true  => exact .inr ⟨rfl, nofun⟩
    case undefined      => exact absurd rfl hx
  neg_infinity_lt := ⟨rfl, rfl⟩
  eq_infinity {x} h := by
    rcases h with h | ⟨rfl, -⟩
    case inr => rfl
    case inl => rcases x with x | (_ | _) | _ <;> cases h <;> contradiction
  eq_neg_infinity {x} h := by
    rcases h with h | ⟨rfl, -⟩
    case inr => rfl
    case inl => rcases x with x | (_ | _) | _ <;> cases h <;> contradiction
  isNaN_neg_infinity := isNaN_eq_false_iff.mpr nofun
  infinity_sub := rfl
  zero_add_infinity := rfl
  not_zero_lt := lt_irrefl (0 : K)
  zero_beq := finite_beq_self
  neg_zero_beq := by
    rw [zero_eq, neg_finite, neg_zero]
    exact finite_beq_self
  zero_div {n} h := by
    have hn : ((n : Nat) : Exact K) = finite (n : K) := rfl
    have h0 : (n : K) ≠ 0 := by rcases h with rfl | rfl <;> exact Nat.cast_ne_zero.mpr (by decide)
    rw [hn, zero_eq, finite_div h0, zero_div]
    exact finite_beq_self

instance : Scalar.Magnitudes (Exact K) where
  isNaN_abs x := by
    rw [Bool.eq_iff_iff, ← not_iff_not, Bool.not_eq_true, Bool.not_eq_true, isNaN_eq_false_iff,
      isNaN_eq_false_iff]
    cases x <;> simp [Scalar.abs, abs]
  not_abs_lt_zero := Exact.not_abs_lt_zero

end Exact
end SpacePartition
