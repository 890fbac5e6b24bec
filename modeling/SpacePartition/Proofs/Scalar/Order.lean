import Mathlib.Order.Interval.Set.Infinite
import Mathlib.Algebra.Order.Field.Basic
import Mathlib.Tactic.Tauto
import SpacePartition.Proofs.Scalar.Exact

/-!
The order of exact numbers. Those that are defined are ordered linearly, with the infinities at the
ends, and between any two of them there are numbers of the field.
-/

namespace SpacePartition.Exact

variable {K : Type} [Field K] [LinearOrder K] {a b c : Exact K} {x y : K} {s r : Bool}

theorem le_iff : a ≤ b ↔ a < b ∨ a = b ∧ a ≠ undefined :=
  Iff.rfl

@[simp]
theorem finite_lt_infinite : finite x < infinite s ↔ s = true :=
  Iff.rfl

@[simp]
theorem infinite_lt_finite : infinite s < finite x ↔ s = false :=
  Iff.rfl

@[simp]
theorem infinite_lt_infinite : (infinite s : Exact K) < infinite r ↔ s = false ∧ r = true :=
  Iff.rfl

@[simp]
theorem not_undefined_lt : ¬undefined < a :=
  nofun

@[simp]
theorem not_lt_undefined : ¬a < undefined := by
  cases a <;> exact nofun

theorem defined_of_lt (h : a < b) : a ≠ undefined ∧ b ≠ undefined :=
  ⟨fun ha => not_undefined_lt (ha ▸ h), fun hb => not_lt_undefined (hb ▸ h)⟩

@[simp]
protected theorem lt_irrefl : ¬a < a := by
  cases a <;> simp

protected theorem lt_trans (h : a < b) (h' : b < c) : a < c := by
  cases a <;> cases b <;> cases c <;> simp_all
  case finite.finite.finite => exact h.trans h'

protected theorem lt_of_lt_of_le (h : a < b) (h' : b ≤ c) : a < c := by
  rcases h' with h' | ⟨rfl, -⟩
  case inl => exact Exact.lt_trans h h'
  case inr => exact h

protected theorem lt_of_le_of_lt (h : a ≤ b) (h' : b < c) : a < c := by
  rcases h with h | ⟨rfl, -⟩
  case inl => exact Exact.lt_trans h h'
  case inr => exact h'

protected theorem le_of_lt (h : a < b) : a ≤ b :=
  .inl h

theorem defined_of_le (h : a ≤ b) : a ≠ undefined ∧ b ≠ undefined := by
  rcases h with h | ⟨rfl, h⟩
  case inl => exact defined_of_lt h
  case inr => exact ⟨h, h⟩

protected theorem le_trans (h : a ≤ b) (h' : b ≤ c) : a ≤ c := by
  rcases h with h | ⟨rfl, -⟩
  case inl => exact .inl <| Exact.lt_of_lt_of_le h h'
  case inr => exact h'

protected theorem lt_trichotomy (ha : a ≠ undefined) (hb : b ≠ undefined) :
    a < b ∨ a = b ∨ b < a := by
  rcases a with x | (_ | _) | _ <;> rcases b with y | (_ | _) | _ <;> simp_all
  case finite.finite => exact lt_trichotomy x y

protected theorem not_le (ha : a ≠ undefined) (hb : b ≠ undefined) : ¬a ≤ b ↔ b < a := by
  constructor
  case mp =>
    intro h
    have ht := Exact.lt_trichotomy ha hb
    rw [le_iff] at h
    tauto
  case mpr => exact fun h h' => Exact.lt_irrefl <| Exact.lt_of_lt_of_le h h'

protected theorem not_lt (ha : a ≠ undefined) (hb : b ≠ undefined) : ¬a < b ↔ b ≤ a := by
  rw [← Exact.not_le hb ha, not_not]

theorem isNaN_eq_false (ha : a ≠ undefined) : Scalar.isNaN a = false := by
  change (!decide (a = a ∧ _)) = false
  simp [ha]

theorem max_eq (ha : a ≠ undefined) (hb : b ≠ undefined) :
    Scalar.max a b = if a < b then b else a := by
  simp [Scalar.max, isNaN_eq_false ha, isNaN_eq_false hb]

theorem min_eq (ha : a ≠ undefined) (hb : b ≠ undefined) :
    Scalar.min a b = if b < a then b else a := by
  simp [Scalar.min, isNaN_eq_false ha, isNaN_eq_false hb]

theorem max_le_iff (ha : a ≠ undefined) (hb : b ≠ undefined) :
    Scalar.max a b ≤ c ↔ a ≤ c ∧ b ≤ c := by
  rw [max_eq ha hb]
  split
  case isTrue h  => exact ⟨fun hc => ⟨Exact.le_trans (Exact.le_of_lt h) hc, hc⟩, And.right⟩
  case isFalse h => exact ⟨fun hc => ⟨hc, Exact.le_trans ((Exact.not_lt ha hb).mp h) hc⟩, And.left⟩

theorem le_min_iff (ha : a ≠ undefined) (hb : b ≠ undefined) :
    c ≤ Scalar.min a b ↔ c ≤ a ∧ c ≤ b := by
  rw [min_eq ha hb]
  split
  case isTrue h  => exact ⟨fun hc => ⟨Exact.le_trans hc (Exact.le_of_lt h), hc⟩, And.right⟩
  case isFalse h => exact ⟨fun hc => ⟨hc, Exact.le_trans hc ((Exact.not_lt hb ha).mp h)⟩, And.left⟩

theorem totalLE_iff : Scalar.totalLE a b = true ↔ a = undefined ∨ a ≤ b := by
  change decide (a = undefined ∨ a ≤ b) = true ↔ _
  simp

variable [IsStrictOrderedRing K]

theorem exists_between {F : Set K} (hF : F.Finite) (h : a < b) :
    ∃ x ∉ F, a < finite x ∧ finite x < b := by
  have hi : {x | a < finite x ∧ finite x < b}.Infinite := by
    rcases a with x | (_ | _) | _ <;> rcases b with y | (_ | _) | _ <;> simp at h
    case finite.finite                => exact Set.Ioo_infinite h
    case finite.infinite.true         => exact (Set.Ioi_infinite x).mono fun _ hz => ⟨hz, rfl⟩
    case infinite.false.finite        => exact (Set.Iio_infinite y).mono fun _ hz => ⟨rfl, hz⟩
    case infinite.false.infinite.true => exact Set.infinite_univ.mono fun _ _ => ⟨rfl, rfl⟩
  have ⟨x, hx, hxF⟩ := hi.exists_notMem_finite hF
  exact ⟨x, hxF, hx⟩

-- There is also room below two numbers at once.
theorem exists_between_both {F : Set K} (hF : F.Finite) (hb : a < b) (hc : a < c) :
    ∃ x ∉ F, a < finite x ∧ finite x < b ∧ finite x < c := by
  rcases Exact.lt_trichotomy (defined_of_lt hb).2 (defined_of_lt hc).2 with h | rfl | h
  case inl =>
    have ⟨x, hx, ha, hb⟩ := exists_between hF hb
    exact ⟨x, hx, ha, hb, Exact.lt_trans hb h⟩
  case inr.inl =>
    have ⟨x, hx, ha, hb⟩ := exists_between hF hb
    exact ⟨x, hx, ha, hb, hb⟩
  case inr.inr =>
    have ⟨x, hx, ha, hc⟩ := exists_between hF hc
    exact ⟨x, hx, ha, Exact.lt_trans hc h, hc⟩

end SpacePartition.Exact
