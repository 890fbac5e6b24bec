import Mathlib.Data.List.Pairwise
import SpacePartition.Proofs.Line.Algebra
import SpacePartition.Proofs.Line.Intervals

/-!
What lies next to a place on the line. Close enough to a place, above it or below it, partitions and
lists of intervals say the same of all points.
-/

namespace SpacePartition

variable {K : Type} [Field K] [LinearOrder K] {ι α : Type}

-- The side of an oriented point on which what is above it lies, or what is below it.
def OrientedPoint.toward {R : Type} (h : OrientedPoint R) (above : Bool) : Branch :=
  if h.direct = above then .plus else .minus

namespace Line

variable {c d e p q t : K} {dir above : Bool} {tol : Exact K} {L C : Set K}

-- The outlook of the points next to a place.
def beside (e : K) (above : Bool) : Outlook (line (Exact K)) :=
  fun h => match h.location with
    | .finite c => h.toward (decide (c < e ∨ c = e ∧ above))
    | _         => .minus

theorem beside_eq : beside e above (⟨.finite c, dir, tol⟩ : OrientedPoint (Exact K)) =
    OrientedPoint.toward ⟨.finite c, dir, tol⟩ (decide (c < e ∨ c = e ∧ above)) :=
  rfl

-- The points next to a place, up to a distance.
def vicinity (e : K) (above : Bool) (d : K) : Set K :=
  if above then Set.Ioo e (e + d) else Set.Ioo (e - d) e

-- Whether a set has all points next to a place, or none of them.
def Near (U : Set K) (e : K) (above : Bool) (full : Prop) : Prop :=
  ∃ d > 0, ∀ x ∈ vicinity e above d, x ∈ U ↔ full

variable {U V F : Set K} {u v : Prop}

theorem Near.agree (hu : Near U e above u) : Near {x | x ∈ U ↔ u} e above True :=
  hu.imp fun _ ⟨hd, h⟩ => ⟨hd, fun x hx => iff_true_intro (h x hx)⟩

variable [IsStrictOrderedRing K]

theorem outlook_toward (h : q ≠ c) : outlook q (⟨.finite c, dir, tol⟩ : OrientedPoint (Exact K)) =
    OrientedPoint.toward ⟨.finite c, dir, tol⟩ (decide (c < q)) := by
  rw [outlook_eq, OrientedPoint.toward]
  rcases h.lt_or_gt with h | h
  case inl => cases dir <;> simp [h.not_gt, h, h.le]
  case inr => cases dir <;> simp [h, h.le]

theorem vicinity_mono (h : d ≤ c) : vicinity e above d ⊆ vicinity e above c := by
  cases above
  case false => exact Set.Ioo_subset_Ioo_left (by linarith)
  case true  => exact Set.Ioo_subset_Ioo_right (by linarith)

theorem exists_mem_vicinity (e : K) (above : Bool) (hF : F.Finite) (hd : 0 < d) :
    ∃ x ∈ vicinity e above d, x ∉ F := by
  have hi : (vicinity e above d).Infinite := by
    cases above
    case false => exact Set.Ioo_infinite (by linarith)
    case true  => exact Set.Ioo_infinite (by linarith)
  exact hi.exists_notMem_finite hF

theorem Near.and (hu : Near U e above u) (hv : Near V e above v) :
    ∃ d > 0, ∀ x ∈ vicinity e above d, (x ∈ U ↔ u) ∧ (x ∈ V ↔ v) := by
  have ⟨d, hd, hu⟩ := hu
  have ⟨d', hd', hv⟩ := hv
  exact ⟨min d d', lt_min hd hd', fun x hx => ⟨hu x <| vicinity_mono (min_le_left ..) hx,
    hv x <| vicinity_mono (min_le_right ..) hx⟩⟩

theorem Near.inter (hu : Near U e above u) (hv : Near V e above v) :
    Near (U ∩ V) e above (u ∧ v) := by
  have ⟨d, hd, h⟩ := hu.and hv
  exact ⟨d, hd, fun x hx => and_congr (h x hx).1 (h x hx).2⟩

theorem Near.union (hu : Near U e above u) (hv : Near V e above v) :
    Near (U ∪ V) e above (u ∨ v) := by
  have ⟨d, hd, h⟩ := hu.and hv
  exact ⟨d, hd, fun x hx => or_congr (h x hx).1 (h x hx).2⟩

-- Finitely many points do not matter.
theorem Near.iff (hF : F.Finite) (hu : Near U e above u) (hv : Near V e above v)
    (h : ∀ x ∉ F, x ∈ U ↔ x ∈ V) : u ↔ v := by
  have ⟨d, hd, hb⟩ := hu.and hv
  have ⟨x, hx, hxF⟩ := exists_mem_vicinity e above hF hd
  exact (hb x hx).1.symm.trans <| (h x hxF).trans (hb x hx).2

-- Close enough to a place, the points on one side of it are on the same side of any other place.
theorem compare_vicinity (e : K) (above : Bool) (c : K) :
    ∃ d > 0, ∀ x ∈ vicinity e above d, x ≠ c ∧ (c < x ↔ c < e ∨ c = e ∧ above) := by
  rcases lt_trichotomy c e with h | rfl | h
  case inl =>
    refine ⟨e - c, by linarith, fun x hx => ?_⟩
    have hx : c < x := by cases above <;> have := hx.1 <;> linarith
    exact ⟨hx.ne', iff_of_true hx (.inl h)⟩
  case inr.inl =>
    refine ⟨1, one_pos, fun x hx => ?_⟩
    cases above
    case false => exact ⟨hx.2.ne, by simpa using hx.2.le⟩
    case true  => exact ⟨hx.1.ne', by simpa using hx.1⟩
  case inr.inr =>
    refine ⟨c - e, by linarith, fun x hx => ?_⟩
    have hx : x < c := by cases above <;> have := hx.2 <;> linarith
    exact ⟨hx.ne, iff_of_false hx.not_gt fun h' => h'.elim h.not_gt fun h' => h.ne' h'.1⟩

theorem compare_vicinity_finite (hL : L.Finite) (e : K) (above : Bool) :
    ∃ d > 0, ∀ x ∈ vicinity e above d, ∀ c ∈ L, x ≠ c ∧ (c < x ↔ c < e ∨ c = e ∧ above) := by
  induction L, hL using Set.Finite.induction_on
  case empty => exact ⟨1, one_pos, fun _ _ _ => nofun⟩
  case insert c L _ _ hi =>
    have ⟨d, hd, h⟩ := hi
    have ⟨d', hd', h'⟩ := compare_vicinity e above c
    refine ⟨min d d', lt_min hd hd', fun x hx => Set.forall_mem_insert.mpr ⟨?head, ?tail⟩⟩
    case head => exact h' x <| vicinity_mono (min_le_right ..) hx
    case tail => exact h x <| vicinity_mono (min_le_left ..) hx

-- So they are on the same sides of all cuts.
theorem outlook_vicinity (hL : L.Finite) (e : K) (above : Bool) :
    ∃ d > 0, ∀ x ∈ vicinity e above d, x ∉ L ∧ ∀ c ∈ L, ∀ dir tol,
      outlook x (⟨.finite c, dir, tol⟩ : OrientedPoint (Exact K)) =
        beside e above (⟨.finite c, dir, tol⟩ : OrientedPoint (Exact K)) := by
  have ⟨d, hd, h⟩ := compare_vicinity_finite hL e above
  refine ⟨d, hd, fun x hx => ⟨fun hxL => (h x hx x hxL).1 rfl, fun c hc dir tol => ?_⟩⟩
  have ⟨hxc, hcx⟩ := h x hx c hc
  rw [outlook_toward hxc, beside_eq]
  exact congrArg _ <| decide_eq_decide.mpr hcx

end Line

namespace Interval

open Line

variable {i : Interval (Exact K)} {is : List (Interval (Exact K))} {e : K} {above : Bool}

-- Whether an interval has the points next to a place.
def Reaches (i : Interval (Exact K)) (e : K) (above : Bool) : Prop :=
  if above then i.lower ≤ .finite e ∧ .finite e < i.upper
  else i.lower < .finite e ∧ .finite e ≤ i.upper

theorem Separated.comparable (h : Separated is) {j : Interval (Exact K)} (hi : i ∈ is)
    (hj : j ∈ is) (hij : i ≠ j) : i.upper < j.lower ∨ j.upper < i.lower := by
  let Apart (i j : Interval (Exact K)) := i.upper < j.lower ∨ j.upper < i.lower
  have : Std.Symm Apart := ⟨fun _ _ => Or.symm⟩
  have hs : is.Pairwise Apart := h.gaps.imp .inl
  exact hs.forall hi hj hij

-- An upper bound has points below it and none above it.
theorem Separated.upper_iff (h : Separated is) : (∃ i ∈ is, i.upper = .finite e) ↔
    (∃ i ∈ is, i.Reaches e false) ∧ ¬∃ i ∈ is, i.Reaches e true := by
  constructor
  case mp =>
    intro ⟨i, hi, hu⟩
    have hp := hu ▸ h.proper i hi
    refine ⟨⟨i, hi, hp, by rw [hu, Exact.finite_le]⟩, ?_⟩
    rintro ⟨j, hj, hl, hu'⟩
    by_cases hij : i = j
    case pos => exact Exact.lt_irrefl (hu ▸ hij ▸ hu')
    case neg =>
      rcases h.comparable hi hj hij with h | h
      case inl => exact Exact.lt_irrefl <| Exact.lt_of_lt_of_le (hu ▸ h) hl
      case inr => exact Exact.lt_irrefl <| Exact.lt_trans hu' <| Exact.lt_trans h hp
  case mpr =>
    rintro ⟨⟨i, hi, hl, hu⟩, hn⟩
    rcases hu with hu | ⟨hu, -⟩
    case inl => exact absurd ⟨i, hi, .inl hl, hu⟩ hn
    case inr => exact ⟨i, hi, hu.symm⟩

-- A lower bound has points above it and none below it.
theorem Separated.lower_iff (h : Separated is) : (∃ i ∈ is, i.lower = .finite e) ↔
    (¬∃ i ∈ is, i.Reaches e false) ∧ ∃ i ∈ is, i.Reaches e true := by
  constructor
  case mp =>
    intro ⟨i, hi, hl⟩
    have hp := hl ▸ h.proper i hi
    refine ⟨?_, ⟨i, hi, by rw [hl, Exact.finite_le], hp⟩⟩
    rintro ⟨j, hj, hl', hu⟩
    by_cases hij : i = j
    case pos => exact Exact.lt_irrefl (hl ▸ hij ▸ hl')
    case neg =>
      rcases h.comparable hi hj hij with h | h
      case inl => exact Exact.lt_irrefl <| Exact.lt_trans hp <| Exact.lt_trans h hl'
      case inr => exact Exact.lt_irrefl <| Exact.lt_of_le_of_lt hu (hl ▸ h)
  case mpr =>
    rintro ⟨hn, ⟨i, hi, hl, hu⟩⟩
    rcases hl with hl | ⟨hl, -⟩
    case inl => exact absurd ⟨i, hi, hl, .inl hu⟩ hn
    case inr => exact ⟨i, hi, hl⟩

-- A bound has points on one side of it.
theorem Separated.mem_ends (h : Separated is) : e ∈ ends is ↔
    ¬((∃ i ∈ is, i.Reaches e false) ↔ ∃ i ∈ is, i.Reaches e true) := by
  have he : e ∈ ends is ↔ (∃ i ∈ is, i.lower = .finite e) ∨ ∃ i ∈ is, i.upper = .finite e := by
    simp only [ends, Set.mem_ofPred_eq, and_or_left, exists_or]
  rw [he, h.lower_iff, h.upper_iff]
  generalize (∃ i ∈ is, i.Reaches e false) = below, (∃ i ∈ is, i.Reaches e true) = above
  tauto

variable [IsStrictOrderedRing K]

theorem near_lower (e : K) (above : Bool) (a : Exact K) : Near {x | a ≤ .finite x} e above
    (if above then a ≤ .finite e else a < .finite e) := by
  rcases a with c | (_ | _) | _
  case finite =>
    have ⟨d, hd, h⟩ := compare_vicinity e above c
    refine ⟨d, hd, fun x hx => ?_⟩
    have ⟨hxc, hcx⟩ := h x hx
    change Exact.finite c ≤ .finite x ↔ _
    rw [Exact.finite_le, (Ne.symm hxc).le_iff_lt, hcx]
    cases above <;> simp [le_iff_lt_or_eq]
  all_goals
    refine ⟨1, one_pos, fun x _ => ?_⟩
    change _ ≤ Exact.finite x ↔ _
    cases above <;> simp [Exact.le_iff]

theorem near_upper (e : K) (above : Bool) (a : Exact K) : Near {x | .finite x ≤ a} e above
    (if above then .finite e < a else .finite e ≤ a) := by
  rcases a with c | (_ | _) | _
  case finite =>
    have ⟨d, hd, h⟩ := compare_vicinity e above c
    refine ⟨d, hd, fun x hx => ?_⟩
    have ⟨hxc, hcx⟩ := h x hx
    change Exact.finite x ≤ .finite c ↔ _
    rw [Exact.finite_le, ← not_lt, hcx]
    cases above <;> grind [Exact.finite_le, Exact.finite_lt]
  all_goals
    refine ⟨1, one_pos, fun x _ => ?_⟩
    change Exact.finite x ≤ _ ↔ _
    cases above <;> simp [Exact.le_iff]

theorem near_points (e : K) (above : Bool) : Near i.points e above (i.Reaches e above) := by
  have h := (near_lower e above i.lower).inter (near_upper e above i.upper)
  cases above <;> exact h

theorem near_union (e : K) (above : Bool) :
    Near (union is) e above (∃ i ∈ is, i.Reaches e above) := by
  induction is
  case nil          => exact ⟨1, one_pos, fun _ _ => by simp⟩
  case cons i is hi => simpa using (near_points e above).union hi

end Interval
end SpacePartition
