import SpacePartition.Proofs.Line.Parts

/-!
Regions of the line within other regions. What is left of a region without another one has no inside
leaf exactly if every interval of the one lies within an interval of the other.
-/

namespace SpacePartition

variable {K : Type} [Field K] [LinearOrder K]

theorem Exact.exists_finite {a b c : Exact K} (h : a < b) (h' : b < c) : ∃ x, b = .finite x := by
  rcases b with x | (_ | _) | _
  case finite         => exact ⟨x, rfl⟩
  case infinite.false => cases a <;> simp at h
  case infinite.true  => cases c <;> simp at h'
  case undefined      => simp at h'

namespace Interval

open Line

variable {is js : List (Interval (Exact K))} {F : Set K} {e : K} {above : Bool}
variable [IsStrictOrderedRing K]

-- What has the points next to a place has them still where more points are covered.
theorem exists_reaches (hF : F.Finite) (h : ∀ x ∉ F, x ∈ union is → x ∈ union js)
    (hi : ∃ i ∈ is, i.Reaches e above) : ∃ j ∈ js, j.Reaches e above := by
  have hs : Near (union is) e above _ := near_union e above
  have hs' : Near (union js) e above _ := near_union e above
  exact ((hs.inter hs').iff hF hs fun x hx => ⟨And.left, fun hm => ⟨hm, h x hx hm⟩⟩).mpr hi |>.2

-- An interval cannot reach from one interval of a separated list into another: there is a gap.
theorem Separated.subset_iff (hF : F.Finite) (hi : Separated is) (hj : Separated js) :
    (∀ x ∉ F, x ∈ union is → x ∈ union js) ↔
      ∀ i ∈ is, ∃ j ∈ js, j.lower ≤ i.lower ∧ i.upper ≤ j.upper := by
  constructor
  case mp =>
    intro h i him
    have hp := hi.proper i him
    have ⟨x, hx, hlx, hxu⟩ := Exact.exists_between hF hp
    have ⟨j, hjm, hjl, hju⟩ := h x hx ⟨i, him, .inl hlx, .inl hxu⟩
    have hd := Exact.defined_of_lt hp
    have hd' := Exact.defined_of_lt (hj.proper j hjm)
    refine ⟨j, hjm, by_contra fun hn => ?lower, by_contra fun hn => ?upper⟩
    case lower =>
      have hl := (Exact.not_le hd'.1 hd.1).mp hn
      have hlu := Exact.lt_of_le_of_lt hjl hxu
      obtain ⟨e, he⟩ := Exact.exists_finite hl hlu
      refine (hj.lower_iff.mp ⟨j, hjm, he⟩).1 <| exists_reaches hF h ⟨i, him, ?_⟩
      exact ⟨he ▸ hl, .inl (he ▸ hlu)⟩
    case upper =>
      have hu := (Exact.not_le hd.2 hd'.2).mp hn
      have hlu := Exact.lt_of_lt_of_le hlx hju
      obtain ⟨e, he⟩ := Exact.exists_finite hlu hu
      refine (hj.upper_iff.mp ⟨j, hjm, he⟩).2 <| exists_reaches hF h ⟨i, him, ?_⟩
      exact ⟨.inl (he ▸ hlu), he ▸ hu⟩
  case mpr =>
    rintro h x - ⟨i, him, hl, hu⟩
    have ⟨j, hjm, hjl, hju⟩ := h i him
    exact ⟨j, hjm, Exact.le_trans hjl hl, Exact.le_trans hu hju⟩

end Interval

namespace Region

open Line

variable {a b : Region (line (Exact K))} {t : K} [IsStrictOrderedRing K]

-- Containment is inclusion of the intervals, up to bounds that two regions share.
theorem FittedAt.contains_iff (ht : 0 ≤ t) (ha : a.FittedAt t) (hb : b.FittedAt t)
    (hL : Spaced (a.locations ∪ b.locations) t) :
    ∃ within, a.contains b = .ok within ∧
      (within = true ↔
        ∀ i ∈ b.intervals, ∃ j ∈ a.intervals, j.lower ≤ i.lower ∧ i.upper ≤ j.upper) := by
  have fa := ha.cells ht (Set.subset_union_left (t := b.locations))
  have fb := hb.cells ht (Set.subset_union_right (s := a.locations))
  have hf := a.finite_locations.union b.finite_locations
  have ⟨r, hr, _, hm⟩ :=
    fb.apply_ok (hL.separating ht) (hL.tight ht) fa (hb.tolerance_beq ha) .difference
  have he : r.isEmpty = true ↔ _ := isEmpty_iff hf hm.fitted roomy_univ Set.univ_nonempty
  refine ⟨r.isEmpty, Except.map_eq_ok.mpr ⟨r, hr, rfl⟩, ?_⟩
  rw [he, ← (separated_intervals fb).subset_iff hf (separated_intervals fa)]
  refine forall_congr' fun x => ?_
  rw [imp_iff_right (Set.mem_univ x)]
  refine forall_congr' fun hx => ?_
  rw [hm.holds (sees_outlook hx) trivial, mem_intervals fb hx, mem_intervals fa hx, Operation.holds]
  cases b.tree.root.holds (outlook x) <;> simp

-- An interval contains another one that ends with it, and is not contained by it.
theorem FittedAt.contains_iff_of_shared_bound :
    let a : Region (line (Exact ℚ)) := interval (.finite 0) (.finite 10) (.finite 1)
    let b : Region (line (Exact ℚ)) := interval (.finite 5) (.finite 10) (.finite 1)
    ((0 : ℚ) ≤ 1 ∧ a.FittedAt 1 ∧ b.FittedAt 1 ∧ Spaced (a.locations ∪ b.locations) 1) ∧
    (a.contains b = .ok true ∧
      ∀ i ∈ b.intervals, ∃ j ∈ a.intervals, j.lower ≤ i.lower ∧ i.upper ≤ j.upper) ∧
    b.contains a = .ok false ∧
      ¬∀ i ∈ a.intervals, ∃ j ∈ b.intervals, j.lower ≤ i.lower ∧ i.upper ≤ j.upper := by
  intro a b
  have ha : a.FittedAt 1 := fittedAt_interval (by norm_num)
  have hb : b.FittedAt 1 := fittedAt_interval (by norm_num)
  have hL : Spaced (a.locations ∪ b.locations) 1 := by
    rw [locations_interval, locations_interval]
    simp only [Spaced, Set.mem_union, Set.mem_insert_iff, Set.mem_singleton_iff]
    rintro x ((rfl | rfl) | (rfl | rfl)) y ((rfl | rfl) | (rfl | rfl)) <;> norm_num
  have hab : a.contains b = .ok true := by decide +kernel
  have hba : b.contains a = .ok false := by decide +kernel
  have ⟨x, hx, hi⟩ := FittedAt.contains_iff zero_le_one ha hb hL
  have ⟨y, hy, hi'⟩ := FittedAt.contains_iff zero_le_one hb ha (Set.union_comm _ _ ▸ hL)
  cases hab.symm.trans hx
  cases hba.symm.trans hy
  exact ⟨⟨zero_le_one, ha, hb, hL⟩, ⟨hab, hi.mp rfl⟩, hba, fun h => nomatch hi'.mpr h⟩

end Region
end SpacePartition
