import SpacePartition.Proofs.Line.Clipping

/-!
The intervals of a region of the line whose cuts lie in their cells. They are separated, and they
end where the two sides of a place differ.
-/

namespace SpacePartition

variable {K : Type} [Field K] [LinearOrder K] {ι : Type}

theorem OrientedPoint.beyond_toward [IsStrictOrderedRing K] {c d x : K} {dir above : Bool}
    {tol : Exact K} : Beyond d ⟨.finite c, dir, tol⟩ (toward ⟨.finite c, dir, tol⟩ above) x ↔
      if above then c + d < x else x + d < c := by
  rw [beyond_iff, toward]
  cases dir <;> cases above <;> rfl

theorem OrientedPoint.exists_toward {R : Type} (h : OrientedPoint R) (b : Branch) :
    ∃ above, b = h.toward above := by
  refine ⟨b.pick h.direct !h.direct, ?_⟩
  cases b <;> simp [toward, Branch.pick]

namespace Interval

variable {i : Interval (Exact K)} {x c : K} {dir : Bool} {tol : Exact K}

def interior (i : Interval (Exact K)) : Set K :=
  {x | i.lower < .finite x ∧ .finite x < i.upper}

-- The part of an interval on a side of a place in it.
def cutAt (i : Interval (Exact K)) (c : K) (above : Bool) : Interval (Exact K) :=
  if above then ⟨.finite c, i.upper⟩ else ⟨i.lower, .finite c⟩

theorem interior_whole : interior (K := K) ⟨.infinite false, .infinite true⟩ = .univ := by
  ext x
  simp [interior]

theorem cutAt_lt (hc : c ∈ i.interior) (above : Bool) :
    (i.cutAt c above).lower < (i.cutAt c above).upper := by
  cases above
  case false => exact hc.1
  case true  => exact hc.2

theorem clip_eq_cutAt (hc : c ∈ i.interior) (above : Bool) :
    i.clip (.finite c) above = i.cutAt c above := by
  have hmin : Scalar.min (.finite c) i.upper = .finite c := by
    rw [Exact.min_eq (by simp) (Exact.defined_of_lt hc.2).2, if_neg]
    exact fun h => Exact.lt_irrefl <| Exact.lt_trans hc.2 h
  have hmax : Scalar.max (.finite c) i.lower = .finite c := by
    rw [Exact.max_eq (by simp) (Exact.defined_of_lt hc.1).1, if_neg]
    exact fun h => Exact.lt_irrefl <| Exact.lt_trans hc.1 h
  cases above
  case false => exact congrArg (mk i.lower) hmin
  case true  => exact congrArg (mk · i.upper) hmax

theorem interior_cutAt [IsStrictOrderedRing K] (hc : c ∈ i.interior) (above : Bool) :
    i.interior ∩ {x | OrientedPoint.Beyond 0 ⟨.finite c, dir, tol⟩
      (OrientedPoint.toward ⟨.finite c, dir, tol⟩ above) x} = (i.cutAt c above).interior := by
  ext x
  change _ ∧ OrientedPoint.Beyond .. ↔ _
  rw [OrientedPoint.beyond_toward, add_zero, add_zero]
  cases above
  case false => exact ⟨fun h => ⟨h.1.1, h.2⟩, fun h => ⟨⟨h.1, Exact.lt_trans h.2 hc.2⟩, h.2⟩⟩
  case true  => exact ⟨fun h => ⟨h.2, h.1.2⟩, fun h => ⟨⟨Exact.lt_trans hc.1 h.1, h.2⟩, h.1⟩⟩

end Interval

namespace Line

variable {n : Node (line (Exact K)) ι Bool} {cell : Interval (Exact K)} {L : Set K} {t : K}

variable [IsStrictOrderedRing K]

-- No cut in its cell leaves a single point on a side of it.
theorem lower_lt_upper (hn : (cells 0 L t).Fitted cell.interior n) (hc : cell.lower < cell.upper) :
    ∀ i ∈ n.insideCells cell, i.lower < i.upper := by
  induction n generalizing cell
  case leaf i a =>
    rw [Node.insideCells]
    split
    case isTrue  => exact List.forall_mem_singleton.mpr hc
    case isFalse => exact List.forall_mem_nil _
  case fork cut plus minus hp hm =>
    obtain ⟨hs, hf⟩ := Layout.fitted_fork.mp hn
    obtain ⟨c, dir, rfl, hcC, hcL⟩ := cells_spans.mp hs
    intro j hj
    obtain ⟨above, -, hj⟩ := Node.mem_insideCells_fork.mp hj
    rw [Interval.clip_eq_cutAt hcC] at hj
    have hlt := Interval.cutAt_lt hcC above
    have hf : (cells 0 L t).Fitted (cell.cutAt c above).interior _ :=
      Interval.interior_cutAt hcC above ▸ hf (OrientedPoint.toward _ above)
    generalize OrientedPoint.toward (_ : OrientedPoint (Exact K)) above = b at hf hj
    cases b
    case plus  => exact hp hf hlt j hj
    case minus => exact hm hf hlt j hj

-- Next to a place a partition says one thing of all points.
theorem near_holds (hL : L.Finite) (hn : ∀ s ∈ n.cuts, ∃ c ∈ L, s.location = .finite c)
    (e : K) (above : Bool) :
    Near {x | n.holds (outlook x) = true} e above (n.holds (beside e above) = true) := by
  have ⟨d, hd, h⟩ := outlook_vicinity hL e above
  refine ⟨d, hd, fun x hx => ?_⟩
  refine iff_of_eq <| congrArg (· = true) <| Node.holds_congr fun s hs => ?_
  have ⟨location, dir, tol⟩ := s
  obtain ⟨c, hc, rfl⟩ := hn _ hs
  exact (h x hx).2 c hc dir tol

end Line

namespace Region

open Line

variable {r : Region (line (Exact K))} {L : Set K} {e q t : K} {above : Bool}

theorem finite_locations (r : Region (line (Exact K))) : r.locations.Finite := by
  have h := (r.tree.root.cuts.map (·.location)).finite_toSet
  refine (h.preimage (f := Exact.finite) fun _ _ _ _ => Exact.finite.inj).subset ?_
  rintro x ⟨s, hs, hx⟩
  exact List.mem_map.mpr ⟨s, hs, hx⟩

variable [IsStrictOrderedRing K] (hr : (cells 0 L t).Fitted .univ r.tree.root)

include hr

theorem separated_intervals : Interval.Separated r.intervals := by
  have hp : ∀ i ∈ r.tree.root.insideCells ⟨.infinite false, .infinite true⟩, i.lower < i.upper :=
    lower_lt_upper (Interval.interior_whole (K := K) ▸ hr) (by simp)
  exact (Interval.separated_normalize hp).1

theorem mem_intervals (hq : q ∉ L) :
    q ∈ Interval.union r.intervals ↔ r.tree.root.holds (outlook q) = true := by
  refine mem_union_intervals (fun s hs => ?finite) ?off
  case finite =>
    have ⟨c, _, hl⟩ := cells_cuts hr hs
    exact ⟨c, hl⟩
  case off =>
    rintro ⟨s, hs, hl⟩
    obtain ⟨c, hc, hl'⟩ := cells_cuts hr hs
    cases hl.symm.trans hl'
    exact hq hc.2

variable (hL : L.Finite)

include hL

theorem reaches_intervals : (∃ i ∈ r.intervals, i.Reaches e above) ↔
    r.tree.root.holds (beside e above) = true := by
  refine (Interval.near_union e above).iff hL (near_holds hL (fun s hs => ?_) e above)
    fun x hx => mem_intervals hr hx
  have ⟨c, hc, hl⟩ := cells_cuts hr hs
  exact ⟨c, hc.2, hl⟩

theorem upper_intervals : (∃ i ∈ r.intervals, i.upper = .finite e) ↔
    r.tree.root.holds (beside e false) = true ∧ r.tree.root.holds (beside e true) = false := by
  rw [(separated_intervals hr).upper_iff, reaches_intervals hr hL, reaches_intervals hr hL,
    Bool.not_eq_true]

theorem lower_intervals : (∃ i ∈ r.intervals, i.lower = .finite e) ↔
    r.tree.root.holds (beside e false) = false ∧ r.tree.root.holds (beside e true) = true := by
  rw [(separated_intervals hr).lower_iff, reaches_intervals hr hL, reaches_intervals hr hL,
    Bool.not_eq_true]

-- An interval ends where the two sides of a place differ.
theorem mem_ends : e ∈ Interval.ends r.intervals ↔
    r.tree.root.holds (beside e false) ≠ r.tree.root.holds (beside e true) := by
  rw [(separated_intervals hr).mem_ends, reaches_intervals hr hL, reaches_intervals hr hL,
    ← Bool.eq_iff_iff]

end Region
end SpacePartition
