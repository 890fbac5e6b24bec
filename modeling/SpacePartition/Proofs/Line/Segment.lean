import SpacePartition.Proofs.Line.Measure
import SpacePartition.Proofs.Line.Parts

/-!
Regions of the line that are one interval with finite bounds, however they are cut.
-/

namespace SpacePartition

variable {K : Type} [Field K] [LinearOrder K]

namespace Region

open Line

variable {r : Region (line (Exact K))} {M U V : Set K} {t lower upper : K}

theorem Occupies.congr (hr : r.Occupies M t U) (h : ∀ x ∉ M, x ∈ U ↔ x ∈ V) : r.Occupies M t V where
  tolerance  := hr.tolerance
  fitted     := hr.fitted
  holds x hx := (hr.holds x hx).trans (h x hx)

variable [IsStrictOrderedRing K]

theorem Occupies.isEmpty_eq (hr : r.Occupies M t U) (hM : M.Finite) (h : ∃ x ∉ M, x ∈ U) :
    r.isEmpty = false := by
  refine Bool.eq_false_iff.mpr fun he => ?_
  have ⟨x, hx, hU⟩ := h
  have hn := (Line.isEmpty_iff hM hr.fitted roomy_univ Set.univ_nonempty).mp he x trivial hx
  exact absurd ((hr.holds x hx).mpr hU) (Bool.eq_false_iff.mp hn)

variable (hr : r.Occupies M t (Set.Ioo lower upper)) (hM : M.Finite) (hl : lower ∈ M)
variable (hu : upper ∈ M) (h : lower < upper)

include hr hM hl hu h

theorem Occupies.intervals_Ioo : r.intervals = [(lower, upper)].map Interval.ofBounds := by
  have hs : Interval.Separated ([(lower, upper)].map Interval.ofBounds) :=
    ⟨by simpa [Interval.ofBounds] using h, List.pairwise_singleton ..⟩
  refine Occupies.intervals_eq (hr.congr fun x hx => ?_) hM hs
  have hlx : x ≠ lower := fun he => hx (he ▸ hl)
  have hux : x ≠ upper := fun he => hx (he ▸ hu)
  simp [Interval.ofBounds, Interval.points, lt_iff_le_and_ne, hlx.symm, hux]

theorem Occupies.size_Ioo : r.size = .ok (.finite (upper - lower)) := by
  rw [size_eq_sum, hr.intervals_Ioo hM hl hu h, Interval.sum_size]
  simp [Interval.total]

-- A shorter interval than counts is taken to lie at a cut.
theorem Occupies.barycenter_Ioo : ∃ q, r.barycenter = .ok (Exact.finite q) ∧
    ((2 ^ 1022)⁻¹ ≤ upper - lower → q = (lower + upper) / 2) := by
  have hi := hr.intervals_Ioo hM hl hu h
  have hz := hr.size_Ioo hM hl hu h
  by_cases hs : (2 ^ 1022)⁻¹ ≤ upper - lower
  case pos =>
    have ⟨q, hq, hm⟩ := exists_barycenter hi hz hs
    refine ⟨q, hq, fun _ => mul_left_cancel₀ (sub_pos.mpr h).ne' <| hm.trans ?_⟩
    simp [Interval.total]
    ring
  case neg =>
    have hb : r.barycenter = .ok r.lineProperties.barycenter := rfl
    cases hr' : r.tree.root
    case leaf => exact absurd (eq_zero_of_leaf hr' hz) (sub_pos.mpr h).ne'
    case fork i a cut p m =>
      have hc : cut ∈ r.tree.root.cuts := hr' ▸ List.mem_cons_self
      obtain ⟨c, -, hl⟩ := cells_cuts hr.fitted hc
      have hn : ¬Scalar.leastSize ≤ Exact.finite (upper - lower) := Exact.finite_le.not.mpr hs
      have hsum := Except.ok.inj <| r.size_eq_sum.symm.trans hz
      refine ⟨c, ?_, fun hs' => absurd hs' hs⟩
      rw [hb, lineProperties, hr']
      simp only [hsum, Exact.isInfinite_finite, hn, if_false, Bool.false_eq_true]
      exact congrArg _ hl

end Region
end SpacePartition
