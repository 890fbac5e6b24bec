import SpacePartition.Proofs.Plane.Trace
import SpacePartition.Proofs.Solid.Framed

/-!
Where a plane of real space meets another one. In the coordinates of a plane that crosses, the
offset from the other plane is the offset from the trace times how far the planes turn from each
other. It is the same everywhere in a parallel plane.
-/

namespace SpacePartition

open Matrix

namespace UnitLine

variable {x y a b : ℝ} {tol : Exact ℝ}

theorem offset_line {K : Type} [Field K] [LinearOrder K] {m : UnitLine K} {a b : K}
    {tol : Exact K} :
    (m.line tol).offset (flatPoint a b) = .finite (m.sin * a - m.cos * b + m.originOffset) := by
  simp only [OrientedLine.offset, line, flatPoint, Exact.finite_mul, Exact.finite_sub,
    Exact.finite_add]

-- The line through a point in the direction of a unit vector, by the angle of the vector.
theorem ofAngle_eq (h : x * x + y * y = 1) :
    OrientedLine.ofAngle (flatPoint a b) (Metric.atan2 (.finite y) (.finite x)) tol =
      line ⟨x, y, x * b - y * a, h⟩ tol := by
  simp only [OrientedLine.ofAngle, Exact.cos_atan2 h, Exact.sin_atan2 h, flatPoint,
    Exact.finite_mul, Exact.finite_sub, line]

end UnitLine

namespace Frame

open Solid

variable {f g : Frame ℝ} {a b s t : ℝ} {tol : Exact ℝ}

noncomputable def direction (f g : Frame ℝ) : Fin 3 → ℝ :=
  (length (f.turn g))⁻¹ • f.turn g

-- The point closest to the origin that two planes share.
noncomputable def meeting (f g : Frame ℝ) : Fin 3 → ℝ :=
  solution f.w g.w (f.direction g) (-f.originOffset) (-g.originOffset) 0

section Crossing

variable (h : g.turn f ≠ 0)

include h

theorem length_smul_direction : length (g.turn f) • g.direction f = g.turn f :=
  smul_inv_smul₀ (length_pos h).ne' _

theorem triple_product_direction : g.w ⬝ᵥ f.w ⨯₃ g.direction f = length (g.turn f) := by
  rw [← triple_product_permutation, direction, smul_dotProduct, ← turn, ← length_mul_self,
    smul_eq_mul, inv_mul_cancel_left₀ (length_pos h).ne']

theorem dot_meeting :
    g.meeting f ⬝ᵥ g.w = -g.originOffset ∧ g.meeting f ⬝ᵥ f.w = -f.originOffset := by
  have hd : g.w ⬝ᵥ f.w ⨯₃ g.direction f ≠ 0 := by
    rw [triple_product_direction h]
    exact (length_pos h).ne'
  rw [dotProduct_comm, dotProduct_comm _ f.w]
  exact ⟨(dot_solution hd).1, (dot_solution hd).2.1⟩

theorem intersection_eq (ht : t ≤ length (g.turn f)) :
    (g.plane (.finite t)).intersection (f.plane tol) =
      some (solidPoint (g.meeting f), solidPoint (g.direction f)) := by
  have hl := (length_pos h).ne'
  have hd : g.w ⬝ᵥ f.w ⨯₃ g.direction f ≠ 0 := triple_product_direction h ▸ hl
  have hn : ¬Exact.finite (length (g.turn f)) < .finite t := Exact.finite_lt.not.mpr ht.not_gt
  have hc : (g.plane (.finite t)).w.cross (f.plane tol).w = solidPoint (g.turn f) :=
    cross_solidPoint
  have hdir : (solidPoint (g.turn f)).divide (.finite (length (g.turn f))) =
      solidPoint (g.direction f) := divide_solidPoint hl
  have hs : Vec3.solve? (g.plane (.finite t)).w (f.plane tol).w (solidPoint (g.direction f))
      ⟨-.finite g.originOffset, -.finite f.originOffset, 0⟩ = some (solidPoint (g.meeting f)) :=
    solve?_solidPoint hd
  simp only [OrientedPlane.intersection, hc, norm_solidPoint, hdir]
  exact (if_neg hn).trans <| congrArg (Option.map (·, solidPoint (g.direction f))) hs

-- The direction lies in both planes.
theorem unit_direction : g.direction f ⬝ᵥ f.w = 0 ∧ g.direction f ⬝ᵥ g.w = 0 ∧
    g.direction f ⬝ᵥ f.u * g.direction f ⬝ᵥ f.u +
      g.direction f ⬝ᵥ f.v * g.direction f ⬝ᵥ f.v = 1 := by
  have hw : g.direction f ⬝ᵥ f.w = 0 := by
    rw [direction, smul_dotProduct, dot_turn_right, smul_zero]
  refine ⟨hw, by rw [direction, smul_dotProduct, dot_turn_left, smul_zero], ?_⟩
  have hd := f.dot_eq (g.direction f) (g.direction f)
  rw [hw, mul_zero, add_zero] at hd
  exact hd.symm.trans (unit_smul h)

-- The trace of a plane, in its own coordinates.
noncomputable def traceLine : UnitLine ℝ where
  cos          := -(g.direction f ⬝ᵥ f.u)
  sin          := -(g.direction f ⬝ᵥ f.v)
  originOffset :=
    g.meeting f ⬝ᵥ f.u * g.direction f ⬝ᵥ f.v - g.meeting f ⬝ᵥ f.v * g.direction f ⬝ᵥ f.u
  unit         := by rw [neg_mul_neg, neg_mul_neg, (unit_direction h).2.2]

theorem trace_eq (ht : t ≤ length (g.turn f)) :
    (f.plane tol).trace (g.plane (.finite t)) = .crossing ((traceLine h).line tol) := by
  -- The images always change places.
  have hs :
      ((solidPoint (g.direction f)).cross (f.plane tol).w).dot (g.plane (.finite t)).w < 0 := by
    have hs : (g.direction f ⨯₃ f.w) ⬝ᵥ g.w < 0 := by
      rw [dotProduct_comm, ← cross_anticomm, dotProduct_neg, triple_product_direction h]
      exact neg_lt_zero.mpr (length_pos h)
    rw [plane, plane, cross_solidPoint, dot_solidPoint]
    exact Exact.finite_lt.mpr hs
  have hd := (unit_direction h).2.2
  rw [← neg_mul_neg, ← neg_mul_neg (g.direction f ⬝ᵥ f.v)] at hd
  simp only [OrientedPlane.trace, intersection_eq h ht, hs, if_true, add_solidPoint, toPlane_plane]
  simp only [flatPoint, Vec2.sub, Exact.finite_sub, add_dotProduct, sub_add_cancel_left]
  refine congrArg Trace.crossing <| (UnitLine.ofAngle_eq hd).trans ?_
  rw [UnitLine.line, UnitLine.line, traceLine, OrientedLine.mk.injEq]
  refine ⟨rfl, rfl, congrArg Exact.finite ?_, rfl⟩
  dsimp only
  ring

theorem offset_eq : f.pointAt a b ⬝ᵥ g.w + g.originOffset = length (g.turn f) *
    ((traceLine h).sin * a - (traceLine h).cos * b + (traceLine h).originOffset) := by
  have ⟨hg, hf⟩ := dot_meeting h
  have hu : g.turn f ⬝ᵥ f.u = length (g.turn f) * g.direction f ⬝ᵥ f.u := by
    rw [← smul_eq_mul, ← smul_dotProduct, length_smul_direction h]
  have hv : g.turn f ⬝ᵥ f.v = length (g.turn f) * g.direction f ⬝ᵥ f.v := by
    rw [← smul_eq_mul, ← smul_dotProduct, length_smul_direction h]
  rw [dot_normal hf hg, hu, hv, traceLine]
  ring

end Crossing

theorem turn_reversed : length (g.turn f) = length (f.turn g) := by
  rw [turn, turn, ← cross_anticomm, length, length, neg_dotProduct_neg]

theorem trace_of_parallel (ht : 0 < t) (h : g.turn f = 0) :
    (f.plane tol).trace (g.plane (.finite t)) =
      .parallel (.finite (g.originOffset - g.w ⬝ᵥ f.w * f.originOffset)) := by
  have hn : (g.plane (.finite t)).intersection (f.plane tol) = none := by
    have hc : (g.plane (.finite t)).w.cross (f.plane tol).w = solidPoint (g.turn f) :=
      cross_solidPoint
    simp only [OrientedPlane.intersection, hc, norm_solidPoint, h, length_eq_zero.mpr rfl]
    exact if_pos <| Exact.finite_lt.mpr ht
  have hs : (g.plane (.finite t)).sameOrientation (f.plane tol) = decide (0 < g.w ⬝ᵥ f.w) := by
    simp only [OrientedPlane.sameOrientation, plane, dot_solidPoint, Exact.zero_eq, Exact.finite_lt]
  rw [OrientedPlane.trace, hn]
  refine congrArg Trace.parallel ?_
  rw [OrientedPlane.offsetOf, hs]
  simp only [plane, decide_eq_true_eq, Exact.neg_finite]
  rcases sq_eq_one_iff.mp (sq_dot_normal h) with hw | hw
  case inl => rw [hw, if_pos one_pos, Exact.finite_add, one_mul, sub_eq_add_neg]
  case inr =>
    have hn : ¬(0 : ℝ) < -1 := by norm_num
    rw [hw, if_neg hn, Exact.finite_add, neg_one_mul, sub_neg_eq_add]

-- Whichever way their normals point, the trace of a plane on another one tells the offsets of its
-- points from the other plane. Where the planes cross, they have a point in common.
theorem offsets_from_trace (f g : Frame ℝ) (ht : 0 < t) (tol : Exact ℝ) :
    let c := (f.plane tol).w.cross (g.plane (.finite t)).w
    let offset (a b : ℝ) := (g.plane (.finite t)).offset ((f.plane tol).ofPlane (flatPoint a b))
    (.finite t ≤ Metric.norm c.toList →
      (∃ p d, (g.plane (.finite t)).intersection (f.plane tol) = some (p, d) ∧
        (f.plane tol).offset p = 0 ∧ (g.plane (.finite t)).offset p = 0) ∧
      ∃ m, (f.plane tol).trace (g.plane (.finite t)) = .crossing m ∧
        ∀ a b, offset a b = Metric.norm c.toList * m.offset (flatPoint a b)) ∧
    (c = solidPoint 0 → ∃ k, (f.plane tol).trace (g.plane (.finite t)) = .parallel k ∧
      ∀ a b, offset a b = k) := by
  intro c offset
  have hc : c = solidPoint (f.turn g) := cross_solidPoint
  have hn : Metric.norm c.toList = .finite (length (g.turn f)) := by
    rw [hc, norm_solidPoint, turn_reversed]
  have ho (a b) : offset a b = .finite (f.pointAt a b ⬝ᵥ g.w + g.originOffset) :=
    (congrArg _ ofPlane_plane).trans offset_plane
  refine ⟨fun hl => ?crossing, fun h => ?parallel⟩
  case crossing =>
    have hl : t ≤ length (g.turn f) := Exact.finite_le.mp (hn ▸ hl)
    have h : g.turn f ≠ 0 := fun h => (ht.trans_le hl).ne' (length_eq_zero.mpr h)
    have ⟨hg, hf⟩ := dot_meeting h
    refine ⟨⟨_, _, intersection_eq h hl, ?on_f, ?on_g⟩, _, trace_eq h hl, fun a b => ?scale⟩
    case on_f  => rw [offset_plane, hf, neg_add_cancel, Exact.zero_eq]
    case on_g  => rw [offset_plane, hg, neg_add_cancel, Exact.zero_eq]
    case scale => rw [ho, hn, UnitLine.offset_line, Exact.finite_mul, offset_eq h]
  case parallel =>
    have h : g.turn f = 0 := by
      rw [turn, ← cross_anticomm, ← turn, solidPoint_inj.mp (hc.symm.trans h), neg_zero]
    refine ⟨_, trace_of_parallel ht h, fun a b => ?_⟩
    rw [ho, dot_normal_of_parallel h]

-- A slanted plane that crosses a level one, and one that faces against it.
theorem offsets_from_trace_of_level :
    let level : Frame ℝ := ⟨![1, 0, 0], ![0, 1, 0], -5, by simp, by simp, by simp⟩
    let slanted : Frame ℝ := ⟨![0, 1, 0], ![-4 / 5, 0, 3 / 5], 0, by simp,
      by simp; norm_num, by simp⟩
    let t : Exact ℝ := .finite (1 / 2)
    ((0 : ℝ) < 1 / 2 ∧
      t ≤ Metric.norm ((level.plane 0).w.cross (slanted.plane t).w).toList ∧
      (level.plane 0).w.cross (level.reversed.plane t).w = solidPoint 0) ∧
    (∃ m, (level.plane 0).trace (slanted.plane t) = .crossing m ∧
      (slanted.plane t).offset ((level.plane 0).ofPlane (flatPoint 0 0)) =
        Metric.norm ((level.plane 0).w.cross (slanted.plane t).w).toList *
          m.offset (flatPoint 0 0)) ∧
    ∃ k, (level.plane 0).trace (level.reversed.plane t) = .parallel k ∧
      k = (level.reversed.plane t).offset ((level.plane 0).ofPlane (flatPoint 0 0)) := by
  intro level slanted t
  have ht : (0 : ℝ) < 1 / 2 := by norm_num
  have hl : t ≤ Metric.norm ((level.plane 0).w.cross (slanted.plane t).w).toList := by
    have hc : (level.plane 0).w.cross (slanted.plane t).w = solidPoint (level.turn slanted) :=
      cross_solidPoint
    have hd : level.turn slanted ⬝ᵥ level.turn slanted = 9 / 25 := by
      simp [turn, w, level, slanted, cross_apply]
      norm_num
    rw [hc, norm_solidPoint, length, hd]
    exact Exact.finite_le.mpr <| (Real.le_sqrt' ht).mpr (by norm_num)
  have hz : (level.plane 0).w.cross (level.reversed.plane t).w = solidPoint 0 := by
    have hc : (level.plane 0).w.cross (level.reversed.plane t).w =
        solidPoint (level.turn level.reversed) := cross_solidPoint
    rw [hc, turn, w_reversed, map_neg, cross_self, neg_zero]
  obtain ⟨-, m, hm, ho⟩ := (level.offsets_from_trace slanted ht 0).1 hl
  obtain ⟨k, hk, ho'⟩ := (level.offsets_from_trace level.reversed ht 0).2 hz
  exact ⟨⟨ht, hl, hz⟩, ⟨m, hm, ho 0 0⟩, k, hk, (ho' 0 0).symm⟩

end Frame
end SpacePartition
