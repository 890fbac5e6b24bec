import Mathlib.LinearAlgebra.AffineSpace.FiniteDimensional
import Mathlib.LinearAlgebra.Matrix.DotProduct
import SpacePartition.Proofs.Scalar.Real
import SpacePartition.Proofs.Solid.Frame

/-!
Planes of real space. Every plane that is made from a point and a normal, or through three points,
carries a frame, and so does the plane turned around. A plane is not made only if the normal is zero
or the points lie on one line.
-/

namespace SpacePartition

open Matrix

variable {p q r n w : Fin 3 → ℝ} {tol : Exact ℝ} {h : OrientedPlane (Exact ℝ)}

namespace Solid

noncomputable def length (p : Fin 3 → ℝ) : ℝ :=
  Real.sqrt (p ⬝ᵥ p)

theorem dot_self_nonneg (p : Fin 3 → ℝ) : 0 ≤ p ⬝ᵥ p :=
  Finset.sum_nonneg fun i _ => mul_self_nonneg (p i)

theorem length_mul_self (p : Fin 3 → ℝ) : length p * length p = p ⬝ᵥ p :=
  Real.mul_self_sqrt (dot_self_nonneg p)

theorem length_eq_zero : length p = 0 ↔ p = 0 := by
  rw [← dotProduct_self_eq_zero, ← length_mul_self, mul_self_eq_zero]

theorem length_pos (h : p ≠ 0) : 0 < length p :=
  (Real.sqrt_nonneg _).lt_of_ne' (length_eq_zero.not.mpr h)

theorem norm_solidPoint : Metric.norm (solidPoint p).toList = .finite (length p) := by
  have h : p 0 * p 0 + p 1 * p 1 + p 2 * p 2 = p ⬝ᵥ p := (vec3_dotProduct p p).symm
  rw [length, ← Exact.sqrt_finite (dot_self_nonneg p), ← h]
  rfl

-- The direction of a vector is a unit vector.
theorem unit_smul (h : p ≠ 0) : ((length p)⁻¹ • p) ⬝ᵥ ((length p)⁻¹ • p) = 1 := by
  have hl := (length_pos h).ne'
  rw [smul_dotProduct, dotProduct_smul, ← length_mul_self, smul_eq_mul, smul_eq_mul,
    inv_mul_cancel_left₀ hl, inv_mul_cancel₀ hl]

theorem cross_eq_zero_iff : (q - p) ⨯₃ (r - p) = 0 ↔ Collinear ℝ {p, q, r} := by
  rw [collinear_iff_of_mem (Set.mem_insert p _)]
  simp only [Set.forall_mem_insert, Set.mem_singleton_iff, forall_eq, vadd_eq_add]
  constructor
  case mp =>
    intro h
    by_cases hq : q - p = 0
    case pos =>
      refine ⟨r - p, ⟨0, ?p_eq⟩, ⟨0, ?q_eq⟩, 1, ?r_eq⟩
      case p_eq => rw [zero_smul, zero_add]
      case q_eq => rw [zero_smul, zero_add, sub_eq_zero.mp hq]
      case r_eq => rw [one_smul, sub_add_cancel]
    case neg =>
      have hc : (q - p) ⨯₃ ((q - p) ⨯₃ (r - p)) =
          ((q - p) ⬝ᵥ (r - p)) • (q - p) - ((q - p) ⬝ᵥ (q - p)) • (r - p) :=
        cross_cross_eq_smul_sub_smul' ..
      rw [h, map_zero, eq_comm, sub_eq_zero] at hc
      have hn : (q - p) ⬝ᵥ (q - p) ≠ 0 := dotProduct_self_eq_zero.not.mpr hq
      refine ⟨q - p, ⟨0, ?p_on⟩, ⟨1, ?q_on⟩, ((q - p) ⬝ᵥ (q - p))⁻¹ * ((q - p) ⬝ᵥ (r - p)), ?r_on⟩
      case p_on => rw [zero_smul, zero_add]
      case q_on => rw [one_smul, sub_add_cancel]
      case r_on => rw [mul_smul, hc, inv_smul_smul₀ hn, sub_add_cancel]
  case mpr =>
    rintro ⟨v, -, ⟨s, rfl⟩, s', rfl⟩
    rw [add_sub_cancel_right, add_sub_cancel_right, map_smul, map_smul, LinearMap.smul_apply,
      cross_self, smul_zero, smul_zero]

end Solid

namespace OrientedPlane

-- The vector that `orthogonal` takes the direction of, and the number that it divides by for that.
def orthogonalParts {R : Type} [Metric R] (w : Vec3 R) : Vec3 R × R :=
  let threshold := (3 : Nat) / (5 : Nat) * Metric.norm w.toList
  if Scalar.abs w.x ≤ threshold then (⟨0, w.z, -w.y⟩, Metric.hypot w.y w.z)
  else if Scalar.abs w.y ≤ threshold then (⟨-w.z, 0, w.x⟩, Metric.hypot w.x w.z)
  else (⟨w.y, -w.x, 0⟩, Metric.hypot w.x w.y)

theorem orthogonal_eq {R : Type} [Metric R] (w : Vec3 R) :
    orthogonal w = (orthogonalParts w).1.divide (orthogonalParts w).2 := by
  simp only [orthogonal, orthogonalParts]
  split_ifs <;> rfl

open Solid

-- A component that is well below the length leaves something for the other two.
theorem pos_of_abs_le {a b : ℝ} (h : 0 < a * a + b) (ha : |a| ≤ 3 / 5 * Real.sqrt (a * a + b)) :
    0 < b := by
  have ha := mul_self_le_mul_self (abs_nonneg a) ha
  rw [abs_mul_abs_self, mul_mul_mul_comm, Real.mul_self_sqrt h.le] at ha
  linarith

theorem orthogonalParts_solidPoint : orthogonalParts (solidPoint w) =
    if |w 0| ≤ 3 / 5 * length w then
      (solidPoint ![0, w 2, -w 1], .finite (Real.sqrt (w 1 * w 1 + w 2 * w 2)))
    else if |w 1| ≤ 3 / 5 * length w then
      (solidPoint ![-w 2, 0, w 0], .finite (Real.sqrt (w 0 * w 0 + w 2 * w 2)))
    else (solidPoint ![w 1, -w 0, 0], .finite (Real.sqrt (w 0 * w 0 + w 1 * w 1))) := by
  have hn : ((3 : Nat) : Exact ℝ) / ((5 : Nat) : Exact ℝ) * Metric.norm (solidPoint w).toList =
      .finite (3 / 5 * length w) := by
    have h5 : (5 : ℝ) ≠ 0 := by norm_num
    rw [norm_solidPoint, ← Exact.finite_mul, ← Exact.finite_div h5]
    rfl
  rw [orthogonalParts, hn]
  exact if_congr Exact.finite_le rfl <| if_congr Exact.finite_le rfl rfl

-- Each branch divides by the length of two components, which are not both zero.
theorem exists_orthogonalParts (hw : w ≠ 0) : ∃ d s, 0 < s ∧ s * s = d ⬝ᵥ d ∧ d ⬝ᵥ w = 0 ∧
    orthogonalParts (solidPoint w) = (solidPoint d, .finite s) := by
  have hp : 0 < w 0 * w 0 + w 1 * w 1 + w 2 * w 2 :=
    vec3_dotProduct w w ▸ (dot_self_nonneg w).lt_of_ne' (dotProduct_self_eq_zero.not.mpr hw)
  have hs : length w = Real.sqrt (w 0 * w 0 + w 1 * w 1 + w 2 * w 2) :=
    congrArg Real.sqrt (vec3_dotProduct w w)
  have branch {r : ℝ} {d : Fin 3 → ℝ} (hr : 0 < r) (hd : r = d ⬝ᵥ d) (hdw : d ⬝ᵥ w = 0) :
      ∃ d' s, 0 < s ∧ s * s = d' ⬝ᵥ d' ∧ d' ⬝ᵥ w = 0 ∧
        (solidPoint d, Exact.finite (Real.sqrt r)) = (solidPoint d', .finite s) :=
    ⟨d, _, Real.sqrt_pos.mpr hr, (Real.mul_self_sqrt hr.le).trans hd, hdw, rfl⟩
  rw [orthogonalParts_solidPoint]
  split_ifs with hx hy
  case pos =>
    rw [hs, add_assoc] at hx
    refine branch (pos_of_abs_le (by linarith) hx) ?_ ?_
    all_goals
      rw [vec3_dotProduct]
      dsimp only [cons_val]
      ring
  case pos =>
    rw [hs, add_assoc, add_left_comm] at hy
    refine branch (pos_of_abs_le (by linarith) hy) ?_ ?_
    all_goals
      rw [vec3_dotProduct]
      dsimp only [cons_val]
      ring
  case neg =>
    have hx : w 0 ≠ 0 := fun h => hx <| by rw [h, abs_zero, hs]; positivity
    refine branch (add_pos_of_pos_of_nonneg (mul_self_pos.mpr hx) (mul_self_nonneg _)) ?_ ?_
    all_goals
      rw [vec3_dotProduct]
      dsimp only [cons_val]
      ring

-- Whichever branch it takes, `orthogonal` yields a unit vector at right angles.
theorem orthogonal_solidPoint (hw : w ≠ 0) : ∃ u, orthogonal (solidPoint w) = solidPoint u ∧
    u ⬝ᵥ u = 1 ∧ u ⬝ᵥ w = 0 := by
  have ⟨d, s, hs, hd, hdw, he⟩ := exists_orthogonalParts hw
  refine ⟨s⁻¹ • d, ?orthogonal, ?unit, ?dot⟩
  case orthogonal => rw [orthogonal_eq, he, divide_solidPoint hs.ne']
  case unit =>
    rw [smul_dotProduct, dotProduct_smul, ← hd, smul_eq_mul, smul_eq_mul,
      inv_mul_cancel_left₀ hs.ne', inv_mul_cancel₀ hs.ne']
  case dot => rw [smul_dotProduct, hdw, smul_zero]

theorem exists_frame_of_unit (hw : w ⬝ᵥ w = 1) (d : ℝ) : ∃ f : Frame ℝ, f.w = w ∧
    f.originOffset = d ∧ orthogonal (solidPoint w) = solidPoint f.u ∧ w ⨯₃ f.u = f.v := by
  have hw0 : w ≠ 0 := fun h => by simp [h] at hw
  have ⟨u, hu, huu, huw⟩ := orthogonal_solidPoint hw0
  have hwu : w ⬝ᵥ u = 0 := dotProduct_comm w u ▸ huw
  have hv : (w ⨯₃ u) ⬝ᵥ (w ⨯₃ u) = 1 := by
    rw [cross_dot_cross, hw, huu, hwu, zero_mul, sub_zero, one_mul]
  refine ⟨⟨u, w ⨯₃ u, d, huu, hv, dot_cross_self ..⟩, ?_, rfl, hu, rfl⟩
  rw [Frame.w, cross_cross_eq_smul_sub_smul', huu, hwu, one_smul, zero_smul, sub_zero]

theorem ofNormal_zero : ofNormal (solidPoint p) (solidPoint 0) tol = .error .zeroNorm := by
  have hn : Metric.norm (solidPoint (0 : Fin 3 → ℝ)).toList = 0 :=
    norm_solidPoint.trans <| congrArg _ <| length_eq_zero.mpr rfl
  rw [ofNormal, hn]
  exact if_pos Exact.finite_beq_self

theorem exists_frame (hn : n ≠ 0) :
    ∃ f : Frame ℝ, ofNormal (solidPoint p) (solidPoint n) tol = .ok (f.plane tol) := by
  have hl := (length_pos hn).ne'
  have hb : (Scalar.toBEq.beq (Exact.finite (length n)) (0 : Exact ℝ)) = false :=
    decide_eq_false fun h => hl (Exact.finite.inj h.1)
  have ⟨f, hw, ho, hu, hv⟩ := exists_frame_of_unit (unit_smul hn) (-(p ⬝ᵥ (length n)⁻¹ • n))
  refine ⟨f, ?_⟩
  rw [ofNormal, norm_solidPoint]
  simp only [hb, Bool.false_eq_true, if_false, divide_solidPoint hl, dot_solidPoint, hu,
    cross_solidPoint, hv, Exact.neg_finite, scale_solidPoint, Frame.plane, hw, ho]

theorem ofNormal_eq_error :
    ofNormal (solidPoint p) (solidPoint n) tol = .error .zeroNorm ↔ n = 0 := by
  constructor
  case mp =>
    intro h
    by_contra hn
    have ⟨f, hf⟩ : ∃ f : Frame ℝ, ofNormal (solidPoint p) (solidPoint n) tol = .ok (f.plane tol) :=
      exists_frame hn
    cases hf.symm.trans h
  case mpr => exact fun h => h ▸ ofNormal_zero

theorem throughOrigin_eq :
    throughOrigin (solidPoint n) tol = ofNormal (solidPoint 0) (solidPoint n) tol :=
  rfl

theorem throughPoints_eq : throughPoints (solidPoint p) (solidPoint q) (solidPoint r) tol =
    ofNormal (solidPoint p) (solidPoint ((q - p) ⨯₃ (r - p))) tol := by
  rw [throughPoints, sub_solidPoint, sub_solidPoint, cross_solidPoint]

-- The planes of points and normals, and those planes turned around any number of times.
inductive Made : OrientedPlane (Exact ℝ) → Prop
  | ofNormal (p n : Fin 3 → ℝ) (tol : Exact ℝ) (h : OrientedPlane (Exact ℝ)) :
    ofNormal (solidPoint p) (solidPoint n) tol = .ok h → Made h
  | throughOrigin (n : Fin 3 → ℝ) (tol : Exact ℝ) (h : OrientedPlane (Exact ℝ)) :
    throughOrigin (solidPoint n) tol = .ok h → Made h
  | throughPoints (p q r : Fin 3 → ℝ) (tol : Exact ℝ) (h : OrientedPlane (Exact ℝ)) :
    throughPoints (solidPoint p) (solidPoint q) (solidPoint r) tol = .ok h → Made h
  | reversed (h : OrientedPlane (Exact ℝ)) : Made h → Made h.reversed

-- Whether a plane has a right-handed orthonormal frame, with the projection of the origin for its
-- own origin, and projects points at right angles.
structure Framed (h : OrientedPlane (Exact ℝ)) : Prop where
  unit : ∀ axis ∈ [h.u, h.v, h.w], Metric.norm axis.toList = 1
  orthogonal : h.u.dot h.v = 0 ∧ h.v.dot h.w = 0 ∧ h.w.dot h.u = 0
  rightHanded : h.u.cross h.v = h.w
  origin : h.origin = h.w.scale (-h.originOffset)
  divides : ∃ d, ∃ s : ℝ, orthogonalParts h.w = (d, .finite s) ∧ s ≠ 0 ∧
    OrientedPlane.orthogonal h.w = d.divide (.finite s)
  toPlane : ∀ a b, h.toPlane (h.ofPlane (flatPoint a b)) = flatPoint a b
  project : ∀ p, let image := (solid (Exact ℝ)).project h (solidPoint p)
    solidPoint p = image.add (h.w.scale (h.offset (solidPoint p))) ∧ h.offset image = 0
  reversed : ∀ p, h.reversed.offset (solidPoint p) = -h.offset (solidPoint p) ∧
    (solid (Exact ℝ)).project h.reversed (solidPoint p) = (solid (Exact ℝ)).project h (solidPoint p)

theorem exists_frame_of_ok (hh : ofNormal (solidPoint p) (solidPoint n) tol = .ok h) :
    ∃ f : Frame ℝ, h = f.plane tol := by
  by_cases hn : n = 0
  case pos => cases (ofNormal_eq_error.mpr hn).symm.trans hh
  case neg => exact (exists_frame hn).imp fun f hf => Except.ok.inj <| hh.symm.trans hf

theorem Made.exists_frame (hh : Made h) : ∃ (f : Frame ℝ) (tol : Exact ℝ), h = f.plane tol := by
  induction hh
  case ofNormal p n tol h hh    => exact (exists_frame_of_ok hh).imp fun f hf => ⟨tol, hf⟩
  case throughOrigin n tol h hh =>
    exact (exists_frame_of_ok <| throughOrigin_eq ▸ hh).imp fun f hf => ⟨tol, hf⟩
  case throughPoints p q r tol h hh =>
    exact (exists_frame_of_ok <| throughPoints_eq ▸ hh).imp fun f hf => ⟨tol, hf⟩
  case reversed h hh hi =>
    obtain ⟨f, tol, rfl⟩ := hi
    exact ⟨f.reversed, tol, Frame.reversed_plane⟩

theorem framed_plane (f : Frame ℝ) (tol : Exact ℝ) : Framed (f.plane tol) where
  unit := by
    have unit {p : Fin 3 → ℝ} (h : p ⬝ᵥ p = 1) : Metric.norm (solidPoint p).toList = 1 := by
      rw [norm_solidPoint, length, h, Real.sqrt_one]
      rfl
    simp only [List.forall_mem_cons, Frame.plane]
    exact ⟨unit f.unit_u, unit f.unit_v, unit Frame.unit_w, List.forall_mem_nil _⟩
  orthogonal := by
    simp only [Frame.plane, dot_solidPoint, f.orthogonal, Frame.dot_v_w, dotProduct_comm f.w,
      Frame.dot_u_w, Exact.zero_eq, and_self]
  rightHanded := cross_solidPoint
  origin := by
    simp only [Frame.plane, Exact.neg_finite, scale_solidPoint]
  divides := by
    have hw : f.w ≠ 0 := fun h => by simpa [h] using Frame.unit_w (f := f)
    obtain ⟨d, s, hs, -, -, he⟩ := exists_orthogonalParts hw
    refine ⟨_, s, he, hs.ne', ?_⟩
    have he : orthogonalParts (f.plane tol).w = _ := he
    rw [orthogonal_eq, he]
  toPlane a b := by
    rw [Frame.ofPlane_plane, Frame.toPlane_plane, Frame.dot_u_pointAt, Frame.dot_v_pointAt]
  project p := by
    intro image
    have hi : image = (f.plane tol).ofPlane (flatPoint (p ⬝ᵥ f.u) (p ⬝ᵥ f.v)) :=
      congrArg (f.plane tol).ofPlane Frame.toPlane_plane
    refine ⟨?_, hi ▸ Frame.offset_ofPlane⟩
    rw [hi, Frame.ofPlane_plane, Frame.offset_plane]
    simp only [Frame.plane, scale_solidPoint, add_solidPoint, f.pointAt_add]
  reversed p := by
    refine ⟨?offset, ?project⟩
    case offset =>
      rw [Frame.reversed_plane, Frame.offset_plane, Frame.offset_plane, Frame.w_reversed,
        Exact.neg_finite, dotProduct_neg, neg_add]
      rfl
    case project =>
      have project (f : Frame ℝ) : (solid (Exact ℝ)).project (f.plane tol) (solidPoint p) = _ :=
        f.ofPlane_toPlane
      rw [Frame.reversed_plane, project, project, Frame.pointAt, Frame.pointAt, Frame.w_reversed,
        Frame.reversed, neg_neg, smul_neg, neg_smul, add_right_comm]

-- Every plane that can be made has a frame, however often it is turned around, and only a normal of
-- no length or points on one line make none.
theorem framed_of_made :
    (∀ h : OrientedPlane (Exact ℝ), Made h → Framed h) ∧
    (∀ (p n : Fin 3 → ℝ) (tol : Exact ℝ),
      (ofNormal (solidPoint p) (solidPoint n) tol = .error .zeroNorm ↔ n = 0) ∧
      (n ≠ 0 → ∃ h, ofNormal (solidPoint p) (solidPoint n) tol = .ok h)) ∧
    (∀ (n : Fin 3 → ℝ) (tol : Exact ℝ),
      (throughOrigin (solidPoint n) tol = .error .zeroNorm ↔ n = 0) ∧
      (n ≠ 0 → ∃ h, throughOrigin (solidPoint n) tol = .ok h)) ∧
    ∀ (p q r : Fin 3 → ℝ) (tol : Exact ℝ),
      (throughPoints (solidPoint p) (solidPoint q) (solidPoint r) tol = .error .zeroNorm ↔
        Collinear ℝ {p, q, r}) ∧
      (¬Collinear ℝ {p, q, r} →
        ∃ h, throughPoints (solidPoint p) (solidPoint q) (solidPoint r) tol = .ok h) := by
  have made (p n : Fin 3 → ℝ) (tol : Exact ℝ) :
      (ofNormal (solidPoint p) (solidPoint n) tol = .error .zeroNorm ↔ n = 0) ∧
      (n ≠ 0 → ∃ h, ofNormal (solidPoint p) (solidPoint n) tol = .ok h) :=
    ⟨ofNormal_eq_error, fun hn => (exists_frame hn).imp' (Frame.plane · tol) fun _ hf => hf⟩
  refine ⟨fun h hh => ?framed, made, fun n tol => made 0 n tol, fun p q r tol => ?points⟩
  case framed =>
    obtain ⟨f, tol, rfl⟩ := hh.exists_frame
    exact framed_plane f tol
  case points =>
    rw [throughPoints_eq, ← cross_eq_zero_iff]
    exact made p _ tol

-- A slanted plane turned around, and three points on one line.
theorem framed_of_made_of_slanted :
    let p : Fin 3 → ℝ := ![1, 2, 3]
    let n : Fin 3 → ℝ := ![0, 3, 4]
    (n ≠ 0 ∧ Collinear ℝ {0, n, n + n}) ∧
    (∃ h : OrientedPlane (Exact ℝ), ofNormal (solidPoint p) (solidPoint n) 0 = .ok h ∧
      Made h.reversed ∧ h.reversed.u.cross h.reversed.v = h.reversed.w ∧
      h.reversed.toPlane (h.reversed.ofPlane (flatPoint 5 7)) = flatPoint 5 7) ∧
    throughPoints (solidPoint 0) (solidPoint n) (solidPoint (n + n)) 0 = .error .zeroNorm := by
  intro p n
  obtain ⟨framed, normal, -, points⟩ := framed_of_made
  have hn : n ≠ 0 := fun h => absurd (congrFun h 1) (by norm_num [n])
  have hc : Collinear ℝ {0, n, n + n} := by
    rw [← cross_eq_zero_iff, sub_zero, sub_zero, map_add, cross_self, zero_add]
  obtain ⟨h, hh⟩ := (normal p n 0).2 hn
  have hm : Made h.reversed := .reversed h (.ofNormal p n 0 h hh)
  have hf := framed _ hm
  exact ⟨⟨hn, hc⟩, ⟨h, hh, hm, hf.rightHanded, hf.toPlane 5 7⟩, (points 0 n (n + n) 0).1.mpr hc⟩

end OrientedPlane
end SpacePartition
