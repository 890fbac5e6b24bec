import SpacePartition.Proofs.Plane.Lines
import SpacePartition.Proofs.Solid.Framed

/-!
Distances from the plane through three points. The offset of a point from the plane is its distance
from the points that span it, and the three points stay apart in the coordinates of the plane.
-/

namespace SpacePartition

open Matrix

variable {p q r c x : Fin 3 → ℝ} {s : Set (Fin 3 → ℝ)} {t : ℝ} {tol : Exact ℝ} {f : Frame ℝ}

namespace Solid

-- Whether a point is at a distance below `t` from a set.
def Near (t : ℝ) (s : Set (Fin 3 → ℝ)) (c : Fin 3 → ℝ) : Prop :=
  ∃ x ∈ s, length (c - x) < t

theorem near_of_mem (ht : 0 < t) (hc : c ∈ s) : Near t s c :=
  ⟨c, hc, by rwa [sub_self, length_eq_zero.mpr rfl]⟩

-- A vector at right angles to the normal of two others is a combination of them.
theorem exists_combination {e e' v : Fin 3 → ℝ} (hn : e ⨯₃ e' ≠ 0) (hv : v ⬝ᵥ e ⨯₃ e' = 0) :
    ∃ a b : ℝ, v = a • e + b • e' := by
  have hnn : e ⨯₃ e' ⬝ᵥ e ⨯₃ e' ≠ 0 := dotProduct_self_eq_zero.not.mpr hn
  have hc : v ⨯₃ (e ⨯₃ e') = (v ⬝ᵥ e') • e - (e ⬝ᵥ v) • e' := cross_cross_eq_smul_sub_smul' ..
  have he : e ⨯₃ e' ⨯₃ (v ⨯₃ (e ⨯₃ e')) = (e ⨯₃ e' ⬝ᵥ e ⨯₃ e') • v := by
    rw [cross_cross_eq_smul_sub_smul', hv, zero_smul, sub_zero]
  have hl : e ⨯₃ e' ⨯₃ e = (e ⬝ᵥ e) • e' - (e' ⬝ᵥ e) • e := cross_cross_eq_smul_sub_smul ..
  have hr : e ⨯₃ e' ⨯₃ e' = (e ⬝ᵥ e') • e' - (e' ⬝ᵥ e') • e := cross_cross_eq_smul_sub_smul ..
  rw [hc, map_sub, map_smul, map_smul, hl, hr, eq_comm, ← eq_inv_smul_iff₀ hnn] at he
  refine ⟨(e ⨯₃ e' ⬝ᵥ e ⨯₃ e')⁻¹ * (e ⬝ᵥ v * e' ⬝ᵥ e' - v ⬝ᵥ e' * e' ⬝ᵥ e),
    (e ⨯₃ e' ⬝ᵥ e ⨯₃ e')⁻¹ * (v ⬝ᵥ e' * e ⬝ᵥ e - e ⬝ᵥ v * e ⬝ᵥ e'), he.trans ?_⟩
  module

end Solid

namespace Frame

open Solid

-- Whether a frame belongs to the plane through three points.
structure Spans (f : Frame ℝ) (p q r : Fin 3 → ℝ) : Prop where
  turned : ¬Collinear ℝ {p, q, r}
  normal : ∃ a : ℝ, f.w = a • (q - p) ⨯₃ (r - p)
  offset : p ⬝ᵥ f.w + f.originOffset = 0

theorem exists_spans (h : ¬Collinear ℝ {p, q, r}) : ∃ f : Frame ℝ, f.Spans p q r ∧
    OrientedPlane.throughPoints
      (solidPoint p) (solidPoint q) (solidPoint r) tol = .ok (f.plane tol) := by
  have hn : (q - p) ⨯₃ (r - p) ≠ 0 := cross_eq_zero_iff.not.mpr h
  have hl := (length_pos hn).ne'
  obtain ⟨f, hf⟩ : ∃ f : Frame ℝ, OrientedPlane.ofNormal (solidPoint p)
      (solidPoint ((q - p) ⨯₃ (r - p))) tol = .ok (f.plane tol) := OrientedPlane.exists_frame hn
  have hb : (Scalar.toBEq.beq (Exact.finite (length ((q - p) ⨯₃ (r - p)))) (0 : Exact ℝ)) = false :=
    decide_eq_false fun h => hl (Exact.finite.inj h.1)
  have he := hf
  rw [OrientedPlane.ofNormal, norm_solidPoint] at he
  simp only [hb, Bool.false_eq_true, if_false, divide_solidPoint hl, dot_solidPoint,
    Exact.neg_finite, Except.ok.injEq, Frame.plane, OrientedPlane.mk.injEq, Exact.finite.injEq,
    solidPoint_inj] at he
  obtain ⟨-, -, -, hw, ho, -⟩ := he
  refine ⟨f, ⟨h, ⟨_, hw.symm⟩, ?_⟩, OrientedPlane.throughPoints_eq.trans hf⟩
  rw [← ho, ← hw, add_neg_cancel]

namespace Spans

variable (h : f.Spans p q r)

include h

theorem offset_corners : ∀ x ∈ ({p, q, r} : Set (Fin 3 → ℝ)), x ⬝ᵥ f.w + f.originOffset = 0 := by
  obtain ⟨a, hw⟩ := h.normal
  have hq : (q - p) ⬝ᵥ f.w = 0 := by rw [hw, dotProduct_smul, dot_self_cross, smul_zero]
  have hr : (r - p) ⬝ᵥ f.w = 0 := by rw [hw, dotProduct_smul, dot_cross_self, smul_zero]
  rw [sub_dotProduct, sub_eq_zero] at hq hr
  rintro x (rfl | rfl | rfl)
  case inl     => exact h.offset
  case inr.inl => rw [hq, h.offset]
  case inr.inr => rw [hr, h.offset]

-- The points that three points span are those without an offset.
theorem mem_affineSpan : x ∈ affineSpan ℝ {p, q, r} ↔ x ⬝ᵥ f.w + f.originOffset = 0 := by
  have mem {y} (hy : y ∈ ({p, q, r} : Set (Fin 3 → ℝ))) : y ∈ affineSpan ℝ {p, q, r} :=
    subset_affineSpan _ _ hy
  constructor
  case mp =>
    intro hx
    refine affineSpan_induction hx h.offset_corners fun a u v y hu hv hy => ?_
    rw [vsub_eq_sub, vadd_eq_add, add_dotProduct, smul_dotProduct, sub_dotProduct, smul_eq_mul]
    linear_combination a * (hu - hv) + hy
  case mpr =>
    intro hx
    obtain ⟨a, hw⟩ := h.normal
    have ha : a ≠ 0 := by
      rintro rfl
      simpa [hw] using unit_w (f := f)
    have hv : (x - p) ⬝ᵥ (q - p) ⨯₃ (r - p) = 0 := by
      have ho : (x - p) ⬝ᵥ f.w = 0 := by
        rw [sub_dotProduct]
        linear_combination hx - h.offset
      rw [hw, dotProduct_smul, smul_eq_mul] at ho
      exact (mul_eq_zero.mp ho).resolve_left ha
    obtain ⟨b, b', hx⟩ := exists_combination (cross_eq_zero_iff.not.mpr h.turned) hv
    have hq := AffineSubspace.smul_vsub_vadd_mem _ b (mem (.inr (.inl rfl))) (mem (.inl rfl))
      (mem (.inl rfl))
    have hr := AffineSubspace.smul_vsub_vadd_mem _ b' (mem (.inr (.inr rfl))) (mem (.inl rfl)) hq
    have he : x = b' • (r -ᵥ p) +ᵥ (b • (q -ᵥ p) +ᵥ p) := by
      rw [eq_add_of_sub_eq hx]
      simp only [vsub_eq_sub, vadd_eq_add]
      abel
    exact he ▸ hr

-- The foot of the perpendicular from a point is closest to it.
theorem near_iff : Near t (affineSpan ℝ {p, q, r}) c ↔ |c ⬝ᵥ f.w + f.originOffset| < t := by
  constructor
  case mp =>
    rintro ⟨x, hx, hl⟩
    have hx : x ⬝ᵥ f.w + f.originOffset = 0 := h.mem_affineSpan.mp hx
    have ho : c ⬝ᵥ f.w + f.originOffset = (c - x) ⬝ᵥ f.w := by
      rw [sub_dotProduct]
      linear_combination hx
    refine lt_of_le_of_lt ?_ hl
    rw [ho]
    refine abs_le_of_sq_le_sq ?_ (Real.sqrt_nonneg _)
    rw [length, Real.sq_sqrt (dot_self_nonneg _), f.dot_eq (c - x) (c - x), sq]
    exact le_add_of_nonneg_left <| add_nonneg (mul_self_nonneg _) (mul_self_nonneg _)
  case mpr =>
    intro hc
    refine ⟨c - (c ⬝ᵥ f.w + f.originOffset) • f.w, h.mem_affineSpan.mpr ?span, ?length⟩
    case span =>
      rw [sub_dotProduct, smul_dotProduct, unit_w, smul_eq_mul]
      ring
    case length =>
      rwa [sub_sub_cancel, length, smul_dotProduct, dotProduct_smul, unit_w,
        smul_eq_mul, smul_eq_mul, mul_one, Real.sqrt_mul_self_eq_abs]

theorem contains_plane : (f.plane (.finite t)).contains (solidPoint c) = true ↔
    Near t (affineSpan ℝ {p, q, r}) c := by
  rw [h.near_iff, OrientedPlane.contains, offset_plane, decide_eq_true_iff]
  exact Exact.finite_lt

end Spans

-- The coordinates of a point in the plane of a frame.
def coords (f : Frame ℝ) (c : Fin 3 → ℝ) : Axis → ℝ
  | .x => c ⬝ᵥ f.u
  | .y => c ⬝ᵥ f.v

theorem toPlane_eq : (f.plane tol).toPlane (solidPoint c) = planePoint (f.coords c) :=
  toPlane_plane

-- Two points of a plane are told apart by their coordinates in it.
theorem eq_of_coords (hp : p ⬝ᵥ f.w + f.originOffset = 0) (hq : q ⬝ᵥ f.w + f.originOffset = 0)
    (h : f.coords p = f.coords q) : p = q := by
  have hu : p ⬝ᵥ f.u = q ⬝ᵥ f.u := congrFun h .x
  have hv : p ⬝ᵥ f.v = q ⬝ᵥ f.v := congrFun h .y
  have hw : p ⬝ᵥ f.w = q ⬝ᵥ f.w := add_right_cancel (hp.trans hq.symm)
  rw [← f.parts_eq p, ← f.parts_eq q, hu, hv, hw]

theorem Spans.coords_ne (h : f.Spans p q r) :
    f.coords p ≠ f.coords q ∧ f.coords p ≠ f.coords r ∧ f.coords q ≠ f.coords r := by
  have apart {x y} (hx : x ∈ ({p, q, r} : Set (Fin 3 → ℝ))) (hy : y ∈ ({p, q, r} : Set (Fin 3 → ℝ)))
      (hne : x ≠ y) : f.coords x ≠ f.coords y :=
    fun he => hne <| eq_of_coords (h.offset_corners x hx) (h.offset_corners y hy) he
  refine ⟨apart (by simp) (by simp) ?_, apart (by simp) (by simp) ?_, apart (by simp) (by simp) ?_⟩
  all_goals
    rintro rfl
    exact h.turned (by simp [collinear_pair])

end Frame
end SpacePartition
