import Mathlib.LinearAlgebra.CrossProduct
import Mathlib.Tactic.LinearCombination
import Mathlib.Tactic.Module
import SpacePartition.Proofs.Scalar.Exact
import SpacePartition.Solid.Basic

/-!
Planes with a right-handed orthonormal frame. A point of space is told by its coordinates in the
plane and its offset from it, whichever way the normal points. Along a plane, the offset from
another one changes with the coordinates across the line that both have in common, if they cross.
-/

namespace SpacePartition

open Matrix

variable {K : Type} [Field K]

-- A point of space with numbers of the field for coordinates.
def solidPoint (p : Fin 3 → K) : Vec3 (Exact K) :=
  ⟨.finite (p 0), .finite (p 1), .finite (p 2)⟩

-- A point in a plane.
def flatPoint (a b : K) : Vec2 (Exact K) :=
  ⟨.finite a, .finite b⟩

section Vec3

variable {p q : Fin 3 → K} {a : K}

omit [Field K] in
theorem solidPoint_inj : solidPoint p = solidPoint q ↔ p = q := by
  constructor
  case mp =>
    intro h
    simp only [solidPoint, Vec3.mk.injEq, Exact.finite.injEq] at h
    exact funext fun | 0 => h.1 | 1 => h.2.1 | 2 => h.2.2
  case mpr => exact congrArg _

variable [LinearOrder K]

@[simp]
theorem dot_solidPoint : (solidPoint p).dot (solidPoint q) = .finite (p ⬝ᵥ q) := by
  rw [vec3_dotProduct]
  rfl

@[simp]
theorem cross_solidPoint : (solidPoint p).cross (solidPoint q) = solidPoint (p ⨯₃ q) := by
  simp [Vec3.cross, solidPoint, cross_apply]

@[simp]
theorem add_solidPoint : (solidPoint p).add (solidPoint q) = solidPoint (p + q) :=
  rfl

@[simp]
theorem sub_solidPoint : (solidPoint p).sub (solidPoint q) = solidPoint (p - q) := by
  simp [Vec3.sub, solidPoint]

@[simp]
theorem scale_solidPoint : (solidPoint p).scale (.finite a) = solidPoint (a • p) := by
  simp [Vec3.scale, solidPoint, mul_comm]

theorem divide_solidPoint (h : a ≠ 0) :
    (solidPoint p).divide (.finite a) = solidPoint (a⁻¹ • p) := by
  simp [Vec3.divide, solidPoint, Exact.finite_div h, div_eq_inv_mul]

end Vec3

section Solve

variable {a b c : Fin 3 → K} {x y z : K}

-- The point that has given products with three vectors.
def solution (a b c : Fin 3 → K) (x y z : K) : Fin 3 → K :=
  (a ⬝ᵥ b ⨯₃ c)⁻¹ • (x • b ⨯₃ c + y • c ⨯₃ a + z • a ⨯₃ b)

theorem dot_solution (h : a ⬝ᵥ b ⨯₃ c ≠ 0) : a ⬝ᵥ solution a b c x y z = x ∧
    b ⬝ᵥ solution a b c x y z = y ∧ c ⬝ᵥ solution a b c x y z = z := by
  have hb : b ⬝ᵥ c ⨯₃ a = a ⬝ᵥ b ⨯₃ c := (triple_product_permutation a b c).symm
  have hc : c ⬝ᵥ a ⨯₃ b = a ⬝ᵥ b ⨯₃ c := triple_product_permutation c a b
  have cancel (x : K) : (a ⬝ᵥ b ⨯₃ c)⁻¹ * (x * a ⬝ᵥ b ⨯₃ c) = x := by
    rw [mul_left_comm, inv_mul_cancel₀ h, mul_one]
  simp only [solution, dotProduct_smul, dotProduct_add, dot_self_cross, dot_cross_self, hb, hc,
    smul_eq_mul, mul_zero, add_zero, zero_add, cancel, and_self]

variable [LinearOrder K]

theorem solve?_solidPoint (h : a ⬝ᵥ b ⨯₃ c ≠ 0) :
    Vec3.solve? (solidPoint a) (solidPoint b) (solidPoint c) ⟨.finite x, .finite y, .finite z⟩ =
      some (solidPoint (solution a b c x y z)) := by
  have hd : a 0 * (b 1 * c 2 - c 1 * b 2) - a 1 * (b 0 * c 2 - c 0 * b 2) +
      a 2 * (b 0 * c 1 - c 0 * b 1) = a ⬝ᵥ b ⨯₃ c := by
    rw [cross_apply, vec3_dotProduct]
    dsimp only [cons_val]
    ring
  have hb : (Scalar.toBEq.beq (Exact.finite (a ⬝ᵥ b ⨯₃ c)) (0 : Exact K)) = false :=
    decide_eq_false fun h' => h (Exact.finite.inj h'.1)
  simp only [Vec3.solve?, Vec3.scale, Vec3.add, solidPoint, Exact.finite_mul, Exact.finite_sub,
    Exact.finite_add, Exact.neg_finite, hd, hb, Exact.finite_div h, Bool.false_eq_true, if_false]
  simp only [solution, Pi.smul_apply, Pi.add_apply, smul_eq_mul]
  generalize a ⬝ᵥ b ⨯₃ c = d
  congr 3
  all_goals
    simp only [cross_apply, cons_val]
    ring

end Solve

-- A frame by two axes that are orthogonal unit vectors, and the signed distance of the origin from
-- their plane.
structure Frame (K : Type) [Field K] where
  u            : Fin 3 → K
  v            : Fin 3 → K
  originOffset : K
  unit_u       : u ⬝ᵥ u = 1
  unit_v       : v ⬝ᵥ v = 1
  orthogonal   : u ⬝ᵥ v = 0

namespace Frame

def w (f : Frame K) : Fin 3 → K :=
  f.u ⨯₃ f.v

def reversed (f : Frame K) : Frame K where
  u            := f.v
  v            := f.u
  originOffset := -f.originOffset
  unit_u       := f.unit_v
  unit_v       := f.unit_u
  orthogonal   := dotProduct_comm f.v f.u ▸ f.orthogonal

-- Where planes cross they do so along this vector, which is as long as they turn from each other.
def turn (f g : Frame K) : Fin 3 → K :=
  f.w ⨯₃ g.w

-- The point with coordinates in the plane.
def pointAt (f : Frame K) (a b : K) : Fin 3 → K :=
  -f.originOffset • f.w + a • f.u + b • f.v

variable {f g : Frame K} {p : Fin 3 → K} {a b : K} {tol : Exact K}

theorem w_reversed : f.reversed.w = -f.w :=
  (cross_anticomm ..).symm

theorem dot_u_w : f.u ⬝ᵥ f.w = 0 :=
  dot_self_cross ..

theorem dot_v_w : f.v ⬝ᵥ f.w = 0 :=
  dot_cross_self ..

theorem unit_w : f.w ⬝ᵥ f.w = 1 := by
  rw [w, cross_dot_cross, f.unit_u, f.unit_v, f.orthogonal, zero_mul, sub_zero, one_mul]

theorem cross_v_w : f.v ⨯₃ f.w = f.u := by
  rw [w, cross_cross_eq_smul_sub_smul', f.unit_v, f.orthogonal, one_smul, zero_smul, sub_zero]

theorem cross_w_u : f.w ⨯₃ f.u = f.v := by
  rw [w, cross_cross_eq_smul_sub_smul, dotProduct_comm f.v, f.unit_u, f.orthogonal, one_smul,
    zero_smul, sub_zero]

-- A vector is the sum of its parts along the axes.
theorem parts_eq (f : Frame K) (p : Fin 3 → K) :
    (p ⬝ᵥ f.u) • f.u + (p ⬝ᵥ f.v) • f.v + (p ⬝ᵥ f.w) • f.w = p := by
  have hp : p ⨯₃ f.w = (p ⬝ᵥ f.v) • f.u - (f.u ⬝ᵥ p) • f.v := cross_cross_eq_smul_sub_smul' ..
  have hw : f.w ⨯₃ (p ⨯₃ f.w) = (f.w ⬝ᵥ f.w) • p - (p ⬝ᵥ f.w) • f.w :=
    cross_cross_eq_smul_sub_smul' ..
  rw [unit_w, one_smul, hp, map_sub, map_smul, map_smul, cross_w_u, ← cross_anticomm, cross_v_w,
    smul_neg, sub_neg_eq_add, add_comm, dotProduct_comm f.u] at hw
  rw [hw, sub_add_cancel]

theorem dot_eq (f : Frame K) (p q : Fin 3 → K) : p ⬝ᵥ q =
    p ⬝ᵥ f.u * q ⬝ᵥ f.u + p ⬝ᵥ f.v * q ⬝ᵥ f.v + p ⬝ᵥ f.w * q ⬝ᵥ f.w := by
  calc p ⬝ᵥ q
    _ = ((p ⬝ᵥ f.u) • f.u + (p ⬝ᵥ f.v) • f.v + (p ⬝ᵥ f.w) • f.w) ⬝ᵥ q := by rw [f.parts_eq]
    _ = _ := by
      simp only [add_dotProduct, smul_dotProduct, smul_eq_mul, dotProduct_comm q]

theorem dot_pointAt (q : Fin 3 → K) : f.pointAt a b ⬝ᵥ q =
    -f.originOffset * f.w ⬝ᵥ q + a * f.u ⬝ᵥ q + b * f.v ⬝ᵥ q := by
  simp only [pointAt, add_dotProduct, smul_dotProduct, smul_eq_mul]

theorem dot_u_pointAt : f.pointAt a b ⬝ᵥ f.u = a := by
  rw [dot_pointAt, dotProduct_comm f.w, dot_u_w, f.unit_u, dotProduct_comm f.v, f.orthogonal,
    mul_zero, mul_one, mul_zero, zero_add, add_zero]

theorem dot_v_pointAt : f.pointAt a b ⬝ᵥ f.v = b := by
  rw [dot_pointAt, dotProduct_comm f.w, dot_v_w, f.orthogonal, f.unit_v, mul_zero, mul_zero,
    mul_one, zero_add, zero_add]

theorem dot_w_pointAt : f.pointAt a b ⬝ᵥ f.w = -f.originOffset := by
  rw [dot_pointAt, unit_w, dot_u_w, dot_v_w, mul_one, mul_zero, mul_zero, add_zero, add_zero]

-- A vector is a point of the plane and the rest along the normal.
theorem pointAt_add (f : Frame K) (p : Fin 3 → K) :
    f.pointAt (p ⬝ᵥ f.u) (p ⬝ᵥ f.v) + (p ⬝ᵥ f.w + f.originOffset) • f.w = p := by
  conv_rhs => rw [← f.parts_eq p]
  rw [pointAt]
  module

theorem dot_turn_left : f.turn g ⬝ᵥ f.w = 0 :=
  (dotProduct_comm ..).trans <| dot_self_cross ..

theorem dot_turn_right : f.turn g ⬝ᵥ g.w = 0 :=
  (dotProduct_comm ..).trans <| dot_cross_self ..

-- In the coordinates of a plane, the normal of another one is the crossing turned by a right angle.
theorem dot_u_turn : g.w ⬝ᵥ f.u = -(g.turn f ⬝ᵥ f.v) := by
  rw [turn, dotProduct_comm _ f.v, triple_product_permutation, ← cross_v_w, ← cross_anticomm,
    dotProduct_neg]

theorem dot_v_turn : g.w ⬝ᵥ f.v = g.turn f ⬝ᵥ f.u := by
  rw [turn, dotProduct_comm _ f.u, triple_product_permutation, cross_w_u]

-- From a point that two planes share, the offset from the one changes linearly in the other.
theorem dot_normal (hf : p ⬝ᵥ f.w = -f.originOffset) (hg : p ⬝ᵥ g.w = -g.originOffset) :
    f.pointAt a b ⬝ᵥ g.w + g.originOffset =
      (b - p ⬝ᵥ f.v) * (g.turn f ⬝ᵥ f.u) - (a - p ⬝ᵥ f.u) * (g.turn f ⬝ᵥ f.v) := by
  have hp := f.dot_eq p g.w
  have hq := f.dot_eq (f.pointAt a b) g.w
  rw [hf, hg] at hp
  rw [dot_u_pointAt, dot_v_pointAt, dot_w_pointAt] at hq
  rw [dot_u_turn, dot_v_turn] at hp hq
  linear_combination hq - hp

-- The normals of parallel planes are equal or opposite.
theorem sq_dot_normal (h : g.turn f = 0) : (g.w ⬝ᵥ f.w) ^ 2 = 1 := by
  have hw := f.dot_eq g.w g.w
  rw [dot_u_turn, dot_v_turn, h, zero_dotProduct, zero_dotProduct, unit_w] at hw
  linear_combination -hw

theorem dot_normal_of_parallel (h : g.turn f = 0) :
    f.pointAt a b ⬝ᵥ g.w + g.originOffset = g.originOffset - g.w ⬝ᵥ f.w * f.originOffset := by
  have hp := f.dot_eq (f.pointAt a b) g.w
  rw [dot_u_turn, dot_v_turn, h, zero_dotProduct, zero_dotProduct, dot_w_pointAt] at hp
  linear_combination hp

variable [LinearOrder K]

def plane (f : Frame K) (tol : Exact K) : OrientedPlane (Exact K) where
  origin       := solidPoint (-f.originOffset • f.w)
  u            := solidPoint f.u
  v            := solidPoint f.v
  w            := solidPoint f.w
  originOffset := .finite f.originOffset
  tolerance    := tol

theorem reversed_plane : (f.plane tol).reversed = f.reversed.plane tol := by
  have ho : -f.reversed.originOffset • f.reversed.w = -f.originOffset • f.w := by
    rw [w_reversed, reversed, neg_neg, smul_neg, neg_smul]
  rw [plane, plane, ho, w_reversed]
  rfl

theorem offset_plane :
    (f.plane tol).offset (solidPoint p) = .finite (p ⬝ᵥ f.w + f.originOffset) := by
  rw [OrientedPlane.offset, plane, dot_solidPoint, Exact.finite_add]

theorem toPlane_plane : (f.plane tol).toPlane (solidPoint p) = flatPoint (p ⬝ᵥ f.u) (p ⬝ᵥ f.v) := by
  rw [OrientedPlane.toPlane, plane, dot_solidPoint, dot_solidPoint, flatPoint]

theorem ofPlane_plane : (f.plane tol).ofPlane (flatPoint a b) = solidPoint (f.pointAt a b) := by
  simp only [OrientedPlane.ofPlane, plane, flatPoint, scale_solidPoint, add_solidPoint, pointAt]

theorem offset_ofPlane : (f.plane tol).offset ((f.plane tol).ofPlane (flatPoint a b)) = 0 := by
  rw [ofPlane_plane, offset_plane, dot_w_pointAt, neg_add_cancel, Exact.zero_eq]

theorem ofPlane_toPlane : (f.plane tol).ofPlane ((f.plane tol).toPlane (solidPoint p)) =
    solidPoint (f.pointAt (p ⬝ᵥ f.u) (p ⬝ᵥ f.v)) := by
  rw [toPlane_plane, ofPlane_plane]

end Frame
end SpacePartition
