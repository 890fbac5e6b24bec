import SpacePartition.Plane.Polygon
import SpacePartition.Proofs.Plane.Layout
import SpacePartition.Proofs.Region.Construction

/-!
Rectangles in exact arithmetic. They are the intersections of the minus sides of their edges.
-/

namespace SpacePartition

variable {K : Type} [Field K] [LinearOrder K]

-- The functions that exact arithmetic does not have of itself.
structure Exact.Functions (K : Type) where
  sqrt  : Exact K → Exact K
  hypot : Exact K → Exact K → Exact K
  sin   : Exact K → Exact K
  cos   : Exact K → Exact K
  atan2 : Exact K → Exact K → Exact K

namespace Exact.Functions

@[reducible]
def metric (f : Functions K) : Metric (Exact K) where
  sqrt  := f.sqrt
  hypot := f.hypot
  sin   := f.sin
  cos   := f.cos
  atan2 := f.atan2

-- Whether the roots of squares are exact.
def HasRoots (f : Functions K) : Prop :=
  ∀ x : K, f.sqrt (finite (x * x)) = finite |x|

end Exact.Functions

namespace Region

variable {f : Exact.Functions K} {l : AxisLine K} {min max : Axis → K} {a b t : K}

-- The edges of a rectangle, counter-clockwise from the lower left corner.
def edges (min max : Axis → K) : List (AxisLine K) :=
  [⟨.y, min .y, false⟩, ⟨.x, max .x, true⟩, ⟨.y, max .y, true⟩, ⟨.x, min .x, false⟩]

omit [Field K] [LinearOrder K] in
theorem mem_edges : l ∈ edges min max ↔ l.place = if l.direct then max l.axis else min l.axis := by
  obtain ⟨_ | _, c, _ | _⟩ := l <;> simp [edges]

theorem rectangle_of_not (h : ¬∀ axis, min axis < max axis) :
    letI := f.metric
    rectangle (planePoint min) (planePoint max) (.finite t) = .ok (.empty (.finite t)) := by
  refine if_neg fun hlt => h fun axis => ?_
  cases axis
  case x => exact Exact.finite_lt.mp hlt.1
  case y => exact Exact.finite_lt.mp hlt.2

variable [IsStrictOrderedRing K]

theorem throughPoints_pointAt (hf : f.HasRoots) (h : a < b) :
    letI := f.metric
    OrientedLine.throughPoints (planePoint (l.pointAt a)) (planePoint (l.pointAt b)) (.finite t) =
      .ok (l.line t) := by
  have hn : b - a ≠ 0 := (sub_pos.mpr h).ne'
  have hm : (-b + a) * (-b + a) = (b - a) * (b - a) := by ring
  let _ := f.metric
  have hr : Metric.sqrt (Exact.finite ((b - a) * (b - a))) = Exact.finite (b - a) := by
    rw [← abs_of_pos (sub_pos.mpr h), abs_mul_abs_self]
    exact hf _
  have hb : (Scalar.toBEq.beq (Exact.finite (b - a)) (Exact.finite 0)) = false := by
    change decide (Exact.finite (b - a) = .finite 0 ∧ _) = false
    simp [hn]
  obtain ⟨_ | _, c, _ | _⟩ := l <;>
    simp [OrientedLine.throughPoints, Metric.norm, planePoint, AxisLine.pointAt, AxisLine.sign,
      AxisLine.sense, Vec2.sub, Vec2.toList, AxisLine.line, hm, hr, hb, Exact.finite_div hn,
      div_eq_iff hn, hn]
  case x.false => constructor <;> ring
  case x.true  => ring
  case y.false => ring
  case y.true  => constructor <;> ring

theorem rectangle_eq (hf : f.HasRoots) (h : ∀ axis, min axis < max axis) :
    letI := f.metric
    rectangle (planePoint min) (planePoint max) (.finite t) =
      convex (S := plane (Exact K)) ((edges min max).map (·.line t)) (.finite t) := by
  let _ := f.metric
  have bottom := throughPoints_pointAt (l := ⟨.y, min .y, false⟩) (t := t) hf (h .x)
  have right := throughPoints_pointAt (l := ⟨.x, max .x, true⟩) (t := t) hf (h .y)
  have top := throughPoints_pointAt (l := ⟨.y, max .y, true⟩) (t := t) hf (neg_lt_neg (h .x))
  have left := throughPoints_pointAt (l := ⟨.x, min .x, false⟩) (t := t) hf (neg_lt_neg (h .y))
  simp [AxisLine.pointAt, AxisLine.sign, AxisLine.sense, planePoint] at bottom right top left
  have hx : Exact.finite (min .x) < Exact.finite (max .x) := Exact.finite_lt.mpr (h .x)
  have hy : Exact.finite (min .y) < Exact.finite (max .y) := Exact.finite_lt.mpr (h .y)
  simp only [rectangle, planePoint, hx, hy, and_self, if_true, Outline.edges, edges, List.zip,
    List.zipWith, List.cons_append, List.nil_append, List.filterMap, bottom, right, top, left,
    Except.toOption, List.map]

variable {L : Axis → Set K}

open AxisLine Plane

theorem rectangle_ok (g : Grid L t) (hf : f.HasRoots) (h : ∀ axis, min axis < max axis)
    (hL : ∀ axis, min axis ∈ L axis ∧ max axis ∈ L axis) :
    letI := f.metric
    ∃ r, rectangle (planePoint min) (planePoint max) (.finite t) = .ok r ∧
      r.tolerance = .finite t ∧ (cells L t).Fitted .univ r.tree.root ∧
      ∀ {look x}, (cells L t).Sees look x →
        (r.tree.root.holds look = true ↔ ∀ l ∈ edges min max, look (l.line t) = .minus) := by
  rw [rectangle_eq hf h]
  have hw : ∀ e ∈ (edges min max).map (·.line t),
      (cells L t).Spans .univ ((plane (Exact K)).whole e) := by
    refine List.forall_mem_map.mpr fun l hl => ⟨l, fills_whole g ?_⟩
    rw [mem_edges.mp hl]
    split
    case isTrue  => exact (hL l.axis).2
    case isFalse => exact (hL l.axis).1
  have ⟨r, hr, ht, hf, hh⟩ := Layout.holds_convex (cells_separating g) (cells_tight g)
    (Exact.finite_beq_self (x := t)) hw (List.cons_ne_nil _ _)
  exact ⟨r, hr, ht, hf, fun hx => (hh hx).trans List.forall_mem_map⟩

end Region
end SpacePartition
