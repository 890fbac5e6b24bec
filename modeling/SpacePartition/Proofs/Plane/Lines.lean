import Mathlib.Tactic.Ring
import SpacePartition.Plane.Basic
import SpacePartition.Proofs.Line.Layout

/-!
Lines across the axes of the plane, in exact arithmetic. Such a line meets the others as a place
meets other places on an axis: a parallel line on the axis that both cross, and any other line on
the line itself.
-/

namespace SpacePartition

inductive Axis
  | x
  | y
  deriving DecidableEq, Repr

theorem Axis.eq_of_ne {u v axis : Axis} (h : u ≠ v) (ha : axis ≠ u) : axis = v := by
  cases u <;> cases v <;> cases axis <;> simp_all

theorem Axis.exists_ne (axis : Axis) : ∃ axis', axis' ≠ axis := by
  cases axis
  case x => exact ⟨.y, nofun⟩
  case y => exact ⟨.x, nofun⟩

-- A line across an axis, by the place where it crosses the axis. It is direct if its plus side lies
-- above the place.
structure AxisLine (K : Type) where
  axis   : Axis
  place  : K
  direct : Bool
  deriving DecidableEq, Repr

variable {K : Type} [Field K]

def planePoint (p : Axis → K) : Vec2 (Exact K) :=
  ⟨.finite (p .x), .finite (p .y)⟩

namespace AxisLine

def sign (direct : Bool) : K :=
  if direct then 1 else -1

def line (l : AxisLine K) (t : K) : OrientedLine (Exact K) :=
  let originOffset := -(sign l.direct * l.place)
  match l.axis with
  | .x => ⟨.finite 0, .finite (sign l.direct), .finite originOffset, .finite t⟩
  | .y => ⟨.finite (-sign l.direct), .finite 0, .finite originOffset, .finite t⟩

-- The line as a cut of the axis that it crosses.
def point (l : AxisLine K) (t : K) : OrientedPoint (Exact K) :=
  ⟨.finite l.place, l.direct, .finite t⟩

-- Whether abscissas along the line increase with the coordinate.
def sense (l : AxisLine K) : Bool :=
  match l.axis with
  | .x => l.direct
  | .y => !l.direct

-- The point of the line with an abscissa.
def pointAt (l : AxisLine K) (a : K) : Axis → K :=
  fun axis => if axis = l.axis then l.place else sign l.sense * a

-- Where a line crosses the other one, as a cut of the line.
def crossing (l w : AxisLine K) (t : K) : OrientedPoint (Exact K) :=
  ⟨.finite (sign l.sense * w.place), l.sense == w.direct, .finite t⟩

variable {l w : AxisLine K} {d t a : K} {p : Axis → K} {b : Branch}

theorem sign_mul_sign (direct : Bool) : sign direct * sign direct = (1 : K) := by
  cases direct <;> simp [sign]

theorem pointAt_axis : l.pointAt a l.axis = l.place :=
  if_pos rfl

theorem pointAt_of_ne {axis : Axis} (h : axis ≠ l.axis) : l.pointAt a axis = sign l.sense * a :=
  if_neg h

variable [LinearOrder K]

theorem offset_line :
    (l.line t).offset (planePoint p) = (l.point t).offset (.finite (p l.axis)) := by
  obtain ⟨_ | _, c, _ | _⟩ := l <;>
    simp [line, point, planePoint, sign, OrientedLine.offset, OrientedPoint.offset] <;> ring

variable [IsStrictOrderedRing K]

theorem sameOrientation_line (h : l.axis = w.axis) :
    (l.line t).sameOrientation (w.line t) = (l.direct == w.direct) := by
  obtain ⟨_ | _, c, _ | _⟩ := l <;> obtain ⟨_ | _, c', _ | _⟩ := w <;> cases h <;>
    simp [line, sign, OrientedLine.sameOrientation]

theorem trace_parallel (h : l.axis = w.axis) (ht : 0 < t) :
    (l.line t).trace (w.line t) = .parallel ((w.point t).offset (.finite l.place)) := by
  obtain ⟨_ | _, c, _ | _⟩ := l <;> obtain ⟨_ | _, c', _ | _⟩ := w <;> cases h <;>
    simp [line, point, sign, OrientedLine.trace, OrientedLine.intersection, OrientedLine.offsetOf,
      OrientedPoint.offset, ht, zero_le_one.not_gt, sub_eq_add_neg, add_comm]

theorem trace_crossing (h : l.axis ≠ w.axis) (ht : t ≤ 1) :
    (l.line t).trace (w.line t) = .crossing (l.crossing w t) := by
  obtain ⟨_ | _, c, _ | _⟩ := l <;> obtain ⟨_ | _, c', _ | _⟩ := w <;> simp at h <;>
    simp [line, crossing, sense, sign, OrientedLine.trace, OrientedLine.intersection, ht.not_gt,
      OrientedLine.abscissa, Exact.finite_div]

theorem beyond_crossing (h : l.axis ≠ w.axis) :
    OrientedPoint.Beyond d (l.crossing w t) b a ↔
      OrientedPoint.Beyond d (w.point t) b (l.pointAt a w.axis) := by
  rw [crossing, point, pointAt_of_ne h.symm, OrientedPoint.beyond_iff, OrientedPoint.beyond_iff]
  cases l.sense <;> cases w.direct <;> cases b <;> simp [sign, Branch.pick] <;>
    constructor <;> intro <;> linarith

end AxisLine
end SpacePartition
