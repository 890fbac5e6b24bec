import SpacePartition.Line.Interval
import SpacePartition.Space.Embedded
import SpacePartition.Space.Vector

/-!
The plane, cut by oriented lines.
-/

namespace SpacePartition

variable {R : Type}

-- A line by its direction and its signed distance from the origin. The minus side lies to the left
-- of the direction, so that a counter-clockwise loop has its area on the minus side. Abscissas
-- along the line count from the projection of the origin.
structure OrientedLine (R : Type) where
  cos          : R
  sin          : R
  originOffset : R
  tolerance    : R
  deriving Repr

namespace OrientedLine

section Scalar

variable [Scalar R]

def offset (h : OrientedLine R) (p : Vec2 R) : R :=
  h.sin * p.x - h.cos * p.y + h.originOffset

def sameOrientation (h h' : OrientedLine R) : Bool :=
  0 ≤ h.sin * h'.sin + h.cos * h'.cos

def reversed (h : OrientedLine R) : OrientedLine R :=
  { h with cos := -h.cos, sin := -h.sin, originOffset := -h.originOffset }

def abscissa (h : OrientedLine R) (p : Vec2 R) : R :=
  h.cos * p.x + h.sin * p.y

def pointAt (h : OrientedLine R) (a : R) : Vec2 R :=
  ⟨a * h.cos - h.originOffset * h.sin, a * h.sin + h.originOffset * h.cos⟩

-- The point where two lines cross, unless they are parallel within the tolerance.
def intersection (h h' : OrientedLine R) : Option (Vec2 R) :=
  let d := h.sin * h'.cos - h'.sin * h.cos
  if Scalar.abs d < h.tolerance then none
  else some ⟨(h.cos * h'.originOffset - h'.cos * h.originOffset) / d,
             (h.sin * h'.originOffset - h'.sin * h.originOffset) / d⟩

-- The offset of a parallel line.
def offsetOf (h h' : OrientedLine R) : R :=
  let aligned := 0 < h.cos * h'.cos + h.sin * h'.sin
  h.originOffset + (if aligned then -h'.originOffset else h'.originOffset)

-- Along `h`, the minus side of `h'` lies above the crossing if `h'` turns clockwise from `h`.
def trace (h h' : OrientedLine R) : Trace R (OrientedPoint R) :=
  match h.intersection h' with
  | none   => .parallel (h'.offsetOf h)
  | some p => .crossing
    { location  := h.abscissa p
      direct    := h.sin * h'.cos - h.cos * h'.sin < 0
      tolerance := h.tolerance }

def embedding (R : Type) [Scalar R] : Embedding R where
  Point           := Vec2 R
  Hyperplane      := OrientedLine R
  coordinates     := inferInstance
  offset          := offset
  tolerance       := OrientedLine.tolerance
  sameOrientation := sameOrientation
  reversed        := reversed
  inner           := line R
  measured        := inferInstance
  toInner         := abscissa
  ofInner         := pointAt
  trace           := trace

end Scalar

variable [Metric R]

def throughPoints (p q : Vec2 R) (tolerance : R) : Except GeometryError (OrientedLine R) :=
  let direction := q.sub p
  let length := Metric.norm direction.toList
  if length == 0 then .error .zeroNorm
  else .ok
    { cos          := direction.x / length
      sin          := direction.y / length
      originOffset := (q.x * p.y - p.x * q.y) / length
      tolerance }

-- The line through a point in the direction of an angle.
def ofAngle (p : Vec2 R) (angle : R) (tolerance : R) : OrientedLine R :=
  let sin := Metric.sin angle
  let cos := Metric.cos angle
  { cos, sin, originOffset := cos * p.y - sin * p.x, tolerance }

def angle (h : OrientedLine R) : R :=
  Metric.atan2 h.sin h.cos

end OrientedLine

def plane (R : Type) [Scalar R] : Space R :=
  (OrientedLine.embedding R).space

instance [Scalar R] : Measured (plane R) :=
  inferInstanceAs (Measured (OrientedLine.embedding R).space)

abbrev SubLine (R : Type) [Scalar R] :=
  Embedded (OrientedLine.embedding R)

end SpacePartition
