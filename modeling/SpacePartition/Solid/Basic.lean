import SpacePartition.Plane.Basic

/-!
The space of three dimensions, cut by oriented planes.
-/

namespace SpacePartition

variable {R : Type}

-- A plane with a right-handed orthonormal frame `u`, `v`, `w`. The plus side is the one that `w`
-- points to. Coordinates in the plane are along `u` and `v`, from the projection of the origin.
structure OrientedPlane (R : Type) where
  origin       : Vec3 R
  u            : Vec3 R
  v            : Vec3 R
  w            : Vec3 R
  originOffset : R
  tolerance    : R
  deriving Repr

namespace Vec3

variable [Scalar R]

-- Solves the equations that `a`, `b` and `c` have the given products with a point, by the inverse
-- of the matrix of their coordinates.
def solve? (a b c rhs : Vec3 R) : Option (Vec3 R) :=
  let p := b.y * c.z - c.y * b.z
  let q := b.x * c.z - c.x * b.z
  let r := b.x * c.y - c.x * b.y
  let det := a.x * p - a.y * q + a.z * r
  if det == 0 then none
  else
    let col1 : Vec3 R := ⟨p / det, -q / det, r / det⟩
    let col2 : Vec3 R :=
      ⟨(a.z * c.y - c.z * a.y) / det, (a.x * c.z - c.x * a.z) / det, (a.y * c.x - c.y * a.x) / det⟩
    let col3 : Vec3 R :=
      ⟨(a.y * b.z - b.y * a.z) / det, (a.z * b.x - b.z * a.x) / det, (a.x * b.y - b.x * a.y) / det⟩
    some (((col1.scale rhs.x).add (col2.scale rhs.y)).add (col3.scale rhs.z))

end Vec3

namespace OrientedPlane

section Scalar

variable [Scalar R]

def offset (h : OrientedPlane R) (p : Vec3 R) : R :=
  p.dot h.w + h.originOffset

def sameOrientation (h h' : OrientedPlane R) : Bool :=
  0 < h.w.dot h'.w

-- The axes change places to keep the frame right-handed.
def reversed (h : OrientedPlane R) : OrientedPlane R :=
  { h with u := h.v, v := h.u, w := h.w.neg, originOffset := -h.originOffset }

def toPlane (h : OrientedPlane R) (p : Vec3 R) : Vec2 R :=
  ⟨p.dot h.u, p.dot h.v⟩

def ofPlane (h : OrientedPlane R) (p : Vec2 R) : Vec3 R :=
  (h.origin.add (h.u.scale p.x)).add (h.v.scale p.y)

def contains (h : OrientedPlane R) (p : Vec3 R) : Bool :=
  Scalar.abs (h.offset p) < h.tolerance

-- The offset of a parallel plane.
def offsetOf (h h' : OrientedPlane R) : R :=
  h.originOffset + (if h.sameOrientation h' then -h'.originOffset else h'.originOffset)

end Scalar

variable [Metric R]

-- A unit vector orthogonal to `w`, within the coordinate plane across an axis from which `w` is
-- well away.
def orthogonal (w : Vec3 R) : Vec3 R :=
  let threshold := (3 : Nat) / (5 : Nat) * Metric.norm w.toList
  if Scalar.abs w.x ≤ threshold then
    (Vec3.mk 0 w.z (-w.y)).divide (Metric.hypot w.y w.z)
  else if Scalar.abs w.y ≤ threshold then
    (Vec3.mk (-w.z) 0 w.x).divide (Metric.hypot w.x w.z)
  else
    (Vec3.mk w.y (-w.x) 0).divide (Metric.hypot w.x w.y)

def ofNormal (p normal : Vec3 R) (tolerance : R) : Except GeometryError (OrientedPlane R) :=
  let length := Metric.norm normal.toList
  if length == 0 then .error .zeroNorm
  else
    let w := normal.divide length
    let originOffset := -p.dot w
    let u := orthogonal w
    .ok { origin := w.scale (-originOffset), u, v := w.cross u, w, originOffset, tolerance }

def throughOrigin (normal : Vec3 R) (tolerance : R) : Except GeometryError (OrientedPlane R) :=
  ofNormal Coordinates.origin normal tolerance

-- The points turn counter-clockwise when seen from the plus side.
def throughPoints (p q r : Vec3 R) (tolerance : R) : Except GeometryError (OrientedPlane R) :=
  ofNormal p ((q.sub p).cross (r.sub p)) tolerance

-- The line where two planes cross, as a point and a direction, unless they are parallel within the
-- tolerance.
def intersection (h h' : OrientedPlane R) : Option (Vec3 R × Vec3 R) :=
  let direction := h.w.cross h'.w
  let length := Metric.norm direction.toList
  if length < h.tolerance then none
  else
    let direction := direction.divide length
    (Vec3.solve? h.w h'.w direction ⟨-h.originOffset, -h'.originOffset, 0⟩).map (·, direction)

-- The crossing line is laid through the images of two of its points, in the order that leaves the
-- minus side of `h'` to its left.
def trace (h h' : OrientedPlane R) : Trace R (OrientedLine R) :=
  match h'.intersection h with
  | none => .parallel (h'.offsetOf h)
  | some (point, direction) =>
    let p := h.toPlane point
    let q := h.toPlane (point.add direction)
    let (p, q) := if (direction.cross h.w).dot h'.w < 0 then (q, p) else (p, q)
    let along := q.sub p
    .crossing (.ofAngle p (Metric.atan2 along.y along.x) h.tolerance)

def embedding (R : Type) [Metric R] : Embedding R where
  Point           := Vec3 R
  Hyperplane      := OrientedPlane R
  coordinates     := inferInstance
  offset          := offset
  tolerance       := OrientedPlane.tolerance
  sameOrientation := sameOrientation
  reversed        := reversed
  inner           := plane R
  measured        := inferInstance
  toInner         := toPlane
  ofInner         := ofPlane
  trace           := trace

end OrientedPlane

def solid (R : Type) [Metric R] : Space R :=
  (OrientedPlane.embedding R).space

instance [Metric R] : Measured (solid R) :=
  inferInstanceAs (Measured (OrientedPlane.embedding R).space)

abbrev SubPlane (R : Type) [Metric R] :=
  Embedded (OrientedPlane.embedding R)

end SpacePartition
