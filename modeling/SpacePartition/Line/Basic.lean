import SpacePartition.Space.Vector

/-!
The line, cut by oriented points.
-/

namespace SpacePartition

variable {R : Type}

structure OrientedPoint (R : Type) where
  location  : R
  -- Whether the plus side lies above.
  direct    : Bool
  tolerance : R
  deriving DecidableEq, Repr

namespace OrientedPoint

def reversed (h : OrientedPoint R) : OrientedPoint R :=
  { h with direct := !h.direct }

variable [Scalar R]

def offset (h : OrientedPoint R) (x : R) : R :=
  if h.direct then x - h.location else -(x - h.location)

-- A point is not split: it lies on one side, or within the tolerance of the other point.
def split (s h : OrientedPoint R) : Parts (OrientedPoint R) :=
  let d := h.offset s.location
  if d < -h.tolerance then ⟨none, some s⟩
  else if h.tolerance < d then ⟨some s, none⟩
  else ⟨none, none⟩

end OrientedPoint

@[reducible]
def line (R : Type) [Scalar R] : Space R where
  Point           := R
  Hyperplane      := OrientedPoint R
  Sub             := OrientedPoint R
  coordinates     := lineCoordinates
  offset          := OrientedPoint.offset
  project h _     := h.location
  tolerance       := OrientedPoint.tolerance
  sameOrientation := fun h h' => h.direct == h'.direct
  reversed        := OrientedPoint.reversed
  whole h         := h
  hyperplane s    := s
  size _          := .ok 0
  isEmpty _       := false
  barycenter s    := .ok s.location
  split           := OrientedPoint.split
  reunite s _     := .ok s

end SpacePartition
