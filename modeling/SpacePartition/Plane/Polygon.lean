import SpacePartition.Plane.Basic
import SpacePartition.Region.Construct

/-!
Regions of the plane given by their vertices.
-/

namespace SpacePartition

variable {R : Type} [Metric R]

def OrientedLine.segment (p q : Vec2 R) (tolerance : R) : Except GeometryError (SubLine R) := do
  let h ← throughPoints p q tolerance
  return ⟨h, .interval (h.abscissa p) (h.abscissa q) tolerance⟩

namespace Outline

-- Drops vertices that repeat the one before, where `p` comes before the first.
def dropRepeatsOf (p : Vec2 R) : List (Vec2 R) → List (Vec2 R)
  | []      => []
  | q :: qs => if p == q then dropRepeatsOf p qs else q :: dropRepeatsOf q qs

def dropRepeats : List (Vec2 R) → List (Vec2 R)
  | []      => []
  | p :: ps => p :: dropRepeatsOf p ps

-- Drops vertices at the end that repeat the first one.
def openEnd : List (Vec2 R) → List (Vec2 R)
  | []      => []
  | p :: ps => p :: (ps.reverse.dropWhile (p == ·)).reverse

-- The edges of a closed outline.
def edges : List (Vec2 R) → List (Vec2 R × Vec2 R)
  | []      => []
  | p :: ps => (p :: ps).zip (ps ++ [p])

end Outline

namespace Region

-- The region inside a counter-clockwise outline, and around a clockwise one.
def polygon (vertices : List (Vec2 R)) (tolerance : R) :
    Except (Fault R) (Region (plane R)) := do
  let outline := Outline.openEnd (Outline.dropRepeats vertices)
  if outline.length < 3 then
    throw (.geometry (.tooFewVertices 0 outline.length 3))
  let boundary : List (SubLine R) ←
    (Outline.edges outline).mapM fun (p, q) => OrientedLine.segment p q tolerance
  ofBoundary boundary tolerance

-- The rectangle between two corners, empty unless both extents are positive.
def rectangle (min max : Vec2 R) (tolerance : R) : Except (Violation R) (Region (plane R)) :=
  if min.x < max.x ∧ min.y < max.y then
    let corners := [min, ⟨max.x, min.y⟩, max, ⟨min.x, max.y⟩]
    let edges : List (plane R).Hyperplane := (Outline.edges corners).filterMap fun (p, q) =>
      (OrientedLine.throughPoints p q tolerance).toOption
    convex edges tolerance
  else .ok (empty tolerance)

end Region
end SpacePartition
