import SpacePartition.Solid.Basic
import SpacePartition.Plane.Polygon

/-!
Regions of the space of three dimensions given by their facets.
-/

namespace SpacePartition

variable {R : Type} [Metric R]

namespace SubPlane

def corner (vertices : Array (Vec3 R)) (facet index : Nat) : Except GeometryError (Vec3 R) :=
  match vertices[index]? with
  | some p => .ok p
  | none   => .error (.vertexOutOfRange facet index vertices.size)

-- The facet with the given corners, which lies in the plane of the first three.
def ofCorners (vertices : Array (Vec3 R)) (tolerance : R) (facet : Nat) :
    List Nat → Except (Fault R) (SubPlane R)
  | i :: j :: k :: indices => do
    let p ← corner vertices facet i
    let q ← corner vertices facet j
    let r ← corner vertices facet k
    let others ← (indices.mapM (corner vertices facet) : Except GeometryError _)
    let corners := p :: q :: r :: others
    let h ← OrientedPlane.throughPoints p q r tolerance
    unless corners.all h.contains do
      throw (.geometry (.nonPlanarFacet facet))
    return ⟨h, ← Region.polygon (corners.map h.toPlane) tolerance⟩
  | indices => .error (.geometry (.tooFewVertices facet indices.length 3))

end SubPlane

namespace Region

-- The region bounded by facets, which are counter-clockwise lists of vertices when seen from
-- outside.
def polyhedron (vertices : Array (Vec3 R)) (facets : List (List Nat)) (tolerance : R) :
    Except (Fault R) (Region (solid R)) := do
  let boundary : List (SubPlane R) ← facets.zipIdx.mapM fun (indices, facet) =>
    SubPlane.ofCorners vertices tolerance facet indices
  ofBoundary boundary tolerance

-- The box between two corners, empty unless all extents are positive.
def cuboid (min max : Vec3 R) (tolerance : R) : Except (Violation R) (Region (solid R)) :=
  if min.x < max.x ∧ min.y < max.y ∧ min.z < max.z then
    let faces : List (Vec3 R × Vec3 R) :=
      [(min, ⟨-1, -0, -0⟩), (max, ⟨1, 0, 0⟩), (min, ⟨-0, -1, -0⟩), (max, ⟨0, 1, 0⟩),
       (min, ⟨-0, -0, -1⟩), (max, ⟨0, 0, 1⟩)]
    let planes : List (solid R).Hyperplane := faces.filterMap fun (p, normal) =>
      (OrientedPlane.ofNormal p normal tolerance).toOption
    convex planes tolerance
  else .ok (empty tolerance)

end Region
end SpacePartition
