import SpacePartition.Region.Boundary

/-!
Size and barycenter of regions.
-/

namespace SpacePartition

variable {R : Type}

structure Properties (S : Space R) where
  -- Infinite for an unbounded region.
  size       : R
  -- Undefined where the size is zero or infinite, except for regions of the line that are points.
  barycenter : S.Point

class Measured (S : Space R) where
  properties : Region S → Except (Violation R) (Properties S)

namespace Region

variable {S : Space R}

section Measured

variable [Measured S]

def properties (r : Region S) : Except (Violation R) (Properties S) :=
  Measured.properties r

def size (r : Region S) : Except (Violation R) R :=
  (·.size) <$> r.properties

def barycenter (r : Region S) : Except (Violation R) S.Point :=
  (·.barycenter) <$> r.properties

end Measured

variable [Scalar R]

def unbounded : Properties S :=
  ⟨Scalar.infinity, Coordinates.undefined⟩

-- The flow of the field `x` through facets and its first moment, or `none` if one is infinite. The
-- flow through a facet is its size times the distance of its hyperplane from the origin, taken
-- along the normal that leaves the region.
def flow : List (Facet S) → R → S.Point → Except (Violation R) (Option (R × S.Point))
  | [], sum, moment => .ok (some (sum, moment))
  | f :: fs, sum, moment => do
    let area ← S.size f.sub
    if Scalar.isInfinite area then return none
    let height := -S.offset (S.hyperplane f.sub) Coordinates.origin
    let term := match f.facing with
      | .plusOutside => area * height
      | .plusInside  => -area * height
    flow fs (sum + term) (Coordinates.combine 1 moment term (← S.barycenter f.sub))

-- By the divergence theorem the flow through the boundary is `n` times the size in dimension `n`,
-- and its moment is `n + 1` times the first moment. A negative flow comes from a region that lies
-- around its boundary.
def divergence (r : Region S) : Except (Violation R) (Properties S) := do
  if r.tree.root.isLeaf then
    return ⟨if r.isFull then Scalar.infinity else 0, Coordinates.undefined⟩
  match ← flow (← r.facets) 0 Coordinates.origin with
  | none => return unbounded
  | some (sum, moment) =>
    if sum < 0 then return unbounded
    let n : R := (Coordinates.dimension S.Point : Nat)
    let size := sum / n
    return ⟨size, Coordinates.combine (1 / ((n + 1) * size)) moment 0 Coordinates.origin⟩

end Region
end SpacePartition
