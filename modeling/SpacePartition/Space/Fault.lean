/-!
What can go wrong. A malformed description of a shape is a `GeometryError`; an operation used
against its contract is a `Violation`.
-/

namespace SpacePartition

inductive GeometryError
  | dimensionMismatch (expected actual : Nat)
  | zeroNorm
  | tooFewVertices (element count required : Nat)
  | vertexOutOfRange (facet index count : Nat)
  | nonPlanarFacet (facet : Nat)
  deriving DecidableEq, Repr

namespace GeometryError

def message : GeometryError → String
  | dimensionMismatch expected actual => s!"expected {expected} coordinates, got {actual}"
  | zeroNorm => "cannot normalize a zero-length vector"
  | tooFewVertices element count required =>
    s!"boundary element {element} has {count} vertices, at least {required} are needed"
  | vertexOutOfRange facet index count =>
    s!"facet {facet} refers to vertex {index}, but only {count} vertices exist"
  | nonPlanarFacet facet => s!"vertices of facet {facet} are not coplanar"

end GeometryError

inductive Violation (R : Type)
  | cutIntoInternal (id : Nat)
  | toleranceMismatch (left right : R)
  deriving DecidableEq, Repr

inductive Fault (R : Type)
  | geometry (error : GeometryError)
  | violation (violation : Violation R)
  deriving DecidableEq, Repr

namespace Fault

variable {R : Type}

instance : MonadLift (Except GeometryError) (Except (Fault R)) :=
  ⟨Except.mapError geometry⟩

instance : MonadLift (Except (Violation R)) (Except (Fault R)) :=
  ⟨Except.mapError violation⟩

end Fault
end SpacePartition
