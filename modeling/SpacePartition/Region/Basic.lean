import SpacePartition.Tree.Basic

/-!
Regions: partitions whose leaves lie inside or outside.
-/

namespace SpacePartition

variable {R : Type}

namespace Node

variable {S : Space R} {ι : Type}

-- A leaf without attribute is outside.
def isInside (n : Node S ι Bool) : Bool :=
  n.attr == some true

def isEmpty : Node S ι Bool → Bool
  | leaf _ a       => a != some true
  | fork _ _ _ p m => m.isEmpty && p.isEmpty

def isFull : Node S ι Bool → Bool
  | leaf _ a       => a == some true
  | fork _ _ _ p m => m.isFull && p.isFull

def complement : Node S ι Bool → Node S ι Bool
  | leaf i a       => leaf i (some (a != some true))
  | fork i a c p m => fork i a c p.complement m.complement

end Node

structure Region (S : Space R) where
  tree      : Tree S Bool
  -- Closer points count as lying on the boundary.
  tolerance : R

inductive Location
  | inside
  | outside
  | boundary
  | undefined
  deriving DecidableEq, Repr

namespace Location

-- The location of a point on a cut, from its locations in the two sides.
def join (minus plus : Location) : Location :=
  if minus = plus then minus
  else if minus = undefined ∨ plus = undefined then undefined
  else boundary

end Location

namespace Node

variable {S : Space R} {ι : Type} [Scalar R]

-- A point within the tolerance of a cut is looked up on both sides. Its offset may be no number
-- although its coordinates are, such as that of an infinite point along the cut.
def check (tolerance : R) (p : S.Point) : Node S ι Bool → Location
  | leaf _ a            => if a == some true then .inside else .outside
  | fork _ _ cut plus minus =>
    let d := S.offset (S.hyperplane cut) p
    if Scalar.isNaN d then .undefined
    else if tolerance ≤ Scalar.abs d then
      if d ≤ 0 then minus.check tolerance p else plus.check tolerance p
    else (minus.check tolerance p).join (plus.check tolerance p)

end Node

namespace Region

variable {S : Space R}

def whole (tolerance : R) : Region S :=
  ⟨.leaf (some true), tolerance⟩

def empty (tolerance : R) : Region S :=
  ⟨.leaf (some false), tolerance⟩

-- The minus side of a hyperplane.
def halfSpace (h : S.Hyperplane) (tolerance : R) : Region S :=
  ⟨.ofParts (S.whole h) (.leaf (some false)) (.leaf (some true)) none, tolerance⟩

def complement (r : Region S) : Region S :=
  { r with tree := { r.tree with root := r.tree.root.complement } }

def isEmpty (r : Region S) : Bool :=
  r.tree.root.isEmpty

def isFull (r : Region S) : Bool :=
  r.tree.root.isFull

def check [Scalar R] (r : Region S) (p : S.Point) : Location :=
  if Coordinates.isNaN p then .undefined else r.tree.root.check r.tolerance p

end Region
end SpacePartition
