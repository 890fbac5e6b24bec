import SpacePartition.Space.Basic

/-!
Partitions of a space. A leaf is a cell; a fork cuts its cell in two and partitions both parts.
Nodes carry an identifier, which no operation on cells looks at, and an attribute.
-/

namespace SpacePartition

variable {R : Type}

inductive Node (S : Space R) (ι α : Type)
  | leaf (id : ι) (attr : Option α)
  | fork (id : ι) (attr : Option α) (cut : S.Sub) (plus minus : Node S ι α)

-- A node is found from the root by the branches that lead to it.
abbrev Path :=
  List Branch

namespace Node

variable {S : Space R} {ι κ α : Type}

def id : Node S ι α → ι
  | leaf i _       => i
  | fork i _ _ _ _ => i

def attr : Node S ι α → Option α
  | leaf _ a       => a
  | fork _ a _ _ _ => a

def isLeaf : Node S ι α → Bool
  | leaf ..  => true
  | fork ..  => false

def cut? : Node S ι α → Option S.Sub
  | leaf ..         => none
  | fork _ _ c _ _  => some c

def child? : Node S ι α → Branch → Option (Node S ι α)
  | leaf .., _             => none
  | fork _ _ _ p _, .plus  => some p
  | fork _ _ _ _ m, .minus => some m

def setAttr (attr : Option α) : Node S ι α → Node S ι α
  | leaf i _       => leaf i attr
  | fork i _ c p m => fork i attr c p m

def size : Node S ι α → Nat
  | leaf ..        => 1
  | fork _ _ _ p m => p.size + m.size + 1

def leafCount : Node S ι α → Nat
  | leaf ..        => 1
  | fork _ _ _ p m => p.leafCount + m.leafCount

def depth : Node S ι α → Nat
  | leaf ..        => 1
  | fork _ _ _ p m => max p.depth m.depth + 1

-- The attributes of the leaves, the plus side of a cut before its minus side.
def leafAttrs : Node S ι α → List (Option α)
  | leaf _ a       => [a]
  | fork _ _ _ p m => p.leafAttrs ++ m.leafAttrs

-- The identifiers, both sides of a cut before the fork itself.
def ids : Node S ι α → List ι
  | leaf i _       => [i]
  | fork i _ _ p m => p.ids ++ m.ids ++ [i]

def at? : Path → Node S ι α → Option (Node S ι α)
  | [], n               => some n
  | _ :: _, leaf ..     => none
  | .plus :: path, fork _ _ _ p _  => p.at? path
  | .minus :: path, fork _ _ _ _ m => m.at? path

-- Replaces the node at a path. A path that leaves the tree changes nothing.
def modify (f : Node S ι α → Node S ι α) : Path → Node S ι α → Node S ι α
  | [], n               => f n
  | _ :: _, leaf i a    => leaf i a
  | .plus :: path, fork i a c p m  => fork i a c (p.modify f path) m
  | .minus :: path, fork i a c p m => fork i a c p (m.modify f path)

def relabel (f : ι → κ) : Node S ι α → Node S κ α
  | leaf i a       => leaf (f i) a
  | fork i a c p m => fork (f i) a c (p.relabel f) (m.relabel f)

-- Identifies the nodes by their positions from `start` in the order of `ids`.
def number (start : Nat) : Node S ι α → Node S Nat α
  | leaf _ a       => leaf start a
  | fork _ a c p m =>
    fork (start + p.size + m.size) a c (p.number start) (m.number (start + p.size))

-- A fork between two leaves of the same attribute partitions nothing.
def condense [DecidableEq α] : Node S ι α → Node S ι α
  | fork i a c (leaf j b) (leaf k d) => if b = d then leaf i b else fork i a c (leaf j b) (leaf k d)
  | n => n

def simplify [DecidableEq α] : Node S ι α → Node S ι α
  | leaf i a       => leaf i a
  | fork i a c p m => condense (fork i a c p.simplify m.simplify)

-- Drops the attributes of forks.
def clearForks : Node S ι α → Node S ι α
  | leaf i a       => leaf i a
  | fork i _ c p m => fork i none c p.clearForks m.clearForks

variable [Scalar R]

-- The way from a node to the cell of a point. It ends early at a cut within the tolerance.
def descend (p : S.Point) (tolerance : R) : Node S ι α → Path
  | leaf ..            => []
  | fork _ _ cut plus minus =>
    match S.heading (S.hyperplane cut) tolerance p with
    | none        => []
    | some .plus  => .plus :: plus.descend p tolerance
    | some .minus => .minus :: minus.descend p tolerance

def cellOf (p : S.Point) (tolerance : R) : Node S ι α → Node S ι α
  | leaf i a                  => leaf i a
  | fork i a cut plus minus =>
    match S.heading (S.hyperplane cut) tolerance p with
    | none        => fork i a cut plus minus
    | some .plus  => plus.cellOf p tolerance
    | some .minus => minus.cellOf p tolerance

end Node
end SpacePartition
