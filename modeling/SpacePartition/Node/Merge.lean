import SpacePartition.Node.Insert
import SpacePartition.Node.Split

/-!
Merging two partitions of one cell. Where a leaf of one faces a node of the other, a merger decides
what takes their place.
-/

namespace SpacePartition

variable {R : Type}

-- A leaf of one partition and the node of the other that covers its cell.
structure Encounter (S : Space R) (ι α : Type) where
  id           : ι
  attr         : Option α
  other        : Node S ι α
  cell         : Cell S
  -- Whether the leaf is of the partition that is merged into.
  fromInstance : Bool

namespace Encounter

variable {S : Space R} {ι α : Type}

def leaf (e : Encounter S ι α) : Node S ι α :=
  .leaf e.id e.attr

-- The node of the partition that is merged into, and the one of its argument.
def ours (e : Encounter S ι α) : Node S ι α :=
  if e.fromInstance then e.leaf else e.other

def theirs (e : Encounter S ι α) : Node S ι α :=
  if e.fromInstance then e.other else e.leaf

end Encounter

abbrev Merger (S : Space R) (ι α : Type) (m : Type → Type) :=
  Encounter S ι α → m (Node S ι α)

namespace Node

variable {S : Space R} {ι α : Type} {m : Type → Type} [Monad m] [Inhabited ι] [DecidableEq α]

-- Extends the cut of a fork to all of its cell. A cut that misses its cell stays as it is.
def refit (cell : Cell S) : Node S ι α → Node S ι α
  | leaf i a       => leaf i a
  | fork i a c p m => fork i a ((cell.fit (S.whole (S.hyperplane c))).getD c) p m

-- The argument is split by the cuts of the instance, from the root on.
def merge (merger : Merger S ι α m) : Cell S → Node S ι α → Node S ι α → m (Node S ι α)
  | cell, leaf i a, other => merger ⟨i, a, other, cell, true⟩
  | cell, fork i a cut plus minus, leaf j b => merger ⟨j, b, fork i a cut plus minus, cell, false⟩
  | cell, fork _ _ cut plus minus, other@(fork ..) => do
    let h     := other.split cut
    let plus  ← plus.merge merger (⟨cut, .plus⟩ :: cell) h.plus
    let minus ← minus.merge merger (⟨cut, .minus⟩ :: cell) h.minus
    return refit cell (condense (fork h.id h.attr cut plus minus))

end Node
end SpacePartition
