import SpacePartition.Tree.Basic
import SpacePartition.Node.Merge

/-!
Merging and fitting of whole trees.
-/

namespace SpacePartition.Tree

variable {R : Type} {S : Space R} {α : Type} {m : Type → Type} [Monad m] [DecidableEq α]

-- While the trees are merged, the nodes of the argument have numbers that follow those of the
-- instance. The result is numbered anew.
def merge (merger : Merger S Nat α m) (t other : Tree S α) : m (Tree S α) :=
  ofNode <$> t.root.merge merger [] (other.root.relabel (t.capacity + ·))

-- Fits the node at a path to its cell once more.
def reinsert (vanish : Handler S Nat α m) (path : Path) (t : Tree S α) : m (Tree S α) :=
  match t.root.locate path with
  | none           => pure t
  | some (cell, n) => do
    let n ← n.insertIn vanish cell
    return t.modify (fun _ => n) path

end SpacePartition.Tree
