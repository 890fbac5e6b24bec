import SpacePartition.Region.Measure
import SpacePartition.Tree.Merge

/-!
Boolean operations. Each is a merger, which says what becomes of a leaf and the node that faces it,
together with the leaf that takes the place of a fork without cut.
-/

namespace SpacePartition

variable {R : Type}

namespace Merger

variable {S : Space R} {ι : Type} {m : Type → Type} [Monad m]

private def insert (fallback : Bool) (e : Encounter S ι Bool) (n : Node S ι Bool) :
    m (Node S ι Bool) :=
  n.insertIn (fun _ n => pure (n.agreed (some fallback))) e.cell

def union : Merger S ι Bool m := fun e =>
  if e.leaf.isInside then insert true e e.leaf else insert false e e.other

def intersection : Merger S ι Bool m := fun e =>
  if e.leaf.isInside then insert true e e.other else insert false e e.leaf

def xor : Merger S ι Bool m := fun e =>
  insert true e (if e.leaf.isInside then e.other.complement else e.other)

-- Of the two nodes the one of the instance stays where the argument is outside, and the complement
-- of the argument where the instance is inside.
def difference (vanish : Handler S ι Bool m) : Merger S ι Bool m := fun e =>
  if e.leaf.isInside
  then e.theirs.complement.insertIn vanish e.cell
  else e.ours.insertIn vanish e.cell

end Merger

namespace Region

variable {S : Space R}

section BEq

variable [BEq R]

def combine (merger : Merger S Nat Bool (Except (Violation R))) (a b : Region S) :
    Except (Violation R) (Region S) := do
  unless a.tolerance == b.tolerance do
    throw (.toleranceMismatch a.tolerance b.tolerance)
  let merged ← a.tree.merge merger b.tree
  return ⟨.ofNode merged.root.clearForks.simplify, a.tolerance⟩

-- The points inside either region.
def union : Region S → Region S → Except (Violation R) (Region S) :=
  combine .union

-- The points inside both regions.
def intersection : Region S → Region S → Except (Violation R) (Region S) :=
  combine .intersection

-- The points inside exactly one of the regions.
def xor : Region S → Region S → Except (Violation R) (Region S) :=
  combine .xor

end BEq

variable [Scalar R] [Measured S]

-- Whether a cell lies in the difference of two regions, judged by its barycenter.
def probe (a b : Region S) (cell : Cell S) : Except (Violation R) Bool := do
  let p ← barycenter ⟨.isolate (some true) (some false) none cell, a.tolerance⟩
  return a.check p = .inside && b.check p = .outside

-- The points inside `a` but not inside `b`.
def difference (a b : Region S) : Except (Violation R) (Region S) :=
  combine (.difference fun cell _ => some <$> a.probe b cell) a b

-- Whether `b` lies inside `a`.
def contains (a b : Region S) : Except (Violation R) Bool :=
  (·.isEmpty) <$> b.difference a

end Region
end SpacePartition
