import SpacePartition.Node.Cell

/-!
Fitting a partition into a smaller cell. Cuts are shortened to the cell; a fork whose cut vanishes
becomes a leaf.
-/

namespace SpacePartition

variable {R : Type}

-- Chooses the attribute of the leaf that replaces a fork without cut. The fork is given with its
-- cell, and its two sides are fitted already.
abbrev Handler (S : Space R) (ι α : Type) (m : Type → Type) :=
  Cell S → Node S ι α → m (Option α)

namespace Node

variable {S : Space R} {ι α : Type} {m : Type → Type} [Monad m]

-- Keeps what lies on one side of a hyperplane. The sides of a fork are treated first, while the
-- fork still has its old cut.
def chop (vanish : Handler S ι α m) (h : S.Hyperplane) (keep : Branch) :
    Cell S → Node S ι α → m (Node S ι α)
  | _, leaf i a => pure (leaf i a)
  | cell, fork i a cut plus minus => do
    let plus  ← plus.chop vanish h keep (⟨cut, .plus⟩ :: cell)
    let minus ← minus.chop vanish h keep (⟨cut, .minus⟩ :: cell)
    match (S.split cut h).on keep with
    | some part => pure (fork i a part plus minus)
    | none      => return leaf i (← vanish cell (fork i a cut plus minus))

-- Chops a node by the walls of its cell in turn, until its own cut vanishes.
def chopAll (vanish : Handler S ι α m) (cell : Cell S) : Cell S → Node S ι α → m (Node S ι α)
  | [], n => pure n
  | wall :: walls, n => do
    match ← n.chop vanish (S.hyperplane wall.cut) wall.side cell with
    | leaf i a => pure (leaf i a)
    | n        => n.chopAll vanish cell walls

variable [DecidableEq α]

def insertIn (vanish : Handler S ι α m) (cell : Cell S) (n : Node S ι α) : m (Node S ι α) :=
  condense <$> n.chopAll vanish cell cell

-- The attribute on which both sides agree, and else the fallback.
def agreed (fallback : Option α) : Node S ι α → Option α
  | fork _ _ _ (leaf _ a) (leaf _ b) => if a = b then a else fallback
  | _ => fallback

end Node
end SpacePartition
