import SpacePartition.Node.Basic

/-!
The cell of a node, given by the cuts between the root and the node.
-/

namespace SpacePartition

variable {R : Type}

structure Wall (S : Space R) where
  cut  : S.Sub
  side : Branch

-- The walls around a cell, the nearest first.
abbrev Cell (S : Space R) :=
  List (Wall S)

variable {S : Space R} {ι α : Type}

namespace Cell

-- The part of a sub-hyperplane inside the cell.
def fit : Cell S → S.Sub → Option S.Sub
  | [], sub           => some sub
  | wall :: walls, sub => ((S.split sub (S.hyperplane wall.cut)).on wall.side).bind (fit walls)

end Cell

namespace Node

def locateIn : Cell S → Path → Node S ι α → Option (Cell S × Node S ι α)
  | cell, [], n                        => some (cell, n)
  | _, _ :: _, leaf ..                 => none
  | cell, .plus :: path, fork _ _ c p _  => p.locateIn (⟨c, .plus⟩ :: cell) path
  | cell, .minus :: path, fork _ _ c _ m => m.locateIn (⟨c, .minus⟩ :: cell) path

-- The node at a path, with its cell.
def locate (path : Path) (n : Node S ι α) : Option (Cell S × Node S ι α) :=
  n.locateIn [] path

end Node
end SpacePartition
