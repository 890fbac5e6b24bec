import SpacePartition.Node.Cell

/-!
Partitions of the whole space, with numbered nodes. Numbers are never given twice: a node made later
takes the next one.
-/

namespace SpacePartition

variable {R : Type}

structure Tree (S : Space R) (α : Type) where
  root     : Node S Nat α
  -- The next number to give.
  capacity : Nat

namespace Tree

variable {S : Space R} {ι α : Type}

def leaf (attr : Option α) : Tree S α :=
  ⟨.leaf 0 attr, 1⟩

-- The numbers of `plus` stay, those of `minus` follow, and the root comes last.
def ofParts (cut : S.Sub) (plus minus : Tree S α) (attr : Option α) : Tree S α where
  root     := .fork (plus.capacity + minus.capacity) attr cut plus.root
                (minus.root.relabel (plus.capacity + ·))
  capacity := plus.capacity + minus.capacity + 1

-- Numbers a partition anew: the plus side, the minus side, and then the fork.
def ofNode (n : Node S ι α) : Tree S α :=
  ⟨n.number 0, n.size⟩

def modify (f : Node S Nat α → Node S Nat α) (path : Path) (t : Tree S α) : Tree S α :=
  { t with root := t.root.modify f path }

def setAttr (path : Path) (attr : Option α) (t : Tree S α) : Tree S α :=
  t.modify (.setAttr attr) path

def simplify [DecidableEq α] (t : Tree S α) : Tree S α :=
  ofNode t.root.simplify

-- The node at a path as a tree of its own.
def extract? (t : Tree S α) (path : Path) : Option (Tree S α) :=
  (t.root.at? path).map ofNode

-- The tree that tells a cell from the rest of the space, made of the cuts around the cell.
def isolate (attr rest inner : Option α) (cell : Cell S) : Tree S α :=
  cell.foldl (fun t wall => match wall.side with
    | .plus  => ofParts wall.cut t (leaf rest) inner
    | .minus => ofParts wall.cut (leaf rest) t inner) (leaf attr)

-- Cuts the leaf at a path in two, which both inherit its attribute. A hyperplane that misses the
-- cell of the leaf is refused.
def insertCut (path : Path) (h : S.Hyperplane) (t : Tree S α) :
    Except (Violation R) (Option (Tree S α)) :=
  match t.root.locate path with
  | none => .ok none
  | some (_, .fork i ..) => .error (.cutIntoInternal i)
  | some (cell, .leaf i a) => .ok <| (cell.fit (S.whole h)).map fun cut =>
    { root     := t.root.modify (fun _ => .fork i none cut
                    (.leaf t.capacity a) (.leaf (t.capacity + 1) a)) path
      capacity := t.capacity + 2 }

end Tree
end SpacePartition
