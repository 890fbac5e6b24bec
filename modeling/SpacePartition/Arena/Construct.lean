import SpacePartition.Arena.Basic

/-!
Arenas made of others: a part of one, two of them with a cut between, one with a leaf cut in two,
and the one that tells a node from the rest.
-/

namespace SpacePartition

variable {R : Type} {S : Space R} {α σ ε : Type}

def Entry.toFork (cut : S.Sub) (plus minus : Index) (e : Entry S α) : Entry S α :=
  { e with link := .fork cut plus minus }

def Arena.leaf (attr : Option α) : Arena S α :=
  ⟨#[⟨.leaf, none, attr⟩], 0⟩

namespace Arena.Action

-- A copy of what is below a node, as an arena of its own.
def extract (i : Index) : Action S α σ ε (Arena S α) := do
  let source ← arena
  setArena ⟨#[], 0⟩
  let root ← i.copy source
  let copy ← arena
  setArena source
  return { copy with root }

-- Puts another arena on the minus side of a cut, and what was there before on its plus side.
def ofParts (cut : S.Sub) (minus : Arena S α) (attr : Option α) : Action S α σ ε Unit := do
  let plusRoot := (← arena).root
  let minusRoot ← absorb minus
  let root ← addFork cut plusRoot minusRoot attr
  setArena { (← arena) with root }

-- Does something to another arena, and returns what becomes of it.
def aside (other : Arena S α) (x : Action S α σ ε Unit) : Action S α σ ε (Arena S α) := do
  let source ← arena
  setArena other
  x
  let made ← arena
  setArena source
  return made

-- Cuts a leaf in two, which both inherit its attribute. A hyperplane that misses the cell of the
-- leaf is refused.
def insertCut (i : Index) (h : S.Hyperplane) : Action S α σ (Violation R) Bool := do
  if !(← isLeaf i) then
    throw (.refused (.cutIntoInternal i))
  match ← i.fit (S.whole h) with
  | none     => return false
  | some cut =>
    let attr := (← entry i).attr
    update i (.setAttr none)
    let plus ← addLeaf attr
    let minus ← addLeaf attr
    update plus (.setParent (some i))
    update minus (.setParent (some i))
    update i (.toFork cut plus minus)
    return true

end Arena.Action

namespace Index

open Arena Action

-- Puts the cuts above a node around an arena, the nearest first. Their other sides are leaves.
def enclose (rest inner : Option α) (tree : Arena S α) (i : Index) :
    Action S α σ ε (Arena S α) := do
  match ← slot i with
  | none             => return tree
  | some (parent, b) =>
    let c ← cut parent
    let sibling := Arena.leaf rest
    let tree ← (match b with
      | .plus  => aside tree (ofParts c sibling inner)
      | .minus => aside sibling (ofParts c tree inner))
    parent |>.enclose rest inner tree
partial_fixpoint

-- An arena that keeps only the cuts around the cell of a node.
def isolate (attr rest inner : Option α) (i : Index) : Action S α σ ε (Arena S α) :=
  i.enclose rest inner (Arena.leaf attr)

end Index
end SpacePartition
