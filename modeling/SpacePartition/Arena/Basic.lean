import SpacePartition.Node.Cell

/-!
Partitions kept in an arena. Nodes are entries of an array and know each other by their indices, so
that a partition is changed in place: subtrees are moved by changing links, and entries that no link
leads to any more are left behind.
-/

namespace SpacePartition

variable {R : Type}

-- Where an entry stands in its arena.
abbrev Index :=
  Nat

inductive Link (S : Space R)
  | leaf
  | fork (cut : S.Sub) (plus minus : Index)

structure Entry (S : Space R) (α : Type) where
  link   : Link S
  parent : Option Index
  attr   : Option α

-- The side of a fork where a node hangs.
abbrev Slot :=
  Index × Branch

namespace Entry

variable {S : Space R} {α : Type}

def setParent (parent : Option Index) (e : Entry S α) : Entry S α :=
  { e with parent }

def setAttr (attr : Option α) (e : Entry S α) : Entry S α :=
  { e with attr }

-- A leaf has no cut and no children to replace.
def setCut (cut : S.Sub) (e : Entry S α) : Entry S α :=
  match e.link with
  | .leaf     => e
  | .fork _ p m => { e with link := .fork cut p m }

def setChild (b : Branch) (child : Index) (e : Entry S α) : Entry S α :=
  match e.link, b with
  | .leaf, _            => e
  | .fork c _ m, .plus  => { e with link := .fork c child m }
  | .fork c p _, .minus => { e with link := .fork c p child }

def toLeaf (attr : Option α) (e : Entry S α) : Entry S α :=
  { e with link := .leaf, attr }

-- The entry after `offset` entries have been put in front of its arena.
def shift (offset : Nat) (e : Entry S α) : Entry S α where
  link := match e.link with
    | .leaf       => .leaf
    | .fork c p m => .fork c (p + offset) (m + offset)
  parent := e.parent.map (· + offset)
  attr   := e.attr

end Entry

structure Arena (S : Space R) (α : Type) where
  entries : Array (Entry S α)
  root    : Index

namespace Arena

-- What makes an action on an arena stop: a broken assumption of its own, or a refusal by whoever
-- was asked to decide something.
inductive Panic (ε : Type)
  | missing (i : Index)
  | noCut (i : Index)
  | noChildren (i : Index)
  | onePart
  | refused (e : ε)

-- Actions may also run forever. Beside the arena they have a state of those who decide.
abbrev Action (S : Space R) (α σ ε : Type) :=
  StateT (Arena S α × σ) (ExceptT (Panic ε) Option)

variable {S : Space R} {α σ ε : Type}

def put (i : Index) (e : Entry S α) (a : Arena S α) : Arena S α :=
  { a with entries := a.entries.setIfInBounds i e }

def push (e : Entry S α) (a : Arena S α) : Arena S α :=
  { a with entries := a.entries.push e }

-- Puts the entries of another arena behind its own.
def append (a other : Arena S α) : Arena S α :=
  { a with entries := a.entries ++ other.entries.map (.shift a.entries.size) }

namespace Action

def arena : Action S α σ ε (Arena S α) :=
  return (← get).1

def setArena (a : Arena S α) : Action S α σ ε Unit :=
  modify fun state => (a, state.2)

def entry (i : Index) : Action S α σ ε (Entry S α) := do
  match (← arena).entries[i]? with
  | some e => return e
  | none   => throw (.missing i)

def update (i : Index) (f : Entry S α → Entry S α) : Action S α σ ε Unit := do
  let e ← entry i
  setArena ((← arena).put i (f e))

def add (e : Entry S α) : Action S α σ ε Index := do
  let a ← arena
  setArena (a.push e)
  return a.entries.size

def children (i : Index) : Action S α σ ε (Option (Index × Index)) := do
  match (← entry i).link with
  | .leaf       => return none
  | .fork _ p m => return some (p, m)

def isLeaf (i : Index) : Action S α σ ε Bool :=
  return (← children i).isNone

def cut (i : Index) : Action S α σ ε S.Sub := do
  match (← entry i).link with
  | .leaf       => throw (.noCut i)
  | .fork c _ _ => return c

def twoChildren (i : Index) : Action S α σ ε (Index × Index) := do
  match ← children i with
  | none    => throw (.noChildren i)
  | some pm => return pm

def addLeaf (attr : Option α) : Action S α σ ε Index :=
  add ⟨.leaf, none, attr⟩

def addFork (cut : S.Sub) (plus minus : Index) (attr : Option α) : Action S α σ ε Index := do
  let i ← add ⟨.fork cut plus minus, none, attr⟩
  update plus (.setParent i)
  update minus (.setParent i)
  return i

def setChild (parent : Index) (b : Branch) (child : Index) : Action S α σ ε Unit := do
  update parent (.setChild b child)
  update child (.setParent parent)

-- Turns a node into a leaf and lets go of its children.
def makeLeaf (i : Index) (attr : Option α) : Action S α σ ε Unit := do
  match ← children i with
  | none        => pure ()
  | some (p, m) =>
    update p (.setParent none)
    update m (.setParent none)
  update i (.toLeaf attr)

def condense [DecidableEq α] (i : Index) : Action S α σ ε Unit := do
  match ← children i with
  | none        => pure ()
  | some (p, m) =>
    if ← isLeaf p <&&> isLeaf m then
      let plus ← entry p
      let minus ← entry m
      if plus.attr = minus.attr then makeLeaf i plus.attr

def slot (i : Index) : Action S α σ ε (Option Slot) := do
  match (← entry i).parent with
  | none        => return none
  | some parent =>
    match ← children parent with
    | none           => return none
    | some (plus, _) => return some (parent, if plus = i then .plus else .minus)

end Action
end Arena

namespace Index

open Arena Action

variable {S : Space R} {α σ ε : Type}

-- The part of a sub-hyperplane inside the cell of a node.
def fit (i : Index) (sub : S.Sub) : Action S α σ ε (Option S.Sub) := do
  match ← slot i with
  | none             => return some sub
  | some (parent, b) =>
    match (S.split sub (S.hyperplane (← cut parent))).on b with
    | none      => return none
    | some part => parent |>.fit part
partial_fixpoint

-- The cell of a node.
def walls (i : Index) : Action S α σ ε (Cell S) := do
  match ← slot i with
  | none             => return []
  | some (parent, b) =>
    let c ← cut parent
    return ⟨c, b⟩ :: (← parent |>.walls)
partial_fixpoint

-- The deepest node whose cell has a point. The descent ends early at a cut within the tolerance.
def cellOf [Scalar R] (x : S.Point) (tolerance : R) (i : Index) : Action S α σ ε Index := do
  match (← entry i).link with
  | .leaf       => return i
  | .fork c p m =>
    match S.heading (S.hyperplane c) tolerance x with
    | none   => return i
    | some b => b.pick p m |>.cellOf x tolerance
partial_fixpoint

-- Changes the attributes of the leaves of a subtree.
def markLeaves (f : Option α → Option α) (i : Index) : Action S α σ ε Unit := do
  match ← children i with
  | none        => update i fun e => e.setAttr (f e.attr)
  | some (p, m) =>
    p |>.markLeaves f
    m |>.markLeaves f
partial_fixpoint

-- Condenses a subtree, the sides of a fork before the fork.
def simplify [DecidableEq α] (i : Index) : Action S α σ ε Unit := do
  match ← children i with
  | none        => pure ()
  | some (p, m) =>
    p |>.simplify
    m |>.simplify
    condense i
partial_fixpoint

-- Copies a subtree of another arena.
def copy (source : Arena S α) (i : Index) : Action S α σ ε Index := do
  match source.entries[i]? with
  | none => throw (.missing i)
  | some ⟨.leaf, _, attr⟩ => addLeaf attr
  | some ⟨.fork c p m, _, attr⟩ =>
    let plus ← p |>.copy source
    let minus ← m |>.copy source
    addFork c plus minus attr
partial_fixpoint

end Index

namespace Arena.Action

variable {S : Space R} {α σ ε : Type}

-- Adds the entries of another arena and returns the new index of its root.
def absorb (other : Arena S α) : Action S α σ ε Index := do
  let a ← arena
  setArena (a.append other)
  let root := other.root + a.entries.size
  update root (.setParent none)
  return root

-- Drops the entries that no link leads to.
def compact : Action S α σ ε Unit := do
  let source ← arena
  setArena ⟨#[], 0⟩
  let root ← source.root.copy source
  setArena { (← arena) with root }

def simplify [DecidableEq α] : Action S α σ ε Unit := do
  (← arena).root |>.simplify
  compact

end Arena.Action
end SpacePartition
