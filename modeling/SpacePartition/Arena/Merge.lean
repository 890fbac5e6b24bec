import SpacePartition.Arena.Split

/-!
Merging of arenas. Where a leaf of one partition faces a node of the other, a merger decides which
of them is hung into the result, and fits it to its cell there.
-/

namespace SpacePartition

variable {R : Type}

section Abbreviations

variable (S : Space R) (α σ ε : Type)

-- Chooses the attribute of the leaf that replaces a fork without cut. The children of the fork are
-- fitted already, and the arena is only looked at.
abbrev Arena.Handler :=
  Index → Action S α σ ε (Option α)

-- Gets the leaf, the node that faces it, the place for the one that is kept, and whether the leaf
-- is of the arena that is merged into; returns the one that is kept.
abbrev Arena.Merger :=
  Index → Index → Option Slot → Bool → Action S α σ ε Index

end Abbreviations

variable {S : Space R} {α σ ε : Type}

namespace Index

open Arena Action

-- Removes what lies on the far side of a hyperplane.
def chop (vanish : Arena.Handler S α σ ε) (h : S.Hyperplane) (keep : Branch) (i : Index) :
    Action S α σ ε Unit := do
  match ← children i with
  | none               => pure ()
  | some (plus, minus) =>
    let parts := S.split (← cut i) h
    plus |>.chop vanish h keep
    minus |>.chop vanish h keep
    match parts.on keep with
    | none      => makeLeaf i (← vanish i)
    | some part => update i (.setCut part)
partial_fixpoint

-- Chops a node by the cuts above `current`, until its own cut vanishes.
def chopAbove (vanish : Arena.Handler S α σ ε) (i current : Index) : Action S α σ ε Unit := do
  match ← slot current with
  | none               => pure ()
  | some (ancestor, b) =>
    let h := S.hyperplane (← cut ancestor)
    let parts := S.split (← cut i) h
    let (plus, minus) ← twoChildren i
    plus |>.chop vanish h b
    minus |>.chop vanish h b
    match parts.on b with
    | none      => makeLeaf i (← vanish i)
    | some part =>
      update i (.setCut part)
      i |>.chopAbove vanish ancestor
partial_fixpoint

end Index

namespace Arena.Action

def hang (i : Index) (place : Option Slot) : Action S α σ ε Unit :=
  match place with
  | some (parent, b) => setChild parent b i
  | none             => update i (.setParent none)

-- Extends the cut of a fork to all of its cell. A cut that misses its cell stays as it is.
def refit (i : Index) : Action S α σ ε Unit := do
  match (← entry i).link with
  | .leaf       => pure ()
  | .fork c _ _ =>
    match ← i.fit (S.whole (S.hyperplane c)) with
    | none      => pure ()
    | some part => update i (.setCut part)

variable [DecidableEq α]

-- Hangs a node into a slot and fits it to the cell there.
def insertIn (vanish : Handler S α σ ε) (i : Index) (place : Option Slot) :
    Action S α σ ε Unit := do
  hang i place
  if !(← isLeaf i) then
    i.chopAbove vanish i
    condense i

-- Splits a node and hangs the halves into a slot.
def splitIn (i : Index) (sub : S.Sub) (place : Option Slot) : Action S α σ ε Index := do
  let root ← i.split sub
  place.forM fun slot => setChild slot.1 slot.2 root
  return root

end Arena.Action

section Merge

open Arena Action

variable [DecidableEq α]

def Index.mergeNodes (merger : Arena.Merger S α σ ε) (i other : Index) (place : Option Slot) :
    Action S α σ ε Index := do
  match ← children i with
  | none               => merger i other place true
  | some (plus, minus) =>
    if ← isLeaf other then
      merger other i place false
    else
      let merged ← splitIn other (← cut i) place
      let (mergedPlus, mergedMinus) ← twoChildren merged
      let _ ← plus |>.mergeNodes merger mergedPlus (some (merged, .plus))
      let _ ← minus |>.mergeNodes merger mergedMinus (some (merged, .minus))
      condense merged
      refit merged
      return merged
partial_fixpoint

def Arena.Action.merge (merger : Arena.Merger S α σ ε) (other : Arena S α) :
    Action S α σ ε Unit := do
  let otherRoot ← absorb other
  let root ← (← arena).root.mergeNodes merger otherRoot none
  setArena { (← arena) with root }
  update root (.setParent none)
  compact

end Merge

end SpacePartition
