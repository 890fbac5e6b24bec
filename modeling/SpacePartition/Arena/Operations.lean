import SpacePartition.Arena.Merge
import SpacePartition.Region.Algebra

/-!
Mergers of arenas that hang one of two nodes into the result, and those of the boolean operations.
What is inside and outside is told from the leaves.
-/

namespace SpacePartition.Arena

variable {R : Type} (S : Space R) (α σ ε : Type)

-- What becomes of a leaf and the node that faces it. One of them is kept, after the attributes of
-- leaves have been changed where that is asked for.
structure Decision where
  keepsLeaf : Bool
  onLeaf    : Option (Option α → Option α) := none
  onOther   : Option (Option α → Option α) := none
  fix       : Handler S α σ ε

-- Gets what a merger gets.
abbrev Decider :=
  Index → Index → Option Slot → Bool → Action S α σ ε (Decision S α σ ε)

variable {S α σ ε}

namespace Action

def attaching [DecidableEq α] (decide : Decider S α σ ε) : Merger S α σ ε :=
  fun leaf other place fromInstance => do
    let decision ← decide leaf other place fromInstance
    decision.onLeaf.forM (leaf.markLeaves ·)
    decision.onOther.forM (other.markLeaves ·)
    let kept := if decision.keepsLeaf then leaf else other
    insertIn decision.fix kept place
    return kept

def isInside (i : Index) : Action S Bool σ ε Bool :=
  return (← entry i).attr == some true

-- The attribute on which both sides of a fork agree, and else the fallback.
def agreed [DecidableEq α] (fallback : Option α) : Handler S α σ ε := fun i => do
  match ← children i with
  | none        => return fallback
  | some (p, m) =>
    if ← isLeaf p <&&> isLeaf m then
      let plus ← entry p
      let minus ← entry m
      return if plus.attr = minus.attr then plus.attr else fallback
    else
      return fallback

-- Judges a cell without cut by its barycenter.
def probe [Scalar R] [Measured S] (minuend subtrahend : Region S) :
    Handler S Bool σ (Violation R) :=
  fun i => do
    match minuend.probe subtrahend (← i.walls) with
    | .ok b    => return some b
    | .error v => throw (.refused v)

end Action

namespace Decider

-- Exchanges inside and outside. What has no attribute is outside.
def flip (attr : Option Bool) : Option Bool :=
  some (attr != some true)

def union : Decider S Bool σ ε := fun leaf _ _ _ => do
  let inside ← Action.isInside leaf
  return { keepsLeaf := inside, fix := Action.agreed (some inside) }

def intersection : Decider S Bool σ ε := fun leaf _ _ _ => do
  let inside ← Action.isInside leaf
  return { keepsLeaf := !inside, fix := Action.agreed (some inside) }

def xor : Decider S Bool σ ε := fun leaf _ _ _ => do
  let inside ← Action.isInside leaf
  return {
    keepsLeaf := false
    onOther   := if inside then some flip else none
    fix       := Action.agreed (some true) }

def difference [Scalar R] [Measured S] (minuend subtrahend : Region S) :
    Decider S Bool σ (Violation R) := fun leaf _ _ fromInstance => do
  let inside ← Action.isInside leaf
  let change := if inside then some flip else none
  return {
    keepsLeaf := inside != fromInstance
    onLeaf    := if fromInstance then none else change
    onOther   := if fromInstance then change else none
    fix       := Action.probe minuend subtrahend }

end Decider
end SpacePartition.Arena

namespace SpacePartition.Index

open Arena Action

variable {R : Type} {S : Space R} {α σ ε : Type}

-- Whether all leaves of a subtree pass a test, the minus side of a fork before its plus side.
def allLeaves (test : Option α → Bool) (i : Index) : Action S α σ ε Bool := do
  match ← children i with
  | none        => return test (← entry i).attr
  | some (p, m) => if ← m |>.allLeaves test then p |>.allLeaves test else return false
partial_fixpoint

-- Whether all leaves are outside.
def isEmpty (i : Index) : Action S Bool σ ε Bool :=
  i.allLeaves (· != some true)

-- Whether all leaves are inside.
def isFull (i : Index) : Action S Bool σ ε Bool :=
  i.allLeaves (· == some true)

end SpacePartition.Index
