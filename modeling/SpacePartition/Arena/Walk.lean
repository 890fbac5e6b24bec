import SpacePartition.Arena.Basic
import SpacePartition.Node.Walk

/-!
Visits to the nodes of an arena. A visitor chooses for each fork whether it comes before, between or
after its two sides. Nodes are counted by a search of its own, which keeps a stack.
-/

namespace SpacePartition

variable {R : Type} {S : Space R} {α σ ε β : Type}

namespace Order

-- The order, read backwards.
def mirror : Order → Order
  | plusMinusSelf => selfMinusPlus
  | plusSelfMinus => minusSelfPlus
  | minusPlusSelf => selfPlusMinus
  | minusSelfPlus => plusSelfMinus
  | selfPlusMinus => minusPlusSelf
  | selfMinusPlus => plusMinusSelf

end Order

namespace Arena

-- A visitor sees the arena but cannot change it.
structure Visitor (S : Space R) (α σ : Type) where
  order : Arena S α → Index → StateM σ Order := fun _ _ => return .selfPlusMinus
  fork  : Arena S α → Index → StateM σ Unit
  leaf  : Arena S α → Index → StateM σ Unit

namespace Visitor

-- Records the nodes it comes by.
def collecting (order : Index → Order) : Visitor S α (List Index) where
  order _ i := return order i
  fork _ i  := modify (· ++ [i])
  leaf _ i  := modify (· ++ [i])

end Visitor

-- Nodes that a search has still to come by, the next one first.
abbrev Stack : Type :=
  List Index

namespace Stack

def push (stack : Stack) (i : Index) : Stack :=
  i :: stack

-- The nodes at or below those on a stack, the top of the stack first.
def reach (stack : Stack) : Action S α σ ε (List Index) := do
  match stack with
  | []                   => return []
  | i :: (stack : Stack) =>
    match ← Action.children i with
    | none        => return i :: (← stack |>.reach)
    | some (p, m) => return i :: (← stack |>.push m |>.push p |>.reach)
partial_fixpoint

end Stack

namespace Action

-- Asks somebody who only sees the arena.
def consult (f : Arena S α → Index → StateM σ β) (i : Index) : Action S α σ ε β := do
  let (a, s) ← get
  let (b, s) := (f a i).run s
  set (a, s)
  return b

def nodeCount : Action S α σ ε Nat := do
  return (← Stack.reach [(← arena).root]).length

def leafCount : Action S α σ ε Nat := do
  (← Stack.reach [(← arena).root]).foldlM (fun k i => return if ← isLeaf i then k + 1 else k) 0

end Action
end Arena

namespace Index

open Arena Action

def visit (v : Visitor S α σ) (i : Index) : Action S α σ ε Unit := do
  match ← children i with
  | none        => consult v.leaf i
  | some (p, m) =>
    match ← consult v.order i with
    | .plusMinusSelf => p |>.visit v; m |>.visit v; consult v.fork i
    | .plusSelfMinus => p |>.visit v; consult v.fork i; m |>.visit v
    | .minusPlusSelf => m |>.visit v; p |>.visit v; consult v.fork i
    | .minusSelfPlus => m |>.visit v; consult v.fork i; p |>.visit v
    | .selfPlusMinus => consult v.fork i; p |>.visit v; m |>.visit v
    | .selfMinusPlus => consult v.fork i; m |>.visit v; p |>.visit v
partial_fixpoint

end Index

namespace Arena.Action

def visit (v : Visitor S α σ) : Action S α σ ε Unit := do
  (← arena).root |>.visit v

end Arena.Action
end SpacePartition
