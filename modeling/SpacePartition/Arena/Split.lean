import SpacePartition.Arena.Basic

/-!
Splitting a subtree of an arena. The nodes of the subtree are used for the two halves, so that the
subtree is no more.
-/

namespace SpacePartition

-- The half of a split that goes with a cut on a side.
def Side.half : Side → Branch
  | .plus => .plus
  | _     => .minus

namespace Arena.Action

variable {R : Type} {S : Space R} {α σ ε : Type} [DecidableEq α]

-- Hangs a node whose cut lies on one side of a split below the half on this side. The split has
-- consumed the child `b` of the node, and the half takes its place.
def graft (split i : Index) (b : Branch) (side : Side) : Action S α σ ε Unit := do
  let (plus, minus) ← twoChildren split
  setChild i b (side.half.pick plus minus)
  setChild split side.half i
  condense i

omit [DecidableEq α] in
-- Exchanges the minus side of a fork for the plus side of another one.
def swap (plus minus : Index) : Action S α σ ε Unit := do
  let (_, plusMinus) ← twoChildren plus
  let (minusPlus, _) ← twoChildren minus
  setChild plus .minus minusPlus
  setChild minus .plus plusMinus

-- Makes the halves of a split out of those of the two sides of a crossing cut. Each half gets its
-- part of the cut.
def pair (sub plusCut minusCut : S.Sub) (plus minus : Index) : Action S α σ ε Index := do
  swap plus minus
  update plus (.setCut plusCut)
  update minus (.setCut minusCut)
  condense plus
  condense minus
  addFork sub plus minus none

omit [DecidableEq α] in
-- Cuts a fork by another part of its hyperplane, which may face the other way.
def recut (i plus minus : Index) (sub : S.Sub) (same : Bool) : Action S α σ ε Unit := do
  update i (.setCut sub)
  if !same then
    setChild i .plus minus
    setChild i .minus plus

end Arena.Action

namespace Index

open Arena Action

variable {R : Type} {S : Space R} {α σ ε : Type} [DecidableEq α]

-- The root of the result is a fork that is cut by `sub` and hangs nowhere.
def split (i : Index) (sub : S.Sub) : Action S α σ ε Index := do
  match ← children i with
  | none =>
    let other ← addLeaf (← entry i).attr
    addFork sub i other none
  | some (plus, minus) =>
    let c ← cut i
    let subs := S.split sub (S.hyperplane c)
    let cuts := S.split c (S.hyperplane sub)
    let root ← (match subs.side, subs.plus, subs.minus with
      | .plus, _, _ => do
        let root ← plus |>.split sub
        graft root i .plus cuts.side
        return root
      | .minus, _, _ => do
        let root ← minus |>.split sub
        graft root i .minus cuts.side
        return root
      | .both, some subPlus, some subMinus => do
        let plus ← plus |>.split subPlus
        let minus ← minus |>.split subMinus
        pair sub (cuts.plus.getD c) (cuts.minus.getD c) plus minus
      | .both, _, _ => throw .onePart
      | .within, _, _ => do
        recut i plus minus sub (S.sameOrientation (S.hyperplane c) (S.hyperplane sub))
        return i)
    update root (.setParent none)
    return root
partial_fixpoint

end Index
end SpacePartition
