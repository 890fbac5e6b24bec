import SpacePartition.Node.Basic

/-!
Splitting a partition by a sub-hyperplane of its cell.
-/

namespace SpacePartition

variable {R : Type}

-- A partition split in two: the fork that makes it whole again, less the cut.
structure Halves (S : Space R) (ι α : Type) where
  id    : ι
  attr  : Option α
  plus  : Node S ι α
  minus : Node S ι α

namespace Halves

variable {S : Space R} {ι α : Type}

def close (cut : S.Sub) (h : Halves S ι α) : Node S ι α :=
  .fork h.id h.attr cut h.plus h.minus

end Halves

namespace Node

variable {S : Space R} {ι α : Type} [Inhabited ι] [DecidableEq α]

-- Both halves keep the identifiers of the nodes they share; new forks carry the default one.
--
-- If `sub` lies on one side of the cut, only that side is split, and what lies beyond the cut goes
-- to the half that the cut is in. If they cross, all four quarters are formed and paired anew, each
-- half keeping its part of the cut, or the whole cut where its part is lost. If they coincide, the
-- two sides are the halves.
def split : Node S ι α → S.Sub → Halves S ι α
  | leaf i a, _ => ⟨default, none, leaf i a, leaf i a⟩
  | fork i a cut plus minus, sub =>
    let cuts := S.split cut (S.hyperplane sub)
    match S.split sub (S.hyperplane cut) with
    | ⟨some _, none⟩ =>
      let h := plus.split sub
      match cuts.side with
      | .plus => { h with plus := condense (fork i a cut h.plus minus) }
      | _     => { h with minus := condense (fork i a cut h.minus minus) }
    | ⟨none, some _⟩ =>
      let h := minus.split sub
      match cuts.side with
      | .plus => { h with plus := condense (fork i a cut plus h.plus) }
      | _     => { h with minus := condense (fork i a cut plus h.minus) }
    | ⟨some subPlus, some subMinus⟩ =>
      let p := plus.split subPlus
      let m := minus.split subMinus
      { id    := default
        attr  := none
        plus  := condense (fork p.id p.attr (cuts.plus.getD cut) p.plus m.plus)
        minus := condense (fork m.id m.attr (cuts.minus.getD cut) p.minus m.minus) }
    | ⟨none, none⟩ =>
      if S.sameOrientation (S.hyperplane cut) (S.hyperplane sub)
      then ⟨i, a, plus, minus⟩
      else ⟨i, a, minus, plus⟩

end Node
end SpacePartition
