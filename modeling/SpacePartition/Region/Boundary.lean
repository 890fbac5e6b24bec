import SpacePartition.Region.Basic

/-!
The boundary of a region. A part of a cut belongs to it if there is an inside cell on one side and
an outside cell on the other. Such parts are found by letting the cut fall through both sides of its
fork and collecting what lands in leaves of opposite kinds.
-/

namespace SpacePartition

variable {R : Type}

-- The parts of a sub-hyperplane that touch inside and outside leaves.
structure Contact (S : Space R) where
  inside  : Option S.Sub := none
  outside : Option S.Sub := none

namespace Contact

variable {S : Space R}

def reunite (touched : Option S.Sub) (sub : S.Sub) : Except (Violation R) (Option S.Sub) :=
  match touched with
  | none     => .ok sub
  | some old => some <$> S.reunite old sub

def touch (inside : Bool) (sub : S.Sub) (c : Contact S) : Except (Violation R) (Contact S) :=
  if inside
  then return { c with inside := ← reunite c.inside sub }
  else return { c with outside := ← reunite c.outside sub }

end Contact

-- The side of a facet on which the region lies.
inductive Facing
  | plusOutside
  | plusInside
  deriving DecidableEq, Repr

namespace Facing

def flip : Facing → Facing
  | plusOutside => plusInside
  | plusInside  => plusOutside

end Facing

structure Facet (S : Space R) where
  sub    : S.Sub
  facing : Facing

namespace Node

variable {S : Space R} {ι : Type}

-- Lets a sub-hyperplane fall to the leaves. One that lies on a cut touches both sides of it.
def characterize : Node S ι Bool → S.Sub → Contact S → Except (Violation R) (Contact S)
  | leaf _ a, sub, c => c.touch (a == some true) sub
  | fork _ _ cut plus minus, sub, c =>
    match S.split sub (S.hyperplane cut) with
    | ⟨some _, none⟩ => plus.characterize sub c
    | ⟨none, some _⟩ => minus.characterize sub c
    | ⟨some p, some m⟩ => do minus.characterize m (← plus.characterize p c)
    | ⟨none, none⟩     => do minus.characterize sub (← plus.characterize sub c)

def contact (n : Node S ι Bool) (sub : S.Sub) : Except (Violation R) (Contact S) :=
  n.characterize sub {}

-- The facet of parts that touched one kind of leaf on the plus side of their cut and may touch the
-- other kind on its minus side.
def facetOn (minus : Node S ι Bool) (facing : Facing) (touched : Option S.Sub) :
    Except (Violation R) (List (Facet S)) :=
  match touched with
  | none     => .ok []
  | some sub => do
    let c ← minus.contact sub
    let opposite := match facing with
      | .plusOutside => c.inside
      | .plusInside  => c.outside
    return (opposite.filter (!S.isEmpty ·)).toList.map ({ sub := ·, facing })

def facetsOfCut (cut : S.Sub) (plus minus : Node S ι Bool) :
    Except (Violation R) (List (Facet S)) := do
  let c ← plus.contact cut
  return (← minus.facetOn .plusOutside c.outside) ++ (← minus.facetOn .plusInside c.inside)

-- The facets of both sides of a cut come before those of the cut.
def facets : Node S ι Bool → Except (Violation R) (List (Facet S))
  | leaf .. => .ok []
  | fork _ _ cut plus minus => do
    return (← plus.facets) ++ (← minus.facets) ++ (← facetsOfCut cut plus minus)

end Node

namespace Region

variable {S : Space R}

def facets (r : Region S) : Except (Violation R) (List (Facet S)) :=
  r.tree.root.facets

def boundarySize [Scalar R] (r : Region S) : Except (Violation R) R := do
  return Scalar.sum (← (← r.facets).mapM (S.size ·.sub))

end Region
end SpacePartition
