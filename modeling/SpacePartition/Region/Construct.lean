import SpacePartition.Region.Algebra

/-!
Regions built from hyperplanes and from their boundaries.
-/

namespace SpacePartition

variable {R : Type}

-- Puts the facets of a boundary into the order in which they become cuts.
abbrev Selector (S : Space R) :=
  List S.Sub → Except (Violation R) (List S.Sub)

namespace Selector

variable {S : Space R}

def inputOrder : Selector S :=
  .ok

-- Large cuts near the root make shallow trees. Facets of equal size stay in order.
def largestFirst [Scalar R] : Selector S := fun facets => do
  -- A single facet is not measured.
  if facets.length ≤ 1 then return facets
  let sized ← facets.mapM fun f => return (f, ← S.size f)
  return (sized.mergeSort fun f g => Scalar.totalLE g.2 f.2).map (·.1)

end Selector

-- Distributes facets to the sides of a hyperplane. Those within it are dropped.
def scatter {S : Space R} (h : S.Hyperplane) : List S.Sub → List S.Sub × List S.Sub
  | []      => ([], [])
  | f :: fs =>
    let (plus, minus) := scatter h fs
    match S.split f h with
    | ⟨some _, none⟩   => (f :: plus, minus)
    | ⟨none, some _⟩   => (plus, f :: minus)
    | ⟨some p, some m⟩ => (p :: plus, m :: minus)
    | ⟨none, none⟩     => (plus, minus)

theorem length_scatter_le {S : Space R} (h : S.Hyperplane) (fs : List S.Sub) :
    (scatter h fs).1.length ≤ fs.length ∧ (scatter h fs).2.length ≤ fs.length := by
  induction fs
  case nil => simp [scatter]
  case cons f fs ih =>
    simp only [scatter]
    split <;> simp only [List.length_cons] <;> omega

namespace Node

variable {S : Space R} {ι : Type}

-- Leaves on the minus side of their cut are inside.
def shade (inside : Bool) : Node S ι Bool → Node S ι Bool
  | leaf i _       => leaf i (some inside)
  | fork i a c p m => fork i a c (p.shade false) (m.shade true)

end Node

namespace Tree

variable {S : Space R}

-- Cuts the leaf at a path by the first facet that reaches it, and both sides by the parts of the
-- facets that follow.
def carve (t : Tree S Bool) (path : Path) : List S.Sub → Tree S Bool
  | []      => t
  | f :: fs =>
    match t.insertCut path (S.hyperplane f) with
    | .ok (some t) =>
      have := length_scatter_le (S.hyperplane f) fs
      let t := t.carve (path ++ [.plus]) (scatter (S.hyperplane f) fs).1
      t.carve (path ++ [.minus]) (scatter (S.hyperplane f) fs).2
    | _ => t.carve path fs
termination_by fs => fs.length
decreasing_by all_goals simp only [List.length_cons]; omega

end Tree

namespace Region

variable {S : Space R}

-- The region with the given facets, which have it on their minus sides. The facets need not be
-- connected. Without facets it is the whole space.
def ofBoundaryWith (select : Selector S) (facets : List S.Sub) (tolerance : R) :
    Except (Violation R) (Region S) := do
  if facets.isEmpty then return whole tolerance
  let t := Tree.carve (.leaf none) [] (← select facets)
  return ⟨{ t with root := t.root.shade true }, tolerance⟩

def ofBoundary [Scalar R] : List S.Sub → R → Except (Violation R) (Region S) :=
  ofBoundaryWith .largestFirst

-- A chain of cuts, each on the minus side of the one before. The hyperplanes that miss the cell at
-- the end of the chain are returned too.
def chain (path : Path) : Tree S Bool → List S.Hyperplane → Tree S Bool × List S.Hyperplane
  | t, []      => (t, [])
  | t, h :: hs =>
    match t.insertCut path h with
    | .ok (some t) =>
      chain (path ++ [.minus]) (t.setAttr (path ++ [.plus]) (some false)) hs
    | _ =>
      let (t, missed) := chain path t hs
      (t, h :: missed)

-- The intersection of the minus sides of hyperplanes; the empty region if there are none.
def convex [BEq R] (hs : List S.Hyperplane) (tolerance : R) : Except (Violation R) (Region S) :=
  if hs.isEmpty then .ok (empty tolerance)
  else
    let (t, missed) := chain [] (.leaf (some true)) hs
    missed.foldlM (fun r h => r.intersection (halfSpace h tolerance)) ⟨t, tolerance⟩

end Region
end SpacePartition
