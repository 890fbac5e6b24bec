import SpacePartition.Proofs.Region.Emptiness
import SpacePartition.Proofs.Region.Flow
import SpacePartition.Proofs.Region.Inherited
import SpacePartition.Scalar.Binary64
import SpacePartition.Solid.Basic

/-!
Boundaries and sizes always have an answer. Parts of a cut keep the tolerance at which they have
been cut, whatever the tolerances of the hyperplanes are that cut them, so that they can be put
together again; and so do parts of the cuts of a part, whose size is that of a region one dimension
below.
-/

namespace SpacePartition

open Scalar

variable {R : Type}

section Embedded

variable [Scalar R] {E : Embedding R} {s part : Embedded E} {h g : E.Hyperplane} {t : R}
variable {b : Branch} {Q : E.inner.Sub → Prop}

-- Whether tolerances are numbers.
def Embedded.Numeric (s : Embedded E) : Prop :=
  isNaN (E.tolerance s.hyperplane) = false ∧ isNaN s.remaining.tolerance = false

theorem Embedding.inherits_numeric (E : Embedding R) :
    E.space.Inherits (Embedded.Numeric (E := E)) where
  part hs hp := ⟨Embedded.hyperplane_part hp ▸ hs.1, Embedded.tolerance_split hp ▸ hs.2⟩
  whole hs := ⟨hs.1, hs.1⟩

-- Whether the hyperplane and the tolerance of a part are given ones, and its cuts have a property.
structure Embedded.Stems (h : E.Hyperplane) (t : R) (Q : E.inner.Sub → Prop) (s : Embedded E) :
    Prop where
  hyperplane : s.hyperplane = h
  tolerance  : s.remaining.tolerance = t
  cuts       : s.remaining.tree.root.AllCuts Q

-- A hyperplane whose traces have a property.
def Embedding.Traces (E : Embedding R) (Q : E.inner.Sub → Prop) (h : E.Hyperplane) : Prop :=
  ∀ {g trace}, E.trace h g = .crossing trace →
    Q (E.inner.whole trace) ∧ Q (E.inner.whole (E.inner.reversed trace))

omit [Scalar R] in
-- A part is cut by the trace that bounds it and by what was on this side of the trace.
theorem Embedded.cuts_part {c : E.inner.Hyperplane} {half : Node E.inner Nat Bool}
    (hc : Q (E.inner.whole c)) (hh : half.AllCuts Q) (hp : s.part c half = some part) :
    part.remaining.tree.root.AllCuts Q := by
  rw [Embedded.part] at hp
  split at hp <;> cases hp
  exact Node.allCuts_fork.mpr ⟨hc, Node.allCuts_leaf, hh.number.relabel⟩

theorem Embedded.Stems.split (hQ : E.inner.Inherits Q) (hT : E.Traces Q h) (hs : s.Stems h t Q)
    (hp : (s.split g).on b = some part) : part.Stems h t Q where
  hyperplane := (Embedded.hyperplane_part hp).trans hs.hyperplane
  tolerance  := (Embedded.tolerance_split hp).trans hs.tolerance
  cuts := by
    cases ht : E.trace s.hyperplane g
    case parallel => exact Embedded.eq_of_part_of_parallel ht hp ▸ hs.cuts
    case crossing trace =>
      have halves := hs.cuts.split hQ (E.inner.whole trace)
      obtain ⟨hm, hp'⟩ := hT (hs.hyperplane ▸ ht)
      rw [Embedded.split_of_crossing ht] at hp
      cases b
      case plus  => exact cuts_part hp' halves.1 hp
      case minus => exact cuts_part hm halves.2 hp

-- Parts of one hyperplane, cut at one tolerance, can be put together again. So can parts of these,
-- and the property of their cuts stays.
theorem Embedding.reunites_stems (hQ : E.inner.Inherits Q) (hT : E.Traces Q h) (ht : t == t) :
    E.space.Reunites (Embedded.Stems (E := E) h t Q) where
  split hs hp := hs.split hQ hT hp
  reunite {s s'} hs hs' := by
    have ht :
        Region.tolerance (Embedded.remaining s) == Region.tolerance (Embedded.remaining s') := by
      rwa [hs.tolerance, hs'.tolerance]
    obtain ⟨r, hr, hrt⟩ := Region.exists_union ht
    exact ⟨_, congrArg (_ <$> ·) hr, hs.hyperplane, hrt.trans hs.tolerance,
      Region.allCuts_union hQ hs.cuts hs'.cuts hr⟩

-- Two parts can be put together if their tolerances are equal, and else this is refused.
theorem Embedded.exists_reunite_iff {s' : Embedded E} :
    (∃ u, s.reunite s' = .ok u) ↔ s.remaining.tolerance == s'.remaining.tolerance := by
  rw [← Region.exists_union_iff]
  simp [Embedded.reunite, Except.map_eq_ok]

namespace Region

variable {r : Region E.space}

-- Whether a region has a boundary, with parts of its cuts at their tolerances, and can be measured.
structure Answers (r : Region E.space) : Prop where
  facets       : ∃ fs, r.facets = .ok fs ∧ ∀ f ∈ fs, ∃ s ∈ r.tree.root.cuts,
    Embedded.hyperplane f.sub = Embedded.hyperplane s ∧
    (Embedded.remaining f.sub).tolerance = (Embedded.remaining s).tolerance
  boundarySize : ∃ x, r.boundarySize = .ok x
  properties   : ∃ p, r.properties = .ok p
  size         : ∃ x, r.size = .ok x
  barycenter   : ∃ p, r.barycenter = .ok p

theorem answers (hQ : E.inner.Inherits Q)
    (hm : ∀ u : Embedded E, u.remaining.tree.root.AllCuts Q → E.space.Measures u)
    (hr : ∀ s ∈ r.tree.root.cuts, E.Traces Q (Embedded.hyperplane s) ∧
      isNaN (Embedded.remaining s).tolerance = false ∧ (Embedded.remaining s).tree.root.AllCuts Q) :
    r.Answers := by
  have family : ∀ s ∈ r.tree.root.cuts, ∃ P, E.space.Reunites P ∧ P s ∧ ∀ u, P u →
      E.space.Measures u ∧ ∃ s ∈ r.tree.root.cuts,
        Embedded.hyperplane u = Embedded.hyperplane s ∧
        (Embedded.remaining u).tolerance = (Embedded.remaining s).tolerance := by
    intro s hs
    obtain ⟨hT, ht, hc⟩ := hr s hs
    refine ⟨_, E.reunites_stems hQ hT (by simpa [isNaN] using ht), ⟨rfl, rfl, hc⟩, fun u hu => ?_⟩
    exact ⟨hm u hu.cuts, s, hs, hu.hyperplane, hu.tolerance⟩
  obtain ⟨fs, hfs, hf⟩ : ∃ fs, r.facets = .ok fs ∧ _ := Node.exists_facets family
  obtain ⟨p, hp⟩ : ∃ p, r.properties = .ok p := exists_divergence fun s hs =>
    (family s hs).imp fun P h => ⟨h.1, h.2.1, fun u hu => (h.2.2 u hu).1⟩
  obtain ⟨xs, hxs, -⟩ := Except.exists_mapM (f := fun f : Facet E.space => E.space.size f.sub)
    (p := fun _ => True) fun f h => (hf f h).1.size.imp fun _ h => ⟨h, trivial⟩
  have boundary : r.boundarySize = .ok (Scalar.sum xs) := by
    rw [boundarySize, hfs]
    simp only [bind, Except.bind, hxs]
    rfl
  exact ⟨⟨fs, hfs, fun f h => (hf f h).2⟩, ⟨_, boundary⟩, ⟨p, hp⟩, ⟨_, congrArg (_ <$> ·) hp⟩,
    _, congrArg (_ <$> ·) hp⟩

end Region
end Embedded

-- The trace of a plane has the tolerance of the plane.
theorem OrientedPlane.tolerance_trace [Metric R] {h g : OrientedPlane R} {l : OrientedLine R}
    (hl : h.trace g = .crossing l) : l.tolerance = h.tolerance := by
  rw [trace] at hl
  split at hl <;> cases hl
  rfl

theorem SubPlane.measures [Metric R] {u : SubPlane R}
    (hu : u.remaining.tree.root.AllCuts (Embedded.Numeric (E := OrientedLine.embedding R))) :
    (solid R).Measures u := by
  have hr : ∀ s ∈ u.remaining.tree.root.cuts, (Embedded.remaining s).tolerance ==
      (Embedded.remaining (E := OrientedLine.embedding R) s).tolerance := by
    intro s hs
    simpa [isNaN] using (hu s hs).2
  obtain ⟨p, hp⟩ := Region.exists_divergence_plane hr
  exact ⟨⟨_, congrArg (_ <$> ·) hp⟩, _, congrArg (_ <$> ·) (congrArg (_ <$> ·) hp)⟩

namespace Region

-- Regions of the plane and of space have a boundary and a size if no tolerance of their cuts, and
-- of the cuts of these, is undefined, however different they are. Putting parts together is refused
-- only for different tolerances, so that all parts that are put together have equal ones.
theorem answers_of_numeric [Metric R] :
    (∀ r : Region (plane R), (∀ s ∈ r.tree.root.cuts, s.Numeric) → r.Answers) ∧
    (∀ r : Region (solid R),
      (∀ s ∈ r.tree.root.cuts, s.Numeric ∧ ∀ c ∈ s.remaining.tree.root.cuts, c.Numeric) →
        r.Answers) ∧
    ∀ (E : Embedding R) (s s' : Embedded E),
      (∃ u, s.reunite s' = .ok u) ↔ s.remaining.tolerance == s'.remaining.tolerance := by
  refine ⟨fun r hr => ?plane, fun r hr => ?solid, fun E s s' => Embedded.exists_reunite_iff⟩
  case plane =>
    refine answers (Q := fun _ => True) ⟨fun _ _ => trivial, fun _ => trivial⟩
      (fun u _ => SubLine.measures u) fun s hs => ?_
    exact ⟨fun _ => ⟨trivial, trivial⟩, (hr s hs).2, fun _ _ => trivial⟩
  case solid =>
    refine answers (Embedding.inherits_numeric _) (fun u => SubPlane.measures) fun s hs => ?_
    obtain ⟨⟨hh, ht⟩, hc⟩ := hr s hs
    refine ⟨fun {g l} hl => ?_, ht, hc⟩
    have hl : isNaN (OrientedLine.tolerance l) = false := OrientedPlane.tolerance_trace hl ▸ hh
    exact ⟨⟨hl, hl⟩, hl, hl⟩

-- All tolerances are different, those of hyperplanes and those at which they are cut.
theorem answers_of_mixed_tolerances :
    let onLine (h : OrientedLine Float) (t : Float) : SubLine Float :=
      ⟨h, ⟨.ofParts (⟨0, true, 7⟩ : OrientedPoint Float)
        (.leaf (some true)) (.leaf (some true)) none, t⟩⟩
    let onPlane (h : OrientedPlane Float) (l : SubLine Float) (t : Float) : SubPlane Float :=
      ⟨h, ⟨.ofParts (S := plane Float) l (.leaf (some true)) (.leaf (some true)) none, t⟩⟩
    let corner {S : Space Float} (s c : S.Sub) : Region S :=
      ⟨.ofParts s (.leaf (some false))
        (.ofParts c (.leaf (some true)) (.leaf (some false)) none) none, 10⟩
    let inPlane : Region (plane Float) := corner (onLine ⟨1, 0, 0, 1⟩ 2) (onLine ⟨0, 1, 0, 3⟩ 4)
    let inSpace : Region (solid Float) := corner
      (onPlane ⟨⟨0, 0, 0⟩, ⟨1, 0, 0⟩, ⟨0, 1, 0⟩, ⟨0, 0, 1⟩, 0, 1⟩ (onLine ⟨1, 0, 0, 2⟩ 3) 4)
      (onPlane ⟨⟨0, 0, 0⟩, ⟨0, 1, 0⟩, ⟨0, 0, 1⟩, ⟨1, 0, 0⟩, 0, 5⟩ (onLine ⟨0, 1, 0, 6⟩ 8) 9)
    ((∀ s ∈ inPlane.tree.root.cuts, s.Numeric) ∧ inPlane.Answers) ∧
    (∀ s ∈ inSpace.tree.root.cuts, s.Numeric ∧ ∀ c ∈ s.remaining.tree.root.cuts, c.Numeric) ∧
      inSpace.Answers := by
  intro onLine onPlane corner inPlane inSpace
  have hp : ∀ s ∈ inPlane.tree.root.cuts, s.Numeric := by
    rintro s (- | ⟨_, - | ⟨_, ⟨⟩⟩⟩) <;> constructor <;> decide +kernel
  have hs : ∀ s ∈ inSpace.tree.root.cuts,
      s.Numeric ∧ ∀ c ∈ s.remaining.tree.root.cuts, c.Numeric := by
    rintro s (- | ⟨_, - | ⟨_, ⟨⟩⟩⟩)
    all_goals
      constructor
      case left => constructor <;> decide +kernel
      case right =>
        rintro c (- | ⟨_, ⟨⟩⟩)
        constructor <;> decide +kernel
  have ⟨ofPlane, ofSolid, _⟩ := answers_of_numeric (R := Float)
  exact ⟨⟨hp, ofPlane inPlane hp⟩, hs, ofSolid inSpace hs⟩

end Region
end SpacePartition
