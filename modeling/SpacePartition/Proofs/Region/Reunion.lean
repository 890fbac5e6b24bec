import SpacePartition.Proofs.Plane.Layout
import SpacePartition.Proofs.Region.Construction
import SpacePartition.Proofs.Region.Uniform
import SpacePartition.Region.Measure

/-!
Boundaries that can be measured. Where the parts of each cut can be put together again, a partition
has a boundary, and where the parts can be measured, a region has a size. What parts inherit from
their hyperplanes holds of all cuts that facets make.
-/

namespace SpacePartition

variable {R : Type} {S : Space R} {ι : Type}

structure Space.Measures (S : Space R) (s : S.Sub) : Prop where
  size       : ∃ a, S.size s = .ok a
  barycenter : ∃ p, S.barycenter s = .ok p

namespace Node

variable {n p m : Node S ι Bool} {P Q : S.Sub → Prop} {s : S.Sub}

theorem exists_facetOn (hP : S.Reunites P) {touched : Option S.Sub} (ht : ∀ s ∈ touched, P s)
    (facing : Facing) : ∃ fs, m.facetOn facing touched = .ok fs ∧ ∀ f ∈ fs, P f.sub := by
  cases touched
  case none => exact ⟨[], rfl, nofun⟩
  case some s =>
    obtain ⟨c, hc, hh, -⟩ := m.exists_contact hP (ht s rfl)
    refine ⟨_, by rw [facetOn, hc]; rfl, fun f hf => ?_⟩
    obtain ⟨u, hu, rfl⟩ := List.mem_map.mp hf
    obtain ⟨hu, -⟩ := Option.filter_eq_some_iff.mp <| Option.mem_toList.mp hu
    cases facing
    case plusOutside => exact hh true u hu
    case plusInside  => exact hh false u hu

theorem exists_facetsOfCut (hP : S.Reunites P) (hs : P s) :
    ∃ fs, facetsOfCut s p m = .ok fs ∧ ∀ f ∈ fs, P f.sub := by
  obtain ⟨c, hc, hh, -⟩ := p.exists_contact hP hs
  have ⟨fs, hfs, hf⟩ := exists_facetOn (m := m) hP (hh false) .plusOutside
  have ⟨gs, hgs, hg⟩ := exists_facetOn (m := m) hP (hh true) .plusInside
  refine ⟨fs ++ gs, ?_, List.forall_mem_append.mpr ⟨hf, hg⟩⟩
  have hfs : m.facetOn .plusOutside c.outside = _ := hfs
  have hgs : m.facetOn .plusInside c.inside = _ := hgs
  rw [facetsOfCut, hc]
  simp only [bind, Except.bind, hfs, hgs]
  rfl

-- Each cut may have a family of parts of its own.
theorem exists_facets (hc : ∀ s ∈ n.cuts, ∃ P, S.Reunites P ∧ P s ∧ ∀ u, P u → Q u) :
    ∃ fs, n.facets = .ok fs ∧ ∀ f ∈ fs, Q f.sub := by
  induction n
  case leaf => exact ⟨[], rfl, nofun⟩
  case fork i a cut plus minus hp hm =>
    have ⟨⟨P, hP, hs, hQ⟩, hc⟩ := List.forall_mem_cons.mp hc
    have ⟨hcp, hcm⟩ := List.forall_mem_append.mp hc
    have ⟨fs, hfs, hf⟩ := hp hcp
    have ⟨gs, hgs, hg⟩ := hm hcm
    have ⟨es, hes, he⟩ := exists_facetsOfCut (p := plus) (m := minus) hP hs
    refine ⟨fs ++ gs ++ es, ?facets, ?parts⟩
    case facets =>
      rw [facets, hfs, hgs]
      simp only [bind, Except.bind, hes]
      rfl
    case parts =>
      simp only [List.forall_mem_append]
      exact ⟨⟨hf, hg⟩, fun f h => hQ _ (he f h)⟩

end Node

namespace Region

variable [Scalar R] {fs : List (Facet S)} {r : Region S}

theorem exists_flow (h : ∀ f ∈ fs, S.Measures f.sub) (sum : R) (moment : S.Point) :
    ∃ o, flow fs sum moment = .ok o := by
  induction fs generalizing sum moment
  case nil => exact ⟨_, rfl⟩
  case cons f fs hi =>
    have ⟨⟨⟨a, ha⟩, p, hp⟩, h⟩ := List.forall_mem_cons.mp h
    rw [flow, ha, hp]
    simp only [bind, Except.bind, pure, Except.pure]
    split
    case isTrue  => exact ⟨_, rfl⟩
    case isFalse => exact hi h ..

theorem exists_divergence
    (hc : ∀ s ∈ r.tree.root.cuts, ∃ P, S.Reunites P ∧ P s ∧ ∀ u, P u → S.Measures u) :
    ∃ p, r.divergence = .ok p := by
  obtain ⟨fs, hfs, hm⟩ : ∃ fs, r.facets = .ok fs ∧ ∀ f ∈ fs, S.Measures f.sub :=
    Node.exists_facets hc
  have ⟨o, ho⟩ := exists_flow hm 0 Coordinates.origin
  rw [divergence, hfs]
  simp only [bind, Except.bind, pure, Except.pure, ho]
  split
  case isTrue => exact ⟨_, rfl⟩
  case isFalse =>
    cases o
    case none => exact ⟨_, rfl⟩
    case some =>
      dsimp only
      split
      case isTrue  => exact ⟨_, rfl⟩
      case isFalse => exact ⟨_, rfl⟩

end Region

namespace Layout

-- Cells without points, whose cuts have no more than a property.
def bare (P : S.Sub → Prop) : Layout S Empty :=
  ⟨fun _ _ => ∅, fun _ => P⟩

theorem bare_lawful {P : S.Sub → Prop} (hS : S.Grounded)
    (hP : ∀ {s h b part}, P s → (S.split s h).on b = some part → P part) : (bare P).Lawful where
  disjoint         := nofun
  hyperplane_whole := hS.hyperplane_whole
  hyperplane_part  := hS.hyperplane_part
  spans_part hs _  := hP hs

end Layout

-- The facets of a boundary only need to have a size, and only if there is more than one.
theorem Region.exists_ofBoundary [Scalar R] {P : S.Sub → Prop} {fs : List S.Sub} (hS : S.Grounded)
    (hP : ∀ {s h b part}, P s → (S.split s h).on b = some part → P part)
    (hw : ∀ f ∈ fs, P (S.whole (S.hyperplane f))) (hs : ∀ f ∈ fs, ∃ a, S.size f = .ok a)
    (tolerance : R) :
    ∃ r, ofBoundary fs tolerance = .ok r ∧ r.tolerance = tolerance ∧
      ∀ s ∈ r.tree.root.cuts, P s := by
  have ⟨gs, hg, hp⟩ := Selector.largestFirst_perm hs
  obtain ⟨r, hr, ht, hf⟩ : ∃ r, ofBoundary fs tolerance = .ok r ∧ r.tolerance = tolerance ∧
      (Layout.bare P).Fitted .univ r.tree.root :=
    Layout.fitted_ofBoundaryWith (Layout.bare_lawful hS hP) hg fun f hf => hw f <| hp.mem_iff.mp hf
  exact ⟨r, hr, ht, fun s hs => (hf.exists_spans hs).elim fun _ h => h.2⟩

section Embedded

variable [Scalar R] {E : Embedding R}

theorem Embedding.grounded (E : Embedding R) : E.space.Grounded :=
  ⟨fun _ => rfl, Embedded.hyperplane_part⟩

-- Parts of lines always have a size.
theorem SubLine.measures (s : SubLine R) : (plane R).Measures s :=
  ⟨⟨_, rfl⟩, _, rfl⟩

-- A region of the plane can be measured if its cuts are cut at tolerances that are numbers.
theorem Region.exists_divergence_plane {r : Region (plane R)}
    (hr : ∀ s ∈ r.tree.root.cuts, s.remaining.tolerance == s.remaining.tolerance) :
    ∃ p, r.divergence = .ok p :=
  exists_divergence fun s hs =>
    ⟨_, (OrientedLine.embedding R).reunites (hr s hs), rfl, fun u _ => SubLine.measures u⟩

end Embedded
end SpacePartition
