import SpacePartition.Proofs.Region.Chain
import SpacePartition.Proofs.Region.Fitted

/-!
Constructions that keep partitions fitted. A cut that is inserted is what its cell has of its
hyperplane, so that cuts and facets in any order make fitted partitions, and so do chains of
hyperplanes, even if some of them miss their cells.
-/

namespace SpacePartition

variable {R : Type} {S : Space R} {ι α : Type} {P : Type} {L : Layout S P} {C D : Set P}

namespace Selector

variable [Scalar R] {fs : List S.Sub}

-- No facet is lost or doubled when facets that have a size are put into order.
theorem largestFirst_perm (h : ∀ f ∈ fs, ∃ s, S.size f = .ok s) :
    ∃ gs, largestFirst fs = .ok gs ∧ gs.Perm fs := by
  have ⟨sized, hs, hf⟩ : ∃ sized, (fs.mapM fun f => do return (f, ← S.size f)) =
      Except.ok (ε := Violation R) sized ∧ sized.map (·.1) = fs := by
    induction fs
    case nil => exact ⟨[], rfl, rfl⟩
    case cons f fs hi =>
      have ⟨⟨s, hs⟩, hfs⟩ := List.forall_mem_cons.mp h
      have ⟨sized, hss, hf⟩ := hi hfs
      refine ⟨(f, s) :: sized, ?_, congrArg (f :: ·) hf⟩
      rw [List.mapM_cons, hss, hs]
      rfl
  rw [largestFirst]
  split
  case isTrue => exact ⟨fs, rfl, .refl _⟩
  case isFalse =>
    rw [hs]
    exact ⟨_, rfl, hf ▸ (List.mergeSort_perm ..).map _⟩

end Selector

-- Only a fork refuses to be cut.
theorem Tree.insertCut_leaf {t : Tree S α} {path : Path} {i : Nat} {a : Option α}
    (h : t.root.at? path = some (.leaf i a)) (plane : S.Hyperplane) :
    ∃ o, t.insertCut path plane = .ok o := by
  have ⟨cell, hl⟩ := Node.exists_locate h
  exact ⟨_, by rw [insertCut, hl]⟩

theorem Region.holds_halfSpace (hS : S.Grounded) {h : S.Hyperplane} {tolerance : R}
    {look : Outlook S} :
    (halfSpace h tolerance).tree.root.holds look = true ↔ look h = .minus := by
  rw [halfSpace, Tree.ofParts, Node.holds_fork, hS.hyperplane_whole]
  cases look h <;> simp [Branch.pick, Tree.leaf, Node.relabel, Node.holds_leaf]

namespace Layout

section Insert

variable {n n' : Node S ι α} {cell cell' : Cell S} {path : Path}

-- The way to a node leads through cells to which the partition is fitted.
theorem Fitted.locateIn (hn : L.Fitted (L.interior cell) n) (hc : L.Proper cell)
    (h : n.locateIn cell path = some (cell', n')) :
    L.Proper cell' ∧ L.Fitted (L.interior cell') n' := by
  fun_induction Node.locateIn cell path n
  case case1    => cases h; exact ⟨hc, hn⟩
  case case2    => cases h
  case case3 hi => exact hi hn.2.1 (hc.cons hn.1) h
  case case4 hi => exact hi hn.2.2 (hc.cons hn.1) h

theorem Lawful.spans_fit (hL : L.Lawful) (hc : L.Proper cell) {s part : S.Sub} (hs : L.Spans C s)
    (h : cell.fit s = some part) : L.Spans (C ∩ L.interior cell) part := by
  induction cell generalizing C s
  case nil =>
    cases h
    rwa [interior, Set.inter_univ]
  case cons wall walls hi =>
    obtain ⟨D, hD⟩ := hc wall List.mem_cons_self
    obtain ⟨s', hs', h⟩ := Option.bind_eq_some_iff.mp h
    have hp := hi hc.tail (hL.spans_part hs hD hs') h
    rwa [Set.inter_assoc, Set.inter_comm (L.half _ _)] at hp

theorem Fitted.mono (hL : ∀ {C D s}, C ⊆ D → L.Spans C s → L.Spans D s) (h : C ⊆ D)
    (hn : L.Fitted C n) : L.Fitted D n :=
  hn.imp (· ⊆ ·) (fun hCD => Set.inter_subset_inter_left _ hCD) (fun _ hCD hs => hL hCD hs) h

theorem fitted_setAttr {a : Option α} :
    L.Fitted C (n.modify (.setAttr a) path) ↔ L.Fitted C n := by
  fun_induction Node.modify (Node.setAttr a) path n generalizing C
  case case1 n    => cases n <;> exact Iff.rfl
  case case2      => exact Iff.rfl
  case case3 hi   => exact and_congr_right fun _ => and_congr_left fun _ => hi
  case case4 hi   => exact and_congr_right fun _ => and_congr_right fun _ => hi

end Insert

section Tree

variable {t t' : Tree S α} {h : S.Hyperplane} {hs : List S.Hyperplane} {path : Path}

theorem Fitted.insertCut (ht : L.Fitted .univ t.root) (hL : L.Lawful)
    (hw : L.Spans .univ (S.whole h)) (hi : t.insertCut path h = .ok (some t')) :
    L.Fitted .univ t'.root := by
  rw [Tree.insertCut] at hi
  split at hi
  case h_1 => cases hi
  case h_2 => cases hi
  case h_3 cell i a hl =>
    obtain ⟨cut, hf, he⟩ := Option.map_eq_some_iff.mp (Except.ok.inj hi)
    have hn : L.Fitted (L.interior []) t.root := ht
    have hs := hL.spans_fit (hn.locateIn proper_nil hl).1 hw hf
    rw [Set.univ_inter] at hs
    subst he
    exact hn.modify hl ⟨hs, trivial, trivial⟩

theorem Fitted.extract (ht : L.Fitted .univ t.root)
    (hL : ∀ {C D s}, C ⊆ D → L.Spans C s → L.Spans D s) (he : t.extract? path = some t') :
    L.Fitted .univ t'.root := by
  have ⟨n, hn, he⟩ := Option.map_eq_some_iff.mp he
  have ⟨cell, hl⟩ := Node.exists_locate hn
  have hr : L.Fitted (L.interior []) t.root := ht
  subst he
  exact fitted_number.mpr <| (hr.locateIn proper_nil hl).2.mono hL <| Set.subset_univ _

end Tree

section Chain

variable {t : Tree S Bool} {hs : List S.Hyperplane}

theorem Fitted.chain (ht : L.Fitted .univ t.root) (path : Path) (hL : L.Lawful)
    (hw : ∀ h ∈ hs, L.Spans .univ (S.whole h)) :
    L.Fitted .univ (Region.chain path t hs).1.root ∧ (Region.chain path t hs).2 ⊆ hs := by
  fun_induction Region.chain path t hs
  case case1 => exact ⟨ht, List.Subset.refl _⟩
  case case2 h hs t' hi ih =>
    have ht' := ht.insertCut hL (hw h List.mem_cons_self) hi
    obtain ⟨hf, hm⟩ := ih (fitted_setAttr.mpr ht') fun h' hh => hw h' <| List.mem_cons_of_mem _ hh
    exact ⟨hf, fun _ hh => List.mem_cons_of_mem _ <| hm hh⟩
  case case3 t' missed he _ ih =>
    obtain ⟨hf, hm⟩ := ih ht fun h' hh => hw h' <| List.mem_cons_of_mem _ hh
    rw [he] at hf hm
    exact ⟨hf, List.cons_subset_cons _ hm⟩

variable [Scalar R] [Measured S] {tolerance : R}

theorem Fitted.foldlM_intersection (hL : L.Separating) (hT : L.Tight)
    (ht : tolerance == tolerance) (hw : ∀ h ∈ hs, L.Spans .univ (S.whole h)) {r : Region S}
    (hr : r.tolerance = tolerance) (hf : L.Fitted .univ r.tree.root) :
    ∃ r', hs.foldlM (fun r h => r.intersection (.halfSpace h tolerance)) r = .ok r' ∧
      r'.tolerance = tolerance ∧ L.Fitted .univ r'.tree.root ∧
      ∀ {look x}, L.Sees look x →
        (r'.tree.root.holds look = true ↔
          r.tree.root.holds look = true ∧ ∀ h ∈ hs, look h = .minus) := by
  induction hs generalizing r
  case nil => exact ⟨r, rfl, hr, hf, by simp⟩
  case cons h hs hi =>
    have ⟨s, hs', hst, hm⟩ := hf.apply_ok (b := .halfSpace h tolerance) hL hT
      ⟨hw h List.mem_cons_self, trivial, trivial⟩ (hr ▸ ht) .intersection
    have ⟨r', hr', ht', hf', hh⟩ :=
      hi (fun h' hh => hw h' <| List.mem_cons_of_mem _ hh) (hst.trans hr) hm.fitted
    refine ⟨r', ?run, ht', hf', fun hx => ?holds⟩
    case run =>
      rw [List.foldlM_cons]
      exact (congrArg (· >>= _) hs').trans hr'
    case holds =>
      rw [hh hx, hm.holds hx trivial, Operation.holds, Bool.and_eq_true,
        Region.holds_halfSpace hL.grounded, List.forall_mem_cons, and_assoc]

-- Whichever hyperplanes miss the chain, and whichever come first, the region has the points on the
-- minus sides of all.
theorem holds_convex (hL : L.Separating) (hT : L.Tight) (ht : tolerance == tolerance)
    (hw : ∀ h ∈ hs, L.Spans .univ (S.whole h)) (hn : hs ≠ []) :
    ∃ r, Region.convex hs tolerance = .ok r ∧ r.tolerance = tolerance ∧
      L.Fitted .univ r.tree.root ∧ ∀ {look x}, L.Sees look x →
        (r.tree.root.holds look = true ↔ ∀ h ∈ hs, look h = .minus) := by
  have h : L.Fitted .univ (Tree.leaf (some true)).root := trivial
  obtain ⟨hf, hm⟩ := h.chain [] hL.toLawful hw
  have ⟨r, hr, hrt, hrf, hh⟩ :=
    hf.foldlM_intersection hL hT ht (fun h hh => hw h <| hm hh) (r := ⟨_, tolerance⟩) rfl
  refine ⟨r, ?run, hrt, hrf, fun hx => ?holds⟩
  case run => rw [Region.convex, if_neg (by simpa using hn)]; exact hr
  case holds =>
    rw [hh hx, Region.holds_chain hL.grounded Node.carved_leaf]
    exact and_iff_right Cell.contains_nil

theorem fitted_convex (hL : L.Separating) (hT : L.Tight) (ht : tolerance == tolerance)
    (hw : ∀ h ∈ hs, L.Spans .univ (S.whole h)) :
    ∃ r, Region.convex hs tolerance = .ok r ∧ r.tolerance = tolerance ∧
      L.Fitted .univ r.tree.root := by
  by_cases hn : hs = []
  case pos => subst hn; exact ⟨_, rfl, rfl, trivial⟩
  case neg => exact (holds_convex hL hT ht hw hn).imp fun _ h => ⟨h.1, h.2.1, h.2.2.1⟩

end Chain

section Boundary

variable {t : Tree S Bool} {h : S.Hyperplane} {fs : List S.Sub} {path : Path} {tolerance : R}

theorem Lawful.forall_scatter (hL : L.Lawful) {p : S.Hyperplane → Prop}
    (hp : ∀ f ∈ fs, p (S.hyperplane f)) :
    (∀ f ∈ (scatter h fs).1, p (S.hyperplane f)) ∧ ∀ f ∈ (scatter h fs).2, p (S.hyperplane f) := by
  induction fs
  case nil => exact ⟨nofun, nofun⟩
  case cons f fs hi =>
    have ⟨hf, hfs⟩ := List.forall_mem_cons.mp hp
    have part {b part} (h : (S.split f h).on b = some part) : p (S.hyperplane part) :=
      hL.hyperplane_part h ▸ hf
    have ⟨hi, hi'⟩ := hi hfs
    simp only [scatter]
    split <;> rename_i hs <;> simp only [List.forall_mem_cons]
    case h_1 => exact ⟨⟨hf, hi⟩, hi'⟩
    case h_2 => exact ⟨hi, hf, hi'⟩
    case h_3 =>
      exact ⟨⟨part (b := .plus) (by rw [hs]; rfl), hi⟩, part (b := .minus) (by rw [hs]; rfl), hi'⟩
    case h_4 => exact ⟨hi, hi'⟩

theorem Fitted.carve (ht : L.Fitted .univ t.root) (hL : L.Lawful)
    (hw : ∀ f ∈ fs, L.Spans .univ (S.whole (S.hyperplane f))) :
    L.Fitted .univ (t.carve path fs).root := by
  fun_induction Tree.carve t path fs
  case case1 => exact ht
  case case2 f fs t' hi _ _ ihp ihm =>
    have ⟨hf, hfs⟩ := List.forall_mem_cons.mp hw
    have ⟨hp, hm⟩ :=
      hL.forall_scatter (h := S.hyperplane f) (p := fun h => L.Spans .univ (S.whole h)) hfs
    exact ihm (ihp (ht.insertCut hL hf hi) hp) hm
  case case3 ih => exact ih ht (List.forall_mem_cons.mp hw).2

theorem fitted_shade {ι : Type} {n : Node S ι Bool} {inside : Bool} :
    L.Fitted C (n.shade inside) ↔ L.Fitted C n := by
  induction n generalizing C inside <;> simp_all [Node.shade, Fitted]

-- Facets may be taken in any order.
theorem fitted_ofBoundaryWith (hL : L.Lawful) {select : Selector S} {gs : List S.Sub}
    (hs : select fs = .ok gs) (hw : ∀ f ∈ gs, L.Spans .univ (S.whole (S.hyperplane f))) :
    ∃ r, Region.ofBoundaryWith select fs tolerance = .ok r ∧ r.tolerance = tolerance ∧
      L.Fitted .univ r.tree.root := by
  rw [Region.ofBoundaryWith, hs]
  split
  case isTrue  => exact ⟨_, rfl, rfl, trivial⟩
  case isFalse =>
    refine ⟨_, rfl, rfl, fitted_shade.mpr <| Fitted.carve ?_ hL hw⟩
    exact trivial

end Boundary
end Layout
end SpacePartition
