import SpacePartition.Proofs.Line.NormalForm
import SpacePartition.Proofs.Line.SearchTree
import SpacePartition.Proofs.Region.Construction

/-!
Runs that make regions of the line from places and from each other. If the places are equal or
farther apart than the tolerance, all regions that come up are search trees with cuts at these
places.
-/

namespace SpacePartition

-- A way to make a region. A place comes with a direction; a region that was made before is named by
-- its position.
inductive Step (K : Type)
  | whole
  | empty
  | halfSpace (x : K) (direct : Bool)
  | interval (i : Interval (Exact K))
  | ofIntervals (is : List (Interval (Exact K)))
  | convex (hs : List (K × Bool))
  | ofBoundary (fs : List (K × Bool))
  | insertCut (r : Nat) (path : Path) (x : K) (direct : Bool)
  | complement (r : Nat)
  | apply (op : Operation) (a b : Nat)
  | simplify (r : Nat)
  | extract (r : Nat) (path : Path)

namespace Step

variable {K : Type}

-- The places of the cuts that a step asks for.
def places : Step K → Set K
  | halfSpace x _       => {x}
  | interval i          => Interval.ends [i]
  | ofIntervals is      => Interval.ends is
  | convex hs           => {x | ∃ h ∈ hs, h.1 = x}
  | ofBoundary fs       => {x | ∃ f ∈ fs, f.1 = x}
  | insertCut _ _ x _   => {x}
  | _                   => ∅

variable [Field K] [LinearOrder K]

-- Whether the intervals of a step have an interior.
def Proper : Step K → Prop
  | interval i     => i.lower < i.upper
  | ofIntervals is => ∀ i ∈ is, i.lower < i.upper
  | _              => True

def cut (t : K) (h : K × Bool) : OrientedPoint (Exact K) :=
  ⟨.finite h.1, h.2, .finite t⟩

-- The region that a step makes, `none` if there is no region or node of the name or if a cut misses
-- its cell.
def perform (t : K) (made : List (Region (line (Exact K)))) :
    Step K → Except (Violation (Exact K)) (Option (Region (line (Exact K))))
  | whole          => .ok <| some (.whole (.finite t))
  | empty          => .ok <| some (.empty (.finite t))
  | halfSpace x d  => .ok <| some (.halfSpace (S := line (Exact K)) (cut t (x, d)) (.finite t))
  | interval i     => .ok <| some (.interval i.lower i.upper (.finite t))
  | ofIntervals is => some <$> Region.ofIntervals is (.finite t)
  | convex hs      => some <$> Region.convex (S := line (Exact K)) (hs.map (cut t)) (.finite t)
  | ofBoundary fs  => some <$> Region.ofBoundary (S := line (Exact K)) (fs.map (cut t)) (.finite t)
  | insertCut i path x d =>
    match made[i]? with
    | none   => .ok none
    | some r =>
      match r.tree.root.at? path with
      | some (.leaf ..) =>
        (·.map fun t => { r with tree := t }) <$> r.tree.insertCut path (cut t (x, d))
      | _ => .ok none
  | complement i   => .ok <| made[i]?.map (·.complement)
  | apply op i j   =>
    match made[i]?, made[j]? with
    | some a, some b => some <$> op.apply a b
    | _, _           => .ok none
  | simplify i     => .ok <| made[i]?.map fun r => { r with tree := r.tree.simplify }
  | extract i path => .ok <| made[i]?.bind fun r =>
    (r.tree.extract? path).map fun t => { r with tree := t }

-- The regions that are there after steps, in the order in which they were made.
def run (t : K) : List (Step K) → List (Region (line (Exact K))) →
    Except (Violation (Exact K)) (List (Region (line (Exact K))))
  | [], made      => .ok made
  | s :: ss, made => do run t ss (made ++ (← s.perform t made).toList)

end Step

variable {K : Type} [Field K] [LinearOrder K] {L L' : Set K} {t : K}
variable {r : Region (line (Exact K))} {made : List (Region (line (Exact K)))} {s : Step K}

namespace Line

theorem cells_spans_mono {C D : Set K} {s : OrientedPoint (Exact K)} (h : C ⊆ D)
    (hs : (cells 0 L t).Spans C s) : (cells 0 L t).Spans D s :=
  ⟨hs.1, hs.2.imp fun _ hc => ⟨⟨h hc.1.1, hc.1.2⟩, hc.2⟩⟩

theorem cells_mono {ι α : Type} {C : Set K} {n : Node (line (Exact K)) ι α} (h : L ⊆ L')
    (hn : (cells 0 L t).Fitted C n) : (cells 0 L' t).Fitted C n := by
  refine hn.imp (· = ·) ?half ?spans rfl
  case half  => exact fun hCD => congrArg (· ∩ _) hCD
  case spans =>
    rintro C _ s - rfl ⟨htol, c, hc, hl⟩
    exact ⟨htol, c, ⟨hc.1, h hc.2⟩, hl⟩

end Line

namespace Region

open Line

-- Whether a region has the tolerance of a run and its cuts lie in their cells at places of the run.
structure Placed (L : Set K) (t : K) (r : Region (line (Exact K))) : Prop where
  tolerance : r.tolerance = .finite t
  fitted    : (cells 0 L t).Fitted .univ r.tree.root

theorem Occupies.placed {U : Set K} (h : r.Occupies L t U) (hL : L ⊆ L') : r.Placed L' t :=
  ⟨h.tolerance, cells_mono hL h.fitted⟩

theorem placed_of {o : Except (Violation (Exact K)) (Region (line (Exact K)))} {t' : Exact K}
    (h : ∃ r, o = .ok r ∧ r.tolerance = t' ∧ (cells 0 L t).Fitted .univ r.tree.root)
    (ht : t' = .finite t) : ∃ r, o = .ok r ∧ r.Placed L t :=
  h.imp fun _ h => ⟨h.1, h.2.1.trans ht, h.2.2⟩

end Region

namespace Step

open Line

theorem spans_cut {h : K × Bool} (hx : h.1 ∈ L) : (cells 0 L t).Spans .univ (cut t h) :=
  ⟨rfl, h.1, ⟨trivial, hx⟩, rfl⟩

theorem spans_cuts {hs : List (K × Bool)} (hx : ∀ h ∈ hs, h.1 ∈ L) :
    ∀ h ∈ hs.map (cut t), (cells 0 L t).Spans .univ h := by
  intro s hs'
  obtain ⟨h, hm, rfl⟩ := List.mem_map.mp hs'
  exact spans_cut (hx h hm)

variable [IsStrictOrderedRing K]

-- Whatever a step makes of regions that are placed is placed.
theorem perform_placed (ht : 0 ≤ t) (hL : Spaced L t) (hm : ∀ r ∈ made, r.Placed L t)
    (hs : s.places ⊆ L) (hp : s.Proper) :
    ∃ o, s.perform t made = .ok o ∧ ∀ r ∈ o, r.Placed L t := by
  have hl : (cells 0 L t).Lawful := cells_lawful le_rfl ht
  have just {o : Except (Violation (Exact K)) (Region (line (Exact K)))}
      (h : ∃ r, o = .ok r ∧ r.Placed L t) : ∃ o', some <$> o = .ok o' ∧ ∀ r ∈ o', r.Placed L t := by
    obtain ⟨r, rfl, hr⟩ := h
    exact ⟨some r, rfl, by simpa using hr⟩
  have named {i : Nat} {r} (h : made[i]? = some r) : r.Placed L t :=
    hm r <| List.mem_of_getElem? h
  have tol : Exact.finite t == Exact.finite t := Exact.finite_beq_self
  cases s <;> rw [perform]
  case whole | empty => exact ⟨_, rfl, by simpa using ⟨rfl, trivial⟩⟩
  case halfSpace x d =>
    refine ⟨_, rfl, ?_⟩
    simpa using ⟨rfl, spans_cut (hs rfl), trivial, trivial⟩
  case interval i =>
    refine ⟨_, rfl, ?_⟩
    simpa using (Region.occupies_interval hp hs).placed subset_rfl
  case ofIntervals is =>
    have hi : Spaced (Interval.ends is) t := fun x hx y hy => hL x (hs hx) y (hs hy)
    exact just <| (Region.occupies_ofIntervals ht hp hi).imp fun _ h => ⟨h.1, h.2.placed hs⟩
  case convex hs' =>
    refine just <| Region.placed_of
      (Layout.fitted_convex (hL.separating ht) (hL.tight ht) tol ?_) rfl
    exact spans_cuts fun h hh => hs ⟨h, hh, rfl⟩
  case ofBoundary fs =>
    have ⟨gs, hg, hp⟩ :
        ∃ gs, Selector.largestFirst (S := line (Exact K)) (fs.map (cut t)) = .ok gs ∧
          gs.Perm (fs.map (cut t)) :=
      Selector.largestFirst_perm fun _ _ => ⟨_, rfl⟩
    refine just <| Region.placed_of (Layout.fitted_ofBoundaryWith hl hg fun f hf => ?_) rfl
    exact spans_cuts (fun h hh => hs ⟨h, hh, rfl⟩) f (hp.mem_iff.mp hf)
  case insertCut i path x d =>
    split
    case h_1 => exact ⟨none, rfl, nofun⟩
    case h_2 r hr =>
      split
      case h_2 => exact ⟨none, rfl, nofun⟩
      case h_1 j a hj =>
        have ⟨o, ho⟩ := Tree.insertCut_leaf hj (cut t (x, d))
        refine ⟨_, congrArg (_ <$> ·) ho, fun r' hr' => ?_⟩
        obtain ⟨u, rfl, rfl⟩ := Option.map_eq_some_iff.mp hr'
        have hx : (x, d).1 ∈ L := hs <| Set.mem_singleton x
        exact ⟨(named hr).tolerance, (named hr).fitted.insertCut hl (spans_cut hx) ho⟩
  case complement i =>
    refine ⟨_, rfl, fun r' hr' => ?_⟩
    obtain ⟨r, hr, rfl⟩ := Option.map_eq_some_iff.mp hr'
    exact ⟨(named hr).tolerance, Layout.fitted_complement.mpr (named hr).fitted⟩
  case apply op i j =>
    split
    case h_2 => exact ⟨none, rfl, nofun⟩
    case h_1 a b ha hb =>
      have ⟨fa, fb⟩ := And.intro (named ha) (named hb)
      have htol : a.tolerance == b.tolerance := by rwa [fa.tolerance, fb.tolerance]
      have ⟨r, hr, hrt, hmr⟩ :=
        fa.fitted.apply_ok (hL.separating ht) (hL.tight ht) fb.fitted htol op
      exact just ⟨r, hr, hrt.trans fa.tolerance, hmr.fitted⟩
  case simplify i =>
    refine ⟨_, rfl, fun r' hr' => ?_⟩
    obtain ⟨r, hr, rfl⟩ := Option.map_eq_some_iff.mp hr'
    exact ⟨(named hr).tolerance, Layout.fitted_number.mpr (named hr).fitted.simplify⟩
  case extract i path =>
    refine ⟨_, rfl, fun r' hr' => ?_⟩
    obtain ⟨r, hr, hx⟩ := Option.bind_eq_some_iff.mp hr'
    obtain ⟨u, hu, rfl⟩ := Option.map_eq_some_iff.mp hx
    exact ⟨(named hr).tolerance, (named hr).fitted.extract cells_spans_mono hu⟩

theorem run_placed (ht : 0 ≤ t) (hL : Spaced L t) {steps : List (Step K)}
    (hs : ∀ s ∈ steps, s.places ⊆ L ∧ s.Proper) (hm : ∀ r ∈ made, r.Placed L t) :
    ∃ made', run t steps made = .ok made' ∧ ∀ r ∈ made', r.Placed L t := by
  induction steps generalizing made
  case nil => exact ⟨made, rfl, hm⟩
  case cons s ss hi =>
    have ⟨⟨hsl, hsp⟩, hss⟩ := List.forall_mem_cons.mp hs
    have ⟨o, ho, hr⟩ := perform_placed ht hL hm hsl hsp
    have hmo : ∀ r ∈ made ++ o.toList, r.Placed L t :=
      List.forall_mem_append.mpr ⟨hm, fun r hro => hr r <| Option.mem_toList.mp hro⟩
    have ⟨made', hm', h⟩ := hi hss hmo
    refine ⟨made', ?_, h⟩
    rw [run, ho]
    exact hm'

end Step

namespace Region

open Line

variable [IsStrictOrderedRing K] {steps : List (Step K)}

-- In a run all trees are search trees. The cuts of each are in strictly increasing order and at
-- places of the run, and to each leaf leads the way of some point.
theorem searchTrees_run (ht : 0 ≤ t) (hp : ∀ s ∈ steps, s.Proper)
    (hL : Spaced {x | ∃ s ∈ steps, x ∈ s.places} t) :
    ∃ made, Step.run t steps [] = .ok made ∧ ∀ r ∈ made,
      r.tree.root.inorder.Pairwise (· < ·) ∧
      (∀ x ∈ r.tree.root.inorder, ∃ s ∈ steps, ∃ c ∈ s.places, x = .finite c) ∧
      ∀ path i a, r.tree.root.at? path = some (.leaf i a) → ∀ d, 0 ≤ d → d + d ≤ t →
        ∃ x, r.tree.root.descend (Exact.finite x) (Exact.finite d) = path := by
  have hs (s) (h : s ∈ steps) : s.places ⊆ {x | ∃ s ∈ steps, x ∈ s.places} := fun _ hx => ⟨s, h, hx⟩
  have ⟨made, hr, hm⟩ := Step.run_placed ht hL (fun s h => ⟨hs s h, hp s h⟩) (List.forall_mem_nil _)
  refine ⟨made, hr, fun r h => ?_⟩
  have hf := (hm r h).fitted
  have ⟨ho, hx⟩ := inorder_sorted hf
  refine ⟨ho, fun x hm => ?places, fun path i a hl d hd hdt => ?leaves⟩
  case places =>
    obtain ⟨c, ⟨-, s, hs, hc⟩, rfl⟩ := hx x hm
    exact ⟨s, hs, c, hc, rfl⟩
  case leaves =>
    have hw := Interval.interior_whole (K := K) ▸ hf
    exact (exists_descend hL hd hdt hw (by simp) (by simp [Interval.ends]) hl).imp fun _ h => h.2

-- A cut that is supplied twice occurs once in a region.
theorem searchTrees_run_of_steps :
    let steps : List (Step ℚ) := [.interval ⟨.finite 0, .finite 10⟩,
      .insertCut 0 [.minus, .minus] 5 true, .halfSpace 5 false, .apply .intersection 1 2,
      .convex [(20, true), (0, false)], .ofBoundary [(10, true)],
      .apply .xor 4 3, .extract 6 [.minus]]
    ((0 : ℚ) ≤ 1 ∧ (∀ s ∈ steps, s.Proper) ∧ Spaced {x | ∃ s ∈ steps, x ∈ s.places} 1) ∧
    ∃ made, Step.run 1 steps [] = .ok made ∧ made.map (·.tree.root.inorder) = [
      [.finite 0, .finite 10], [.finite 0, .finite 5, .finite 10], [.finite 5],
      [.finite 0, .finite 5, .finite 10], [.finite 0, .finite 20], [.finite 10],
      [.finite 0, .finite 5, .finite 10, .finite 20], [.finite 0, .finite 5, .finite 10]] ∧
    ∀ r ∈ made, ∀ path i a, r.tree.root.at? path = some (.leaf i a) →
      ∃ x, r.tree.root.descend (Exact.finite x) (Exact.finite (1 / 2)) = path := by
  intro steps
  have hp : ∀ s ∈ steps, s.Proper := by simp [steps, Step.Proper]
  have hL : Spaced {x | ∃ s ∈ steps, x ∈ s.places} 1 := by
    have hs : {x | ∃ s ∈ steps, x ∈ s.places} ⊆ {0, 5, 10, 20} := by
      intro x
      simp only [steps, Step.places, Interval.ends, Set.mem_ofPred_eq, List.mem_cons,
        List.not_mem_nil, or_false, exists_eq_or_imp, exists_eq_left, Exact.finite.injEq,
        Set.mem_insert_iff, Set.mem_singleton_iff, Set.mem_empty_iff_false]
      grind
    intro x hx y hy
    have hx := hs hx
    have hy := hs hy
    simp only [Set.mem_insert_iff, Set.mem_singleton_iff] at hx hy
    obtain rfl | rfl | rfl | rfl := hx <;> obtain rfl | rfl | rfl | rfl := hy <;> norm_num
  obtain ⟨made, hr, hm⟩ := searchTrees_run zero_le_one hp hL
  refine ⟨⟨zero_le_one, hp, hL⟩, made, hr, ?made, fun r h path i a hl => ?reached⟩
  case made =>
    have hm : (Except.ok (ε := Violation (Exact ℚ)) made).toOption.map
        (·.map (·.tree.root.inorder)) = some _ := rfl
    rw [← hr] at hm
    refine Option.some.inj <| hm.symm.trans ?_
    decide +kernel
  case reached => exact (hm r h).2.2 path i a hl (1 / 2) (by norm_num) (by norm_num)

end Region
end SpacePartition
