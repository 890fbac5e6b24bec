import SpacePartition.Proofs.Line.Algebra

/-!
Boolean operations on regions of the line with cuts close to each other. Splitting stays right for
the points that keep the tolerance from all cuts, but a cut may come so close to the walls of its
cell that it vanishes when it is put there. Such a cut takes what hangs below it along, however far
from any cut it is.
-/

namespace SpacePartition

variable {K : Type} [Field K] [LinearOrder K] {ι : Type}

theorem Location.ofInside_inj {x y : Bool} : ofInside x = ofInside y ↔ x = y := by
  cases x <;> cases y <;> simp [ofInside]

namespace Line

variable {t : K} {L C D : Set K} {n : Node (line (Exact K)) ι Bool}

theorem clear_cuts (hn : (clear L t).Fitted C n) {s : OrientedPoint (Exact K)} (hs : s ∈ n.cuts) :
    ∃ c ∈ L, s.location = .finite c := by
  have ⟨D, _, _, hc⟩ := hn.exists_spans hs
  exact hc

theorem sees_clear [IsStrictOrderedRing K] {p : K} (ht : 0 < t) (hp : ∀ c ∈ L, t ≤ |p - c|) :
    (clear L t).Sees (outlook p) p := by
  intro C s hs
  obtain ⟨c, dir, rfl, hl⟩ := clear_spans.mp hs
  exact ⟨beyond_outlook <| ne_of_clear ht (hp c hl), hp⟩

variable {choose : Choice (line (Exact K)) ι Bool} {cell walls : Cell (line (Exact K))}

theorem clear_trim (hn : (clear L t).Fitted C n) (h : OrientedPoint (Exact K)) (keep : Branch)
    (cell) : (clear L t).Fitted C (n.trim choose h keep cell) := by
  induction n generalizing C cell
  case leaf => trivial
  case fork cut p m hp hm =>
    have ⟨hc, fp, fm⟩ := hn
    rw [Node.trim_fork]
    split
    case h_1 part hs =>
      cases OrientedPoint.part_eq hs
      exact ⟨hc, hp fp _, hm fm _⟩
    case h_2 => trivial

theorem clear_trimAll (hn : (clear L t).Fitted C n) :
    (clear L t).Fitted C (n.trimAll choose cell walls) := by
  induction walls generalizing n
  case nil => exact hn
  case cons wall _ hi =>
    rw [Node.trimAll_cons]
    exact hi <| clear_trim hn wall.cut wall.side cell

theorem clear_placeIn (hn : (clear L t).Fitted C n) :
    (clear L t).Fitted C (n.placeIn choose cell) :=
  (clear_trimAll hn).condense

theorem fit_eq {s part : OrientedPoint (Exact K)} (h : cell.fit s = some part) : part = s := by
  induction cell generalizing s
  case nil => cases h; rfl
  case cons wall walls hi =>
    have ⟨s', hs, hp⟩ := Option.bind_eq_some_iff.mp h
    exact (hi hp).trans <| OrientedPoint.part_eq hs

-- The whole of a hyperplane of the line is its cut.
theorem refit_eq : n.refit cell = n := by
  cases n
  case leaf => rfl
  case fork cut _ _ =>
    rw [Node.refit]
    cases hf : cell.fit cut
    case none => rfl
    case some => rw [fit_eq hf, Option.getD_some]

variable [IsStrictOrderedRing K]

theorem clear_mergeBy [Inhabited ι] (ht : 0 < t) (op : Operation)
    (f : Encounter (line (Exact K)) ι Bool → Choice (line (Exact K)) ι Bool)
    {n other : Node (line (Exact K)) ι Bool} (hc : (clear L t).Proper cell)
    (hn : (clear L t).Fitted ((clear L t).interior cell) n)
    (ho : (clear L t).Fitted ((clear L t).interior cell) other) :
    (clear L t).Fitted ((clear L t).interior cell) (n.mergeBy (op.place f) cell other) := by
  have hS : (clear L t).Separating := clear_separating ht.le
  refine hn.mergeBy hS hc ho (fun e he => ?_) fun _ h => by rwa [refit_eq]
  have ⟨_, fo⟩ := hn.encounters hS hc ho he
  exact clear_placeIn <| op.fitted_keep fo

-- A cut that is close to one cut at most splits a partition in two halves that keep the tolerance
-- from it.
theorem cells_split [Inhabited ι] {α : Type} [DecidableEq α] {n : Node (line (Exact K)) ι α} {x : K}
    (ht : 0 ≤ t) (hL : ∀ y ∈ L, ∀ z ∈ L, |x - y| ≤ t → |x - z| ≤ t → y = z)
    (hn : (cells t L t).Fitted C n) (dir : Bool) (b : Branch) :
    let sub : OrientedPoint (Exact K) := ⟨.finite x, dir, .finite t⟩
    (cells t L t).Fitted (C ∩ (cells t L t).half sub b) ((n.split sub).on b) := by
  intro sub
  induction n generalizing C b
  case leaf => cases b <;> trivial
  case fork i a cut p m hp hm =>
    have ⟨hc, hf⟩ := Layout.fitted_fork.mp hn
    have beside (b' : Branch) (h : (sub.split cut).side = b'.side) :
        (cells t L t).Fitted (C ∩ (cells t L t).half sub b)
          (((Node.fork i a cut p m).split sub).on b) := by
      have ⟨b'', hb⟩ := cells_beside ht le_rfl rfl rfl hc h
      rw [Node.split_beside h hb.side]
      refine hb.graft (fun b => ?_) (Branch.pick_flip (b := b') ▸ hf b'.flip) b
      cases b'
      case plus  => exact hp (hf .plus) b
      case minus => exact hm (hf .minus) b
    obtain ⟨c, dir', rfl, hc, hl⟩ := cells_spans.mp hc
    cases h : (sub.split ⟨.finite c, dir', .finite t⟩).side
    case plus  => exact beside .plus h
    case minus => exact beside .minus h
    case both  => exact absurd h <| OrientedPoint.split_side_ne_both rfl ht
    case within =>
      rw [Node.split_within h]
      refine (hf _).imp (fun C D => C ∩ L ⊆ D)
        (fun h x hx => ⟨h ⟨hx.1.1, hx.2⟩, hx.1.2⟩) ?spans ?sides
      case spans =>
        intro C D s _ hCD ⟨htol, z, hz, hs⟩
        exact ⟨htol, z, ⟨hCD hz, hz.2⟩, hs⟩
      case sides =>
        have hd := OrientedPoint.split_side_within rfl ht |>.mp h
        intro z ⟨⟨hz, hb⟩, hzL⟩
        have hx : ¬|x - z| ≤ t := fun hx =>
          OrientedPoint.not_beyond_self (hL c hl z hzL hd hx ▸ hb.mono ht)
        exact ⟨hz, OrientedPoint.beyond_turn.mpr <| hb.shift hd hx⟩

omit [IsStrictOrderedRing K] in
theorem cells_univ {α : Type} {n : Node (line (Exact K)) ι α} (hn : (cells t L t).Fitted C n) :
    (cells t .univ t).Fitted C n := by
  refine hn.imp (· ⊆ ·) ?half ?spans subset_rfl
  case half  => exact fun h x hx => ⟨h hx.1, hx.2⟩
  case spans => exact fun _ h ⟨htol, c, hc, hs⟩ => ⟨htol, c, ⟨h hc.1, trivial⟩, hs⟩

-- The nodes that a merger meets keep the tolerance from the walls of their cells.
theorem cells_encounters [Inhabited ι] {α : Type} [DecidableEq α]
    {n other : Node (line (Exact K)) ι α} {A B : Set K} (ht : 0 ≤ t)
    (hAB : ∀ x ∈ A, ∀ y ∈ B, ∀ z ∈ B, |x - y| ≤ t → |x - z| ≤ t → y = z)
    (hc : (cells t .univ t).Proper cell)
    (hn : (cells t A t).Fitted ((cells t .univ t).interior cell) n)
    (ho : (cells t B t).Fitted ((cells t .univ t).interior cell) other)
    {e : Encounter (line (Exact K)) ι α} (he : e ∈ n.encounters cell other) :
    (cells t .univ t).Proper e.cell ∧
      (cells t .univ t).Fitted ((cells t .univ t).interior e.cell) e.other := by
  fun_induction Node.encounters cell n other
  case case1 => cases List.mem_singleton.mp he; exact ⟨hc, cells_univ ho⟩
  case case2 => cases List.mem_singleton.mp he; exact ⟨hc, cells_univ hn⟩
  case case3 hp hm =>
    obtain ⟨hs, fp, fm⟩ := hn
    obtain ⟨x, dir, rfl, hx, hxA⟩ := cells_spans.mp hs
    have hs' : (cells t .univ t).Spans _ _ := cells_spans.mpr ⟨x, dir, rfl, hx, trivial⟩
    have hd := cells_split ht (hAB x hxA) ho dir
    cases List.mem_append.mp he
    case inl he => exact hp (hc.cons hs') fp (hd .plus) he
    case inr he => exact hm (hc.cons hs') fm (hd .minus) he

end Line

namespace Region

variable {a b : Region (line (Exact K))} {t : K}

-- Every region of the line has a barycenter, so that no handler fails.
theorem handler_eq (op : Operation) (a b : Region (line (Exact K))) (e) :
    ∃ choose : Choice (line (Exact K)) Nat Bool,
      op.handler a b e = fun cell n => pure (choose cell n) := by
  cases op
  case union        => exact ⟨_, rfl⟩
  case intersection => exact ⟨_, rfl⟩
  case xor          => exact ⟨_, rfl⟩
  case difference   =>
    exact ⟨fun cell _ => some <|
      let p :=
        (lineProperties ⟨.isolate (some true) (some false) none cell, a.tolerance⟩).barycenter
      a.check p = .inside && b.check p = .outside, rfl⟩

theorem exists_place (op : Operation) (ha : a.FittedAt t) (hb : b.FittedAt t) :
    ∃ f, (∀ e, op.merger (op.handler a b) e = .ok (op.place f e)) ∧ op.apply a b =
      .ok (ofMerged (a.tree.root.mergeBy (op.place f) [] (a.follower b)) (.finite t)) := by
  choose f hf using fun e => handler_eq op a b e
  have hh : op.handler a b = fun e cell n => pure (f e cell n) := funext hf
  have hm (e) : op.merger (op.handler a b) e = .ok (op.place f e) := by
    rw [hh]
    exact op.merger_pure f e
  refine ⟨f, hm, ?_⟩
  rw [op.apply_eq, combine_pure (ha.tolerance_beq hb) fun e _ => hm e, ha.tolerance]

theorem fitted_clear (ha : a.FittedAt t) (hb : b.FittedAt t) :
    let L := Line.clear (a.locations ∪ b.locations) t
    L.Fitted (L.interior []) a.tree.root ∧ L.Fitted (L.interior []) (a.follower b) :=
  ⟨ha.clear Set.subset_union_left, Layout.Fitted.follower <| hb.clear Set.subset_union_right⟩

variable [IsStrictOrderedRing K]

theorem check_ofMerged {L : Set K} {n : Node (line (Exact K)) Nat Bool} {p : K} (ht : 0 < t)
    (hn : (Line.clear L t).Fitted .univ n) (hp : ∀ c ∈ L, t ≤ |p - c|) :
    (ofMerged n (.finite t)).check (Exact.finite p) = .ofInside (n.holds (Line.outlook p)) := by
  have fr : (Line.clear L t).Fitted .univ (ofMerged n (.finite t)).tree.root :=
    (Layout.fitted_number.mpr hn).normalize
  rw [check_finite _ rfl, Node.check_of_cuts ht (fun s hs => Line.clear_cuts fr hs) hp, ofMerged,
    Node.holds_normalize, Node.holds_number]

-- Splitting respects the points that are clear of all cuts: at the leaf and the node that meet in
-- the cell of such a point, the merger is to keep what the operation says of it.
theorem holds_mergeBy (op : Operation) (ht : 0 < t) (ha : a.FittedAt t) (hb : b.FittedAt t)
    {place : Encounter (line (Exact K)) Nat Bool → Node (line (Exact K)) Nat Bool} {p : K}
    (hp : ∀ c ∈ a.locations ∪ b.locations, t ≤ |p - c|) {e : Encounter (line (Exact K)) Nat Bool}
    (he : e ∈ a.tree.root.encounters [] (a.follower b)) (h : e.cell.Contains (Line.outlook p)) :
    (a.tree.root.mergeBy place [] (a.follower b)).holds (Line.outlook p) =
        (place e).holds (Line.outlook p) ∧
      (op.keep e).holds (Line.outlook p) =
        op.holds (a.covers (Exact.finite p)) (b.covers (Exact.finite p)) := by
  have ⟨fa, fb⟩ := fitted_clear ha hb
  obtain ⟨h₁, h₂, h₃⟩ := fa.holds_encounter (Line.clear_separating ht.le) Layout.proper_nil fb he
    (Line.sees_clear ht hp) h
  rw [Region.follower, Node.holds_relabel] at h₂
  exact ⟨h₃, by rw [op.holds_keep, h₁, h₂, covers_finite, covers_finite]⟩

-- The result is as right about a point that is clear of all cuts as what the merger puts where its
-- leaf and its node meet.
theorem check_apply_iff (op : Operation) (ht : 0 < t) (ha : a.FittedAt t) (hb : b.FittedAt t) :
    ∃ r, op.apply a b = .ok r ∧
      ∀ p, (∀ c ∈ a.locations ∪ b.locations, t ≤ |p - c|) →
        (r.check (Exact.finite p) =
            .ofInside (op.holds (a.covers (Exact.finite p)) (b.covers (Exact.finite p))) ↔
          ∀ e ∈ a.tree.root.encounters [] (a.follower b), e.cell.Contains (Line.outlook p) →
            ∀ n, op.merger (op.handler a b) e = .ok n →
              n.holds (Line.outlook p) = (op.keep e).holds (Line.outlook p)) := by
  obtain ⟨f, hm, hr⟩ := exists_place op ha hb
  refine ⟨_, hr, fun p hp => ?_⟩
  have ⟨fa, fb⟩ := fitted_clear ha hb
  have fm := Line.clear_mergeBy ht op f Layout.proper_nil fa fb
  rw [check_ofMerged ht fm hp, Location.ofInside_inj]
  constructor
  case mp =>
    intro h e he hc n hn
    obtain ⟨h₁, h₂⟩ := holds_mergeBy op ht ha hb hp he hc
    cases (hm e).symm.trans hn
    rw [← h₁, h₂, h]
  case mpr =>
    intro h
    obtain ⟨e, he, hc⟩ := exists_encounter a b (Line.outlook p)
    obtain ⟨h₁, h₂⟩ := holds_mergeBy op ht ha hb hp he hc
    rw [h₁, h e he hc _ (hm e), h₂]

-- Nothing vanishes if no cut of `a` is close to two cuts of `b`.
theorem merger_eq (op : Operation) (ht : 0 ≤ t) (ha : a.FittedAt t) (hb : b.FittedAt t)
    (h : ∀ x ∈ a.locations, ∀ y ∈ b.locations, ∀ z ∈ b.locations,
      |x - y| ≤ t → |x - z| ≤ t → y = z) :
    ∀ e ∈ a.tree.root.encounters [] (a.follower b),
      op.merger (op.handler a b) e = .ok (op.keep e).condense := by
  intro e he
  have fa : (Line.cells t a.locations t).Fitted ((Line.cells t .univ t).interior []) a.tree.root :=
    ha.cells le_rfl subset_rfl
  have fb :
      (Line.cells t b.locations t).Fitted ((Line.cells t .univ t).interior []) (a.follower b) :=
    Layout.Fitted.follower <| hb.cells le_rfl subset_rfl
  have ⟨hc, ho⟩ := Line.cells_encounters ht h Layout.proper_nil fa fb he
  have hT : (Line.cells t .univ t).Rigid :=
    Line.cells_rigid ht le_rfl fun _ _ _ _ _ _ h => h
  have fk := op.fitted_keep ho
  have hk := fk.shortenAll_eq hT hc fun _ => Layout.interior_subset
  exact hk ▸ fk.insertIn hT.toTight hc (op.handler a b e)

-- Of the points that are clear of all cuts, those are located rightly for which the merger says
-- what the operation says, and all are if no cut of `a` is close to two cuts of `b`.
theorem check_apply_clear (op : Operation) (ht : 0 < t) (ha : a.FittedAt t) (hb : b.FittedAt t) :
    ∃ r, op.apply a b = .ok r ∧
      (∀ p, (∀ c ∈ a.locations ∪ b.locations, t ≤ |p - c|) →
        (r.check (Exact.finite p) =
            .ofInside (op.holds (a.covers (Exact.finite p)) (b.covers (Exact.finite p))) ↔
          ∀ e ∈ a.tree.root.encounters [] (a.follower b), e.cell.Contains (Line.outlook p) →
            ∀ n, op.merger (op.handler a b) e = .ok n →
              n.holds (Line.outlook p) = (op.keep e).holds (Line.outlook p))) ∧
      ((∀ x ∈ a.locations, ∀ y ∈ b.locations, ∀ z ∈ b.locations,
          |x - y| ≤ t → |x - z| ≤ t → y = z) →
        ∀ p, (∀ c ∈ a.locations ∪ b.locations, t ≤ |p - c|) →
          r.check (Exact.finite p) =
            .ofInside (op.holds (a.covers (Exact.finite p)) (b.covers (Exact.finite p)))) := by
  have ⟨r, hr, hi⟩ := check_apply_iff op ht ha hb
  refine ⟨r, hr, hi, fun h p hp => (hi p hp).mpr fun e he _ n hn => ?_⟩
  cases (merger_eq op ht.le ha hb h e he).symm.trans hn
  exact Node.holds_condense

-- Lower bounds that the tolerance cannot tell apart do not matter.
theorem check_apply_clear_of_close_bounds :
    let a : Region (line (Exact ℚ)) := interval (.finite 0) (.finite 10) (.finite 1)
    let b : Region (line (Exact ℚ)) := interval (.finite (1 / 2)) (.finite 20) (.finite 1)
    ((0 : ℚ) < 1 ∧ a.FittedAt 1 ∧ b.FittedAt 1) ∧
    ∃ r, Operation.intersection.apply a b = .ok r ∧ r.check (Exact.finite 5) = .inside ∧
      r.check (Exact.finite 15) = .outside := by
  intro a b
  have ha : a.FittedAt 1 := fittedAt_interval (by norm_num)
  have hb : b.FittedAt 1 := fittedAt_interval (by norm_num)
  have ⟨r, hr, _, hp⟩ := check_apply_clear .intersection (by norm_num) ha hb
  rw [locations_interval, locations_interval] at hp
  have hp := hp <| by
    rintro x (rfl | rfl) y (rfl | rfl) z (rfl | rfl) <;> norm_num [abs_le]
  refine ⟨⟨by norm_num, ha, hb⟩, r, hr, ?inside, ?outside⟩
  case inside =>
    rw [hp 5 (by rintro c ((rfl | rfl) | (rfl | rfl)) <;> norm_num [le_abs])]
    decide +kernel
  case outside =>
    rw [hp 15 (by rintro c ((rfl | rfl) | (rfl | rfl)) <;> norm_num [le_abs])]
    decide +kernel

-- The cut of `a` at `1` takes the place of the cut of `b` at `0`, and the one at `3 / 2` vanishes
-- with all that `b` has above it.
theorem union_loses_ray :
    let cut x direct : OrientedPoint (Exact ℚ) := ⟨.finite x, direct, .finite 1⟩
    let a : Region (line (Exact ℚ)) := halfSpace (cut 1 true) (.finite 1)
    let b : Region (line (Exact ℚ)) :=
      (interval (.finite 0) (.finite (3 / 2)) (.finite 1)).complement
    (a.FittedAt 1 ∧ b.FittedAt 1 ∧ ∀ c ∈ a.locations ∪ b.locations, 2 * 1 < |100 - c|) ∧
    b.covers (Exact.finite 100) = true ∧
    ∃ r, union a b = .ok r ∧ r.check (Exact.finite 100) = .outside := by
  intro cut a b
  have ha : a.FittedAt 1 := fittedAt_halfSpace
  have hb : b.FittedAt 1 := FittedAt.complement <| fittedAt_interval (by norm_num)
  have hL : a.locations ∪ b.locations = {1} ∪ {0, 3 / 2} := by
    rw [locations_halfSpace, locations_complement, locations_interval]
  refine ⟨⟨ha, hb, ?far⟩, by decide +kernel, ?lost⟩
  case far =>
    rw [hL]
    rintro c (rfl | rfl | rfl) <;> norm_num [lt_abs]
  case lost =>
    have h : (union a b).toOption.map (·.check (Exact.finite 100)) = some .outside := by
      decide +kernel
    cases hr : union a b <;> rw [hr] at h
    case error => cases h
    case ok r  => exact ⟨r, rfl, Option.some.inj h⟩

end Region
end SpacePartition
