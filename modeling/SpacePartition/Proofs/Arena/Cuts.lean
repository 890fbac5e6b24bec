import SpacePartition.Arena.Construct
import SpacePartition.Proofs.Arena.Runs
import SpacePartition.Proofs.Arena.Simplify

/-!
Leaves cut in two. Both halves say what the leaf said, so that a partition simplifies to what it was
before, however often and wherever its leaves are cut.
-/

namespace SpacePartition

variable {R : Type} {S : Space R} {ι α β γ σ ε : Type}

namespace Node

section Modify

variable {n m : Node S ι α} {f : Node S ι α → Node S ι α} {path : Path}

theorem simplify_modify [DecidableEq α] (h : n.at? path = some m)
    (hf : (f m).simplify = m.simplify) : (n.modify f path).simplify = n.simplify := by
  fun_induction modify f path n
  case case1    => cases h; exact hf
  case case2    => rfl
  case case3 hi => rw [simplify, simplify, hi h]
  case case4 hi => rw [simplify, simplify, hi h]

theorem id_modify (h : n.at? path = some m) (hf : (f m).id = m.id) :
    (n.modify f path).id = n.id := by
  fun_cases modify f path n
  case case1 => cases h; exact hf
  all_goals rfl

theorem exists_ids_modify (h : n.at? path = some m) : ∃ before after,
    n.ids = before ++ m.ids ++ after ∧ (n.modify f path).ids = before ++ (f m).ids ++ after := by
  fun_induction modify f path n
  case case1 => cases h; exact ⟨[], [], by simp, by simp⟩
  case case2 => cases h
  case case3 i t c l r hi =>
    obtain ⟨before, after, hl, hf⟩ := hi h
    exact ⟨before, after ++ r.ids ++ [i], by simp [ids, hl], by simp [ids, hf]⟩
  case case4 i t c l r hi =>
    obtain ⟨before, after, hr, hf⟩ := hi h
    exact ⟨l.ids ++ before, after ++ [i], by simp [ids, hr], by simp [ids, hf]⟩

end Modify

end Node

theorem Tree.simplify_insertCut [DecidableEq α] {t t' : Tree S α} {path : Path} {h : S.Hyperplane}
    (hi : t.insertCut path h = .ok (some t')) : t'.root.simplify = t.root.simplify := by
  rw [insertCut] at hi
  split at hi
  case h_1 => cases hi
  case h_2 => cases hi
  case h_3 cell i x hl =>
    obtain ⟨cut, -, rfl⟩ := Option.map_eq_some_iff.mp (Except.ok.inj hi)
    have hm : t.root.at? path = some (.leaf i x) := by rw [← t.root.locate_node path, hl]; rfl
    exact Node.simplify_modify hm <| if_pos rfl

namespace Arena

-- The arena after one of its leaves has been cut in two.
def cutAt (i : Nat) (cut : S.Sub) (p : Option Nat) (t : Option α) (a : Arena S α) : Arena S α :=
  ((a.put i ⟨.fork cut a.entries.size (a.entries.size + 1), p, none⟩).push
    ⟨.leaf, some i, t⟩).push ⟨.leaf, some i, t⟩

variable {a a' : Arena S α} {p : Option Nat} {n m : Node S Nat α} {i : Nat} {t : Option α}
variable {cut : S.Sub} {f : Node S Nat α → Node S Nat α} {path : Path} {e : Entry S α}

section CutAt

theorem size_cutAt : (a.cutAt i cut p t).entries.size = a.entries.size + 2 := by
  simp [cutAt]

theorem evolves_cutAt : a.Evolves (· = i) (a.cutAt i cut p t) := by
  have h : a.Evolves (· = i) a := evolves_refl
  exact ((h.put fun _ => rfl).push).push

theorem put_put {e' : Entry S α} : (a.put i e).put i e' = a.put i e' := by
  simp [put]

theorem put_push_of_lt {e' : Entry S α} (h : i < a.entries.size) :
    (a.push e).put i e' = (a.put i e').push e := by
  simp only [put, push, Array.setIfInBounds, mk.injEq, and_true]
  grind

theorem put_push_of_size {e' : Entry S α} (h : a.entries.size = i) :
    (a.push e).put i e' = a.push e' := by
  simp only [put, push, mk.injEq, and_true]
  grind

theorem entry_push_of_size {j : Nat} (h : a.entries.size = j) : (a.push e).entries[j]? = some e :=
  h ▸ entry_push_self

theorem Holds.cutAt (h : a.Holds p (.leaf i t)) : (a.cutAt i cut p t).Holds p
    (.fork i none cut (.leaf a.entries.size t) (.leaf (a.entries.size + 1) t)) := by
  have hi := lt_of_entry h
  refine ⟨?entry, ?plus, ?minus⟩
  case entry =>
    rw [Arena.cutAt, entry_push_of_lt (by simp; omega), entry_push_of_lt (by simpa)]
    exact entry_put_self hi
  case plus  => exact (entry_push_of_lt (by simp)).trans <| entry_push_of_size size_put
  case minus => exact entry_push_of_size (by simp)

end CutAt

-- What is not below a node is held while the node is changed in place.
theorem Holds.modify (h : a.Holds p n) (hn : n.ids.Nodup) (hm : n.at? path = some m)
    (hid : (f m).id = m.id) (hf : ∀ q, a.Holds q m → a'.Holds q (f m))
    (he : ∀ j ∈ n.ids, j ∉ m.ids → a'.entries[j]? = a.entries[j]?) :
    a'.Holds p (n.modify f path) := by
  fun_induction Node.modify f path n generalizing p
  case case1 => cases hm; exact hf p h
  case case2 => cases hm
  case case3 i t c l r hi =>
    obtain ⟨nl, -, hd, hil, -⟩ := Node.nodup_fork.mp hn
    have hs := Node.ids_subset (n := l) hm
    refine ⟨?entry, hi h.2.1 nl hm fun j hj => he j <| Node.mem_ids_fork.mpr <| .inl hj, ?minus⟩
    case entry =>
      rw [Node.id_modify (n := l) hm hid]
      exact (he i Node.id_mem_ids fun hi => hil (hs hi)).trans h.1
    case minus =>
      refine h.2.2.congr fun j hj => he j (Node.mem_ids_fork.mpr <| .inr <| .inl hj) fun hjm => ?_
      exact hd j (hs hjm) hj
  case case4 i t c l r hi =>
    obtain ⟨-, nr, hd, -, hir⟩ := Node.nodup_fork.mp hn
    have hs := Node.ids_subset (n := r) hm
    refine ⟨?entry, ?plus,
      hi h.2.2 nr hm fun j hj => he j <| Node.mem_ids_fork.mpr <| .inr <| .inl hj⟩
    case entry =>
      rw [Node.id_modify (n := r) hm hid]
      exact (he i Node.id_mem_ids fun hi => hir (hs hi)).trans h.1
    case plus =>
      refine h.2.1.congr fun j hj => he j (Node.mem_ids_fork.mpr <| .inl hj) fun hjm => ?_
      exact hd j hj (hs hjm)

-- Where the way to a node leads, the node is held.
theorem Located.locateIn {up : Option Slot} {cell cell' : Cell S} {forks : List Nat}
    (h : a.Located up cell forks n) (hl : n.locateIn cell path = some (cell', m)) :
    ∃ up' forks', a.Located up' cell' forks' m := by
  fun_induction Node.locateIn cell path n generalizing up forks
  case case1    => cases hl; exact ⟨up, forks, h⟩
  case case2    => cases hl
  case case3 hi => exact hi h.plus hl
  case case4 hi => exact hi h.minus hl

-- A node is below the forks on the path to it, with its cell on its sides of them.
theorem Holds.located {n m : Node S Nat α} (hn : a.Holds none n) (hd : n.ids.Nodup)
    (hm : n.at? path = some m) :
    ∃ cell up forks, n.locate path = some (cell, m) ∧ a.Located up cell forks m := by
  obtain ⟨cell, hc⟩ := Node.exists_locate hm
  have hl : a.Located none [] [] n := ⟨.root, trivial, hn, hd, fun _ _ => List.not_mem_nil⟩
  obtain ⟨up, forks, hl⟩ := hl.locateIn hc
  exact ⟨cell, up, forks, hc, hl⟩

namespace Action

open Index

variable {h : S.Hyperplane} {s : σ}

-- The leaf gives its attribute away before its halves are made.
theorem run_insertCut {o : Option S.Sub} (he : a.entries[i]? = some ⟨.leaf, p, t⟩)
    (hf : a.Fits i (S.whole h) o) :
    insertCut i h (a, s) = some (.ok (o.isSome, o.elim a (a.cutAt i · p t), s)) := by
  refine (run_bind (b := true) (run_bind (run_children he))).trans <|
    (run_bind (run_fit hf)).trans ?_
  cases o
  case none     => rfl
  case some cut =>
    -- The arenas after each change: the leaf without attribute, the halves, and the halves hung up.
    let bare := a.put i ⟨.leaf, p, none⟩
    let loose : Entry S α := ⟨.leaf, none, t⟩
    let hung : Entry S α := ⟨.leaf, some i, t⟩
    have hi : i < a.entries.size := lt_of_entry he
    have hs : bare.entries.size = a.entries.size := size_put
    have plus : (update bare.entries.size (.setParent (some i)) : Action S α σ (Violation R) _)
        ((bare.push loose).push loose, s) = some (.ok ((), (bare.push hung).push loose, s)) := by
      refine (run_update ((entry_push_of_lt (by simp)).trans entry_push_self)).trans ?_
      rw [put_push_of_lt (by simp), put_push_of_size rfl]
      rfl
    have minus : (update (bare.push loose).entries.size (.setParent (some i)) :
        Action S α σ (Violation R) _) ((bare.push hung).push loose, s) =
          some (.ok ((), (bare.push hung).push hung, s)) := by
      refine (run_update (entry_push_of_size (by simp))).trans ?_
      rw [put_push_of_size (by simp)]
      rfl
    have fork : (update i (.toFork cut bare.entries.size (bare.push loose).entries.size) :
        Action S α σ (Violation R) _) ((bare.push hung).push hung, s) =
          some (.ok ((), a.cutAt i cut p t, s)) := by
      refine (run_update (e := ⟨.leaf, p, none⟩) ?entry).trans ?arena
      case entry =>
        rw [entry_push_of_lt (by simp; omega), entry_push_of_lt (by omega), entry_put_self hi]
      case arena =>
        rw [put_push_of_lt (by simp; omega), put_push_of_lt (by omega), put_put, size_push, hs]
        rfl
    refine (run_bind (run_entry he)).trans <| (run_bind (run_update he)).trans ?_
    refine (run_bind run_add).trans <| (run_bind run_add).trans ?_
    exact (run_bind plus).trans <| (run_bind minus).trans <| run_bind fork

end Action

section Represents

variable {u : Tree S α} {h : S.Hyperplane} {s : σ}

theorem Represents.cutAt (ha : a.Represents u) (hu : u.root.ids.Nodup)
    (hm : u.root.at? path = some (.leaf i t)) (he : a.entries[i]? = some ⟨.leaf, p, t⟩) :
    let halves : Node S Nat α := .fork i none cut (.leaf u.capacity t) (.leaf (u.capacity + 1) t)
    (a.cutAt i cut p t).Represents ⟨u.root.modify (fun _ => halves) path, u.capacity + 2⟩ ∧
      (u.root.modify (fun _ => halves) path).ids.Nodup := by
  intro halves
  have hold {j} (hj : j ∈ u.root.ids) : j < u.capacity := ha.size ▸ ha.holds.lt hj
  refine ⟨⟨?holds, ?root, ?size⟩, ?nodup⟩
  case holds =>
    refine ha.holds.modify hu hm rfl (fun q hq => ?leaf) fun j hj hji => ?others
    case leaf =>
      cases hq.symm.trans he
      simp only [halves, ← ha.size]
      exact hq.cutAt
    case others =>
      exact evolves_cutAt.same fun hf => hji <| List.mem_singleton.mpr <| hf <| ha.holds.lt hj
  case root => exact (Node.id_modify hm rfl).trans ha.root
  case size => exact size_cutAt.trans (congrArg (· + 2) ha.size)
  case nodup =>
    obtain ⟨before, after, hn, hf⟩ := Node.exists_ids_modify (f := fun _ => halves) hm
    simp only [hn, List.mem_append] at hold
    rw [hn] at hu
    rw [hf]
    simp only [halves, Node.ids, List.nodup_append, List.mem_append] at hu hold ⊢
    grind

-- The way up from a leaf is as long as the way down to it.
theorem Represents.fits (ha : a.Represents u) (hu : u.root.ids.Nodup)
    (hm : u.root.at? path = some (.leaf i t)) :
    ∃ cell q, u.root.locate path = some (cell, .leaf i t) ∧ a.entries[i]? = some ⟨.leaf, q, t⟩ ∧
      a.Fits i (S.whole h) (cell.fit (S.whole h)) := by
  obtain ⟨cell, up, forks, hl, hleaf⟩ := ha.holds.located hu hm
  exact ⟨cell, _, hl, hleaf.holds, hleaf.walls.fits hleaf.holds hleaf.hangs⟩

-- A leaf is cut in the arena as it is in the tree.
theorem Represents.insertCut (ha : a.Represents u) (hu : u.root.ids.Nodup)
    (hm : u.root.at? path = some (.leaf i t)) : ∃ o a', u.insertCut path h = .ok o ∧
      Action.insertCut i h (a, s) = some (.ok (o.isSome, a', s)) ∧
      a'.Represents (o.getD u) ∧ (o.getD u).root.ids.Nodup := by
  obtain ⟨cell, q, hl, he, hf⟩ := ha.fits (h := h) hu hm
  rw [Tree.insertCut, hl]
  dsimp only
  generalize cell.fit (S.whole h) = o at hf ⊢
  have hr := Action.run_insertCut (s := s) he hf
  cases o
  case none     => exact ⟨none, a, rfl, hr, ha, hu⟩
  case some cut => exact ⟨_, _, rfl, hr, ha.cutAt hu hm he⟩

theorem Represents.simplify_insertCut [DecidableEq α] {o : Option S.Sub} (ha : a.Represents u)
    (hu : u.root.ids.Nodup) (he : a.entries[i]? = some ⟨.leaf, p, t⟩)
    (hf : a.Fits i (S.whole h) o) :
    ∃ u', (o.elim a (a.cutAt i · p t)).Represents u' ∧ u'.root.ids.Nodup ∧
      u'.root.simplify = u.root.simplify := by
  by_cases hi : i ∈ u.root.ids
  case pos =>
    obtain ⟨path, m, hm, rfl⟩ := Node.mem_ids_iff_at?.mp hi
    obtain ⟨q, hq⟩ := ha.holds.at? hm
    cases m
    case fork => cases hq.1.symm.trans he
    case leaf i t' =>
      obtain ⟨o', a', ho, hr, ha', hu'⟩ := ha.insertCut (s := ()) (h := h) hu hm
      obtain ⟨rfl, -⟩ := Prod.mk.inj (Prod.mk.inj <| Except.ok.inj <| Option.some.inj <|
        hr.symm.trans <| Action.run_insertCut he hf).2
      refine ⟨_, ha', hu', ?_⟩
      cases o'
      case none => rfl
      case some => exact Tree.simplify_insertCut ho
  case neg =>
    cases o
    case none => exact ⟨u, ha, hu, rfl⟩
    case some cut =>
      refine ⟨⟨u.root, u.capacity + 2⟩, ⟨?holds, ha.root, ?size⟩, hu, rfl⟩
      case holds => exact evolves_cutAt.holds ha.holds fun j hj hij => hi (hij ▸ hj)
      case size  => exact size_cutAt.trans (congrArg (· + 2) ha.size)

-- A point finds the leaf of its cell.
theorem Holds.exists_leaf [Scalar R] [Scalar.Magnitudes R] {n : Node S Nat α} (h : a.Holds p n)
    (x : S.Point) :
    ∃ j q, (Index.cellOf x 0 n.id : Action S α σ ε _) (a, s) = some (.ok (j, a, s)) ∧
      a.entries[j]? = some ⟨.leaf, q, n.verdict (S.outlook x)⟩ := by
  have ⟨j, hj⟩ := n.cellOf_eq_leaf Scalar.Magnitudes.not_abs_lt_zero x
  obtain ⟨q, hq⟩ := h.at? (n.at?_descend x 0)
  rw [hj] at hq
  exact ⟨j, q, by rw [Action.run_cellOf h, hj, Node.id], hq⟩

-- A point finds the attribute of its cell.
theorem Represents.exists_cellOf [Scalar R] [Scalar.Magnitudes R] (ha : a.Represents u)
    (x : S.Point) :
    ∃ j e, (Index.cellOf x 0 a.root : Action S α σ ε _) (a, s) = some (.ok (j, a, s)) ∧
      a.entries[j]? = some e ∧ e.attr = u.root.verdict (S.outlook x) := by
  obtain ⟨j, q, hj, he⟩ := ha.holds.exists_leaf x
  exact ⟨j, _, ha.root ▸ hj, he, rfl⟩

end Represents

section Insertions

-- Cuts made in leaves, one after the other.
inductive Insertions : Arena S α → Arena S α → Prop
  | refl {a : Arena S α} : Insertions a a
  | cut {a a' a'' : Arena S α} {i p t h o b} : a.entries[i]? = some ⟨.leaf, p, t⟩ →
    a.Fits i (S.whole h) o → Action.insertCut i h (a, ()) = some (.ok (b, a', ())) →
      Insertions a' a'' → Insertions a a''

variable [DecidableEq α]

theorem Insertions.represents {u : Tree S α} (h : Insertions a a') (ha : a.Represents u)
    (hu : u.root.ids.Nodup) :
    ∃ u', a'.Represents u' ∧ u'.root.ids.Nodup ∧ u'.root.simplify = u.root.simplify := by
  induction h generalizing u
  case refl => exact ⟨u, ha, hu, rfl⟩
  case cut he hf hr _ ih =>
    cases hr.symm.trans <| Action.run_insertCut he hf
    obtain ⟨u₁, ha₁, hu₁, hs₁⟩ := ha.simplify_insertCut hu he hf
    obtain ⟨u', ha', hu', hs⟩ := ih ha₁ hu₁
    exact ⟨u', ha', hu', hs.trans hs₁⟩

-- The way up from a leaf of the partition ends. At a leaf whose way up ends, a cut of which nothing
-- is left changes nothing; another one turns the leaf into a fork, with two new leaves at the end
-- of the arena, and changes nothing else. After any cuts, a point finds the attribute that it found
-- before, and the arena simplifies to the same arena.
theorem simplify_insertions [Scalar R] [Scalar.Magnitudes R] (ha : a.WellFormed) :
    (∀ a₁, Insertions a a₁ → ∀ i p t h, a₁.entries[i]? = some ⟨.leaf, p, t⟩ →
      (a₁.Reachable i → ∃ o, a₁.Fits i (S.whole h) o) ∧
      ∀ o, a₁.Fits i (S.whole h) o → Action.insertCut i h (a₁, ()) =
        some (.ok (o.isSome, o.elim a₁ (a₁.cutAt i · p t), ()))) ∧
    ∀ a', Insertions a a' → a'.WellFormed ∧
      (∀ x, ∃ j j' e e',
        (Index.cellOf x 0 a.root : Action S α Unit Empty _) (a, ()) = some (.ok (j, a, ())) ∧
        (Index.cellOf x 0 a'.root : Action S α Unit Empty _) (a', ()) = some (.ok (j', a', ())) ∧
        a.entries[j]? = some e ∧ a'.entries[j']? = some e' ∧ e'.attr = e.attr) ∧
      ∃ c, (Action.simplify : Action S α Unit Empty Unit) (a, ()) = some (.ok ((), c, ())) ∧
        (Action.simplify : Action S α Unit Empty Unit) (a', ()) = some (.ok ((), c, ())) := by
  obtain ⟨u, hu, nu⟩ := ha.exists_represents
  refine ⟨fun a₁ h₁ i p t h he => ⟨fun hi => ?ends, fun o => Action.run_insertCut he⟩,
    fun a' h' => ?run⟩
  case ends =>
    obtain ⟨u₁, hu₁, nu₁, -⟩ := h₁.represents hu nu
    obtain ⟨path, m, hm, rfl⟩ := Node.mem_ids_iff_at?.mp <| (hu₁.holds.reachable_iff hu₁.root).mp hi
    obtain ⟨q, hq⟩ := hu₁.holds.at? hm
    cases m
    case fork => cases hq.1.symm.trans he
    case leaf =>
      obtain ⟨cell, -, -, -, hf⟩ := hu₁.fits nu₁ hm
      exact ⟨_, hf⟩
  case run =>
    obtain ⟨u', hu', nu', hs⟩ := h'.represents hu nu
    refine ⟨hu'.holds.wellFormed hu'.root rfl nu', fun x => ?cellOf, ?simplify⟩
    case cellOf =>
      obtain ⟨j, e, hj, he, hv⟩ := hu.exists_cellOf (ε := Empty) (s := ()) x
      obtain ⟨j', e', hj', he', hv'⟩ := hu'.exists_cellOf (ε := Empty) (s := ()) x
      refine ⟨j, j', e, e', hj, hj', he, he', ?_⟩
      rw [hv, hv', ← Node.verdict_simplify, hs, Node.verdict_simplify]
    case simplify =>
      obtain ⟨_, c, _, hac, hc⟩ := (Action.yields_simplify (ε := Empty) hu nu).exists_ok ()
      obtain ⟨_, d, _, had, hd⟩ := (Action.yields_simplify (ε := Empty) hu' nu').exists_ok ()
      rw [Tree.simplify, hs] at hd
      cases hd.unique hc
      exact ⟨c, hac, had⟩

end Insertions

-- A line is cut at 0 and then at 5. Another cut at 5 is refused, as it misses the leaf below 0.
theorem simplify_insertions_of_nested_cuts :
    let cut (x : ℚ) : OrientedPoint (Exact ℚ) := ⟨.finite x, true, .finite 1⟩
    let a : Arena (line (Exact ℚ)) Bool := ⟨#[⟨.leaf, none, some true⟩], 0⟩
    let b : Arena (line (Exact ℚ)) Bool := ⟨#[⟨.fork (cut 0) 1 2, none, none⟩,
      ⟨.leaf, some 0, some true⟩, ⟨.leaf, some 0, some true⟩], 0⟩
    let c : Arena (line (Exact ℚ)) Bool := ⟨#[⟨.fork (cut 0) 1 2, none, none⟩,
      ⟨.fork (cut 5) 3 4, some 0, none⟩, ⟨.leaf, some 0, some true⟩, ⟨.leaf, some 1, some true⟩,
      ⟨.leaf, some 1, some true⟩], 0⟩
    a.WellFormed ∧
      Action.insertCut 0 (cut 0) (a, ()) = some (.ok (true, b, ())) ∧
      Action.insertCut 2 (cut 5) (b, ()) = some (.ok (false, b, ())) ∧
      Action.insertCut 1 (cut 5) (b, ()) = some (.ok (true, c, ())) ∧
      Insertions a c ∧ c.WellFormed ∧
      (Action.simplify : Action _ _ Unit Empty Unit) (c, ()) = some (.ok ((), a, ())) := by
  intro cut a b c
  have hold : a.Holds none (.leaf 0 (some true)) := rfl
  have ha : a.WellFormed := hold.wellFormed rfl rfl (by decide : [0].Nodup)
  have side : (cut 5).split (cut 0) = ⟨some (cut 5), none⟩ := by decide +kernel
  have whole : a.Fits 0 (cut 0) (some (cut 0)) := .root rfl
  have misses : b.Fits 2 (cut 5) none := .miss rfl rfl <| congrArg (Parts.on · .minus) side
  have crosses : b.Fits 1 (cut 5) (some (cut 5)) :=
    .wall rfl rfl (congrArg (Parts.on · .plus) side) <| .root rfl
  have h₀ : Action.insertCut 0 (cut 0) (a, ()) = some (.ok (true, b, ())) :=
    Action.run_insertCut rfl whole
  have h₁ : Action.insertCut 2 (cut 5) (b, ()) = some (.ok (false, b, ())) :=
    Action.run_insertCut (p := some 0) (t := some true) rfl misses
  have h₂ : Action.insertCut 1 (cut 5) (b, ()) = some (.ok (true, c, ())) :=
    Action.run_insertCut rfl crosses
  have hac : Insertions a c := .cut rfl whole h₀ <| .cut rfl misses h₁ <| .cut rfl crosses h₂ .refl
  obtain ⟨-, hrun⟩ := simplify_insertions ha
  obtain ⟨hc, -, d, had, hcd⟩ := hrun c hac
  have hr : a.Represents (.ofNode (.leaf 0 (some true))) := ⟨hold, rfl, rfl⟩
  obtain ⟨_, e, _, hae, he⟩ :=
    (Action.yields_simplify (ε := Empty) hr Node.nodup_number).exists_ok ()
  cases he.unique hr
  cases had.symm.trans hae
  exact ⟨ha, h₀, h₁, h₂, hac, hc, hcd⟩

end Arena
end SpacePartition
