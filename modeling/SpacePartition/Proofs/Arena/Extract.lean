import SpacePartition.Arena.Construct
import SpacePartition.Proofs.Arena.Simplify

/-!
Parts of arenas as arenas of their own. What is below a node has one arena, whether it is copied in
one piece or put together from copies of both sides.
-/

namespace SpacePartition

variable {R : Type} {S : Space R} {ι α σ ε : Type}

theorem Node.relabel_number {n : Node S ι α} {k j : Nat} :
    (n.number k).relabel (j + ·) = n.number (j + k) := by
  induction n generalizing k <;> simp_all [number, relabel, Nat.add_assoc]

theorem Tree.ofNode_ofNode {n : Node S ι α} : ofNode (ofNode n).root = ofNode n := by
  simp only [ofNode, Node.number_number, Node.size_number]

theorem Tree.ofParts_ofNode {i : ι} {t : Option α} {cut : S.Sub} {l r : Node S ι α} :
    ofParts cut (ofNode l) (ofNode r) t = ofNode (.fork i t cut l r) := by
  simp [ofParts, ofNode, Node.number, Node.size, Node.relabel_number]

namespace Arena

variable {a b : Arena S α} {p : Option Nat} {n o m : Node S Nat α} {i : Nat} {t : Option α}
variable {cut : S.Sub}

theorem WellFormed.exists_holds_at (h : a.WellFormed) (hi : a.Reachable i) :
    ∃ p n, a.Holds p n ∧ n.id = i := by
  obtain ⟨n, hn, hr, -⟩ := h.exists_holds
  obtain ⟨path, m, hm, hmi⟩ := Node.mem_ids_iff_at?.mp <| (hn.reachable_iff hr).mp hi
  obtain ⟨p, hp⟩ := hn.at? hm
  exact ⟨p, m, hp, hmi⟩

-- The links of a represented tree lead to positions in the order of `ids`.
theorem Represents.ids_eq {n : Node S ι α} (h : a.Represents (.ofNode n)) :
    (Tree.ofNode n).root.ids = List.range a.entries.size := by
  rw [h.size, Tree.ofNode, Node.ids_number, List.range_eq_range']

theorem Represents.root_add_one {n : Node S ι α} (h : a.Represents (.ofNode n)) :
    a.root + 1 = a.entries.size := by
  rw [h.size, ← h.root]
  cases n <;> simp [Tree.ofNode, Node.number, Node.id, Node.size]

namespace Action

theorem compact_eq_extract :
    (compact : Action S α σ ε Unit) = (do setArena (← extract (← arena).root)) := by
  simp only [compact, extract, bind_assoc]
  rfl

theorem yields_extract (h : a.Holds p n) : (extract n.id : Action S α σ ε _).Yields a fun c a' =>
    a' = a ∧ c.Represents (.ofNode n) := by
  refine yields_bind <| yields_arena <| yields_bind <| yields_setArena <| yields_bind ?_
  refine (yields_copy h).imp fun root c hc => yields_bind <| yields_arena <| yields_bind ?_
  obtain ⟨rfl, hc, hs, -⟩ := hc
  refine yields_setArena <| yields_pure ⟨rfl, hc.congr fun _ _ => rfl, rfl, ?_⟩
  exact hs.trans (Nat.zero_add _)

theorem yields_absorb_size (h : b.root < b.entries.size) :
    (absorb b : Action S α σ ε Nat).Yields a fun _ a' =>
      a'.entries.size = a.entries.size + b.entries.size := by
  refine yields_bind <| yields_arena <| yields_bind <| yields_setArena <| yields_bind ?_
  have he := (entry_append a b b.root).trans (congrArg _ (Array.getElem?_eq_getElem h))
  refine yields_update he <| yields_pure ?_
  simp [append]

-- The entries of the plus side stay, and those of the minus side follow.
theorem yields_ofParts {u v : Tree S α} (ha : a.Represents u) (nu : u.root.ids.Nodup)
    (hb : b.Represents v) (nv : v.root.ids.Nodup) :
    (ofParts cut b t : Action S α σ ε Unit).Yields a fun _ c =>
      c.Represents (.ofParts cut u v t) := by
  have hlt : b.root < b.entries.size := hb.root ▸ hb.holds.lt Node.id_mem_ids
  refine yields_bind <| yields_arena <| yields_bind ?_
  refine ((yields_absorb hb.holds hb.root nv).and <| yields_absorb_size hlt).imp
    fun root a₁ h₁ => ?_
  obtain ⟨⟨rfl, -, hv, ev⟩, hs₁⟩ := h₁
  have hu := ev.holds ha.holds fun _ _ hf => hf
  have hn : (v.root.relabel (· + a.entries.size)).ids.Nodup := by
    rw [Node.ids_relabel]
    exact nv.map fun _ _ => Nat.add_right_cancel
  have hd : ∀ j ∈ u.root.ids, j ∉ (v.root.relabel (· + a.entries.size)).ids := by
    intro j hj
    have := ha.holds.lt hj
    simp only [Node.ids_relabel, List.mem_map, not_exists, not_and]
    omega
  rw [← ha.root]
  refine yields_bind <| ((yields_addFork hu hv nu hn hd).and <| yields_addFork_size
    (hu.lt Node.id_mem_ids) (hv.lt Node.id_mem_ids)).imp fun root a₂ h₂ => ?_
  obtain ⟨⟨rfl, h₂, -⟩, hs₂⟩ := h₂
  have hshift : (· + a.entries.size) = (u.capacity + ·) := by
    rw [ha.size]
    exact funext fun j => Nat.add_comm ..
  rw [hs₁, hb.size, ha.size] at hs₂
  rw [hs₁, hb.size, hshift, ha.size] at h₂
  refine yields_bind <| yields_arena <| yields_setArena ⟨h₂.congr fun _ _ => rfl, ?_, hs₂⟩
  rw [hs₁, hb.size, ha.size]
  rfl

end Action

theorem Holds.exists_extract (h : a.Holds p n) : ∃ c, c.Represents (.ofNode n) ∧
    (Action.extract n.id : Action S α Unit Empty _) (a, ()) = some (.ok (c, a, ())) := by
  obtain ⟨c, _, _, hc, rfl, hr⟩ := (Action.yields_extract (ε := Empty) h).exists_ok ()
  exact ⟨c, hr, hc⟩

-- What is below a reachable node is copied into the one arena of its partition: the entries stand
-- in the order plus side, minus side, fork, up to the root, and all of them are reachable. A copy
-- of this arena is the same arena, and so is what copies of the two sides of the node make when
-- they are put together again.
theorem ofParts_extract (h : a.WellFormed) (hi : a.Reachable i) : ∃ p n c, a.Holds p n ∧ n.id = i ∧
    (Action.extract i : Action S α Unit Empty _) (a, ()) = some (.ok (c, a, ())) ∧
    c.Represents (.ofNode n) ∧ (Tree.ofNode n).root.ids = List.range c.entries.size ∧
    c.WellFormed ∧ (∀ j < c.entries.size, c.Reachable j) ∧ c.root + 1 = c.entries.size ∧
    (Action.extract c.root : Action S α Unit Empty _) (c, ()) = some (.ok (c, c, ())) ∧
    ∀ cut l r q t, a.entries[i]? = some ⟨.fork cut l r, q, t⟩ → ∃ cl cr,
      (Action.extract l : Action S α Unit Empty _) (a, ()) = some (.ok (cl, a, ())) ∧
      (Action.extract r : Action S α Unit Empty _) (a, ()) = some (.ok (cr, a, ())) ∧
      (Action.ofParts cut cr t : Action S α Unit Empty _) (cl, ()) = some (.ok ((), c, ())) := by
  obtain ⟨p, n, hn, rfl⟩ := h.exists_holds_at hi
  obtain ⟨c, hc, hac⟩ := hn.exists_extract
  obtain ⟨d, hd, hcd⟩ := hc.holds.exists_extract
  rw [Tree.ofNode_ofNode] at hd
  cases hd.unique hc
  refine ⟨p, n, c, hn, rfl, hac, hc, hc.ids_eq, hc.wellFormed, hc.reachable, hc.root_add_one,
    hc.root ▸ hcd, fun cut l r q t he => ?_⟩
  cases n
  case leaf => cases hn.symm.trans he
  case fork i t cut l r =>
    cases hn.1.symm.trans he
    obtain ⟨cl, hl, hal⟩ := hn.2.1.exists_extract
    obtain ⟨cr, hr, har⟩ := hn.2.2.exists_extract
    have built : (Action.ofParts cut cr t : Action S α Unit Empty Unit).Yields cl fun _ c =>
        c.Represents (.ofParts cut (.ofNode l) (.ofNode r) t) :=
      Action.yields_ofParts hl Node.nodup_number hr Node.nodup_number
    obtain ⟨_, e, _, hce, he⟩ := built.exists_ok ()
    rw [Tree.ofParts_ofNode (i := i)] at he
    cases he.unique hc
    exact ⟨cl, cr, hal, har, hce⟩

-- The entries stand in no order, one of them is unreachable, and the copied node has a parent.
theorem ofParts_extract_of_disorder :
    let cut (x : ℚ) : OrientedPoint (Exact ℚ) := ⟨.finite x, true, .finite 1⟩
    let a : Arena (line (Exact ℚ)) Bool := ⟨#[⟨.fork (cut 0) 3 1, none, none⟩,
      ⟨.leaf, some 0, some true⟩, ⟨.leaf, none, none⟩, ⟨.fork (cut 5) 6 4, some 0, some false⟩,
      ⟨.leaf, some 3, some true⟩, ⟨.leaf, some 6, none⟩, ⟨.fork (cut 8) 5 7, some 3, none⟩,
      ⟨.leaf, some 6, some true⟩], 0⟩
    let c : Arena (line (Exact ℚ)) Bool := ⟨#[⟨.leaf, some 2, none⟩, ⟨.leaf, some 2, some true⟩,
      ⟨.fork (cut 8) 0 1, some 4, none⟩, ⟨.leaf, some 4, some true⟩,
      ⟨.fork (cut 5) 2 3, none, some false⟩], 4⟩
    a.WellFormed ∧ a.Reachable 3 ∧ ¬a.Reachable 2 ∧
      (Action.extract 3 : Action _ _ Unit Empty _) (a, ()) = some (.ok (c, a, ())) ∧
      (Action.extract 4 : Action _ _ Unit Empty _) (c, ()) = some (.ok (c, c, ())) ∧
      ∃ cl cr, (Action.extract 6 : Action _ _ Unit Empty _) (a, ()) = some (.ok (cl, a, ())) ∧
        (Action.extract 4 : Action _ _ Unit Empty _) (a, ()) = some (.ok (cr, a, ())) ∧
        (Action.ofParts (cut 5) cr (some false) : Action _ _ Unit Empty _) (cl, ()) =
          some (.ok ((), c, ())) := by
  intro cut a c
  let part : Node (line (Exact ℚ)) Nat Bool := .fork 3 (some false) (cut 5)
    (.fork 6 none (cut 8) (.leaf 5 none) (.leaf 7 (some true))) (.leaf 4 (some true))
  have hpart : a.Holds (some 0) part := ⟨rfl, ⟨rfl, rfl, rfl⟩, rfl⟩
  have hold : a.Holds none (.fork 0 none (cut 0) part (.leaf 1 (some true))) := ⟨rfl, hpart, rfl⟩
  have ha : a.WellFormed := hold.wellFormed rfl rfl (by decide : [5, 7, 6, 4, 3, 1, 0].Nodup)
  have h3 : a.Reachable 3 := (hold.reachable_iff rfl).mpr (by decide : 3 ∈ [5, 7, 6, 4, 3, 1, 0])
  have h2 : ¬a.Reachable 2 := fun h => by
    exact absurd ((hold.reachable_iff rfl).mp h) (by decide : 2 ∉ [5, 7, 6, 4, 3, 1, 0])
  have hc : c.Represents (.ofNode part) := ⟨⟨rfl, ⟨rfl, rfl, rfl⟩, rfl⟩, rfl, rfl⟩
  obtain ⟨p, n, c', hn, hi, hac, hc', -, -, -, -, hcc, hparts⟩ := ofParts_extract ha h3
  cases hn.unique hpart hi
  cases hc'.unique hc
  exact ⟨ha, h3, h2, hac, hcc, hparts _ _ _ _ _ rfl⟩

end Arena
end SpacePartition
