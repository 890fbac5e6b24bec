import SpacePartition.Proofs.Arena.Walk
import SpacePartition.Proofs.Node.Isolate

/-!
Arenas that tell a node from the rest. A point gets to the leaf that stands for the node if it gets
to the node, and leaves the way to it where it did before.
-/

namespace SpacePartition.Arena

variable {R : Type} {S : Space R} {α σ ε : Type}
variable {a c tree other : Arena S α} {p : Option Nat} {n m near : Node S Nat α} {i : Nat}
variable {attr rest inner : Option α} {path up down : Path} {b : Branch}

theorem represents_leaf : (Arena.leaf attr : Arena S α).Represents (.ofNode (.leaf () attr)) :=
  ⟨rfl, rfl, rfl⟩

namespace Action

theorem yields_aside {x : Action S α σ ε Unit} {Q : Arena S α → Prop}
    (h : x.Yields other fun _ c => Q c) :
    (aside other x : Action S α σ ε _).Yields a fun c a' => a' = a ∧ Q c := by
  refine yields_bind <| yields_arena <| yields_bind <| yields_setArena <| yields_bind ?_
  refine h.imp fun _ c hc => yields_bind <| yields_arena <| yields_bind ?_
  exact yields_setArena <| yields_pure ⟨rfl, hc⟩

-- On the way up, the arena gets one wall after the other.
theorem yields_enclose {place : Option Slot} {walls : Cell S} {forks : List Nat} {e : Entry S α}
    {near : Node S Unit α} (hu : a.Above place walls forks) (he : a.entries[i]? = some e)
    (hp : e.parent = place.map Prod.fst) (hh : a.Hangs i place)
    (ht : tree.Represents (.ofNode near)) :
    (Index.enclose rest inner tree i : Action S α σ ε _).Yields a fun c a' =>
      a' = a ∧ c.Represents (.ofNode (walls.foldl (.around rest inner) near)) := by
  induction hu generalizing i e tree near
  case root =>
    rw [Index.enclose]
    exact yields_bind <| yields_slot he hp hh <| yields_pure ⟨rfl, ht⟩
  case wall q b up c l r t cell forks hq hq' _ _ ih =>
    rw [Index.enclose]
    refine yields_bind <| yields_slot he hp hh <| yields_bind <| yields_cut hq <| yields_bind ?_
    refine Yields.imp (P := fun tree a' => a' = a ∧
      tree.Represents (.ofNode (Node.around rest inner near ⟨c, b⟩))) ?made ?further
    case made =>
      cases b
      case plus =>
        exact yields_aside <| Tree.ofParts_ofNode (i := ()) ▸
          yields_ofParts ht Node.nodup_number represents_leaf Node.nodup_number
      case minus =>
        exact yields_aside <| Tree.ofParts_ofNode (i := ()) ▸
          yields_ofParts represents_leaf Node.nodup_number ht Node.nodup_number
    case further =>
      rintro tree _ ⟨rfl, ht⟩
      exact ih hq rfl hq' ht

end Action

-- A path leads to the cell of a point if the descent of the point takes it.
theorem Holds.follow_cellOf [Scalar R] {x : S.Point} {tolerance : R} (h : a.Holds p n)
    (hr : n.id = a.root) (hn : n.ids.Nodup) :
    a.follow path a.root = some (n.cellOf x tolerance).id ↔ n.descend x tolerance = path := by
  have hd := n.at?_descend x tolerance
  rw [← hr, h.follow, Option.map_eq_some_iff]
  constructor
  case mp  => exact fun ⟨m, hm, hi⟩ => n.at?_injective hn hd hm rfl hi
  case mpr => exact fun he => ⟨_, he ▸ hd, rfl⟩

-- Whether an arena has the cuts above a node of another arena, from the root down, with leaves on
-- their other sides and in the place of the node.
structure Isolates (c a : Arena S α) (path : Path) (attr rest inner : Option α) : Prop where
  cell : ∃ i p, c.follow path c.root = some i ∧ c.entries[i]? = some ⟨.leaf, p, attr⟩
  cuts {up down : Path} {b : Branch} : path = up ++ b :: down → ∃ i j cut l r l' r' p p' t,
    a.follow up a.root = some i ∧ a.entries[i]? = some ⟨.fork cut l r, p, t⟩ ∧
    c.follow up c.root = some j ∧ c.entries[j]? = some ⟨.fork cut l' r', p', inner⟩
  rest {up down : Path} {b : Branch} : path = up ++ b :: down → ∃ i p,
    c.follow (up ++ [b.flip]) c.root = some i ∧ c.entries[i]? = some ⟨.leaf, p, rest⟩

theorem Holds.exists_entry (h : a.Holds p n) (hr : n.id = a.root) (hm : n.at? path = some m) :
    ∃ p, a.follow path a.root = some m.id ∧ a.entries[m.id]? = some (m.entry p) := by
  obtain ⟨q, hq⟩ := h.at? hm
  exact ⟨q, hr ▸ h.follow.trans (congrArg _ hm), hq.entry⟩

theorem Holds.isolates (hn : a.Holds none n) (hr : n.id = a.root) (hm : n.at? path = some m)
    (hc : c.Represents (.ofNode (n.prune attr rest inner path))) :
    c.Isolates a path attr rest inner := by
  have entry {up k} (h : (n.prune attr rest inner path).at? up = some k) : ∃ i p j,
      c.follow up c.root = some i ∧ c.entries[i]? = some ((k.number j).entry p) := by
    obtain ⟨j, hj⟩ := Node.exists_at?_number (j := 0) h
    obtain ⟨p, hi, he⟩ := hc.holds.exists_entry hc.root hj
    exact ⟨_, p, j, hi, he⟩
  constructor
  case cell =>
    have hl : (n.prune attr rest inner (path ++ [])).at? path = some (.leaf () attr) :=
      (Node.at?_prune hm).trans <| congrArg some Node.prune_nil
    obtain ⟨i, p, _, hi, he⟩ := entry (List.append_nil path ▸ hl)
    exact ⟨i, p, hi, he⟩
  case cuts =>
    intro up down b h
    obtain ⟨_, _, _, _, _, hk, -⟩ := Node.exists_fork (h ▸ hm)
    obtain ⟨_, hi, he⟩ := hn.exists_entry hr hk
    obtain ⟨_, _, _, hj, he'⟩ := entry <| h ▸ Node.at?_prune hk
    exact ⟨_, _, _, _, _, _, _, _, _, _, hi, he, hj, he'⟩
  case rest =>
    intro up down b h
    obtain ⟨_, _, _, _, _, hk, -⟩ := Node.exists_fork (h ▸ hm)
    have hs : (n.prune attr rest inner path).at? (up ++ [b.flip]) = some (.leaf () rest) := by
      rw [h, Node.at?_append, Node.at?_prune hk, Node.prune_cons]
      cases b <;> rfl
    obtain ⟨i, p, _, hi, he⟩ := entry hs
    exact ⟨i, p, hi, he⟩

-- Isolating a node makes an arena with the cuts above it and leaves beside them, two nodes for each
-- cut and one for the node. The cell of a point is the leaf for the node if it was the node or
-- below it, a fork on the way if it was that fork, and a leaf beside the way if it was on that
-- side.
theorem isolate_isolates (S : Space R) {a : Arena S α} {i : Index} {path : Path} (ha : a.WellFormed)
    (hi : a.follow path a.root = some i) (attr rest inner : Option α) : ∃ c,
    (i.isolate attr rest inner : Action S α Unit Empty _) (a, ()) = some (.ok (c, a, ())) ∧
    c.WellFormed ∧ c.Isolates a path attr rest inner ∧
    (Action.nodeCount : Action S α Unit Empty _) (c, ()) = some (.ok (2 * path.length + 1, c, ())) ∧
    ∀ [Scalar R] (x : S.Point) (tolerance : R), ∃ j k,
      (a.root.cellOf x tolerance : Action S α Unit Empty _) (a, ()) = some (.ok (j, a, ())) ∧
      (c.root.cellOf x tolerance : Action S α Unit Empty _) (c, ()) = some (.ok (k, c, ())) ∧
      (c.follow path c.root = some k ↔ ∃ below, a.follow (path ++ below) a.root = some j) ∧
      ∀ up b down, path = up ++ b :: down →
        (c.follow up c.root = some k ↔ a.follow up a.root = some j) ∧
        (c.follow (up ++ [b.flip]) c.root = some k ↔
          ∃ below, a.follow (up ++ [b.flip] ++ below) a.root = some j) := by
  obtain ⟨n, hn, hr, hd⟩ := ha.exists_holds
  have hm := hi
  rw [← hr, hn.follow, Option.map_eq_some_iff] at hm
  obtain ⟨m, hm, rfl⟩ := hm
  obtain ⟨cell, up, forks, hc, hl⟩ := hn.located hd hm
  have made : (Index.isolate attr rest inner m.id : Action S α Unit Empty _).Yields a _ :=
    Action.yields_enclose hl.walls hl.holds.entry Node.parent_entry hl.hangs represents_leaf
  obtain ⟨c, a', _, hrun, ha', hrep⟩ := made.exists_ok ()
  obtain rfl : a = a' := ha'.symm
  rw [Node.foldl_around hc, List.foldl_nil] at hrep
  refine ⟨c, hrun, hrep.wellFormed, hn.isolates hr hm hrep, ?count, fun x tolerance => ?descent⟩
  case count =>
    have hs : (Tree.ofNode (n.prune attr rest inner path)).root.size = 2 * path.length + 1 :=
      (Node.size_number ..).trans (Node.size_prune hm)
    exact hs ▸ Action.run_nodeCount hrep.holds hrep.root
  case descent =>
    let t := (Tree.ofNode (n.prune attr rest inner path)).root
    have hj : (a.root.cellOf x tolerance : Action S α Unit Empty _) (a, ()) =
        some (.ok ((n.cellOf x tolerance).id, a, ())) := hr ▸ Action.run_cellOf hn
    have hk : (c.root.cellOf x tolerance : Action S α Unit Empty _) (c, ()) =
        some (.ok ((t.cellOf x tolerance).id, c, ())) := hrep.root ▸ Action.run_cellOf hrep.holds
    have at_a (q : Path) : a.follow q a.root = some (n.cellOf x tolerance).id ↔
        n.descend x tolerance = q := hn.follow_cellOf hr hd
    have at_c (q : Path) : c.follow q c.root = some (t.cellOf x tolerance).id ↔
        (n.prune attr rest inner path).descend x tolerance = q :=
      (hrep.holds.follow_cellOf hrep.root Node.nodup_number).trans <| by
        rw [Tree.ofNode, Node.descend_number]
    have below (q : Path) :
        (∃ below, a.follow (q ++ below) a.root = some (n.cellOf x tolerance).id) ↔
        q <+: n.descend x tolerance := by
      simp only [at_a]
      exact exists_congr fun _ => eq_comm
    refine ⟨_, _, hj, hk, ?cell, fun up b down h => ?way⟩
    case cell => rw [at_c, below, Node.descend_prune_eq_path hm]
    case way =>
      obtain ⟨_, _, _, _, _, hf, -⟩ := Node.exists_fork (h ▸ hm)
      rw [at_c, at_c, at_a, below, h, Node.descend_prune_eq_up hf, Node.descend_prune_eq_off hf]
      exact ⟨.rfl, .rfl⟩

-- The node is on the minus side of a cut that is on the plus side of the root. The point 3 is in
-- its cell, and the point 7 is beside it.
theorem isolate_isolates_of_middle_cell :
    let cut (x : ℚ) : OrientedPoint (Exact ℚ) := ⟨.finite x, true, .finite 1⟩
    let a : Arena (line (Exact ℚ)) Bool := ⟨#[⟨.fork (cut 0) 3 1, none, none⟩,
      ⟨.leaf, some 0, some true⟩, ⟨.leaf, none, none⟩, ⟨.fork (cut 5) 5 4, some 0, none⟩,
      ⟨.leaf, some 3, some true⟩, ⟨.leaf, some 3, some false⟩], 0⟩
    (a.WellFormed ∧ a.follow [.plus, .minus] a.root = some 4) ∧ ∃ c,
      (Index.isolate (some true) (some false) none 4 : Action _ _ Unit Empty _) (a, ()) =
        some (.ok (c, a, ())) ∧
      (Action.nodeCount : Action _ _ Unit Empty _) (c, ()) = some (.ok (5, c, ())) ∧
      (∃ k, (Index.cellOf (Exact.finite 3) 0 c.root : Action _ _ Unit Empty _) (c, ()) =
        some (.ok (k, c, ())) ∧ c.follow [.plus, .minus] c.root = some k) ∧
      ∃ k, (Index.cellOf (Exact.finite 7) 0 c.root : Action _ _ Unit Empty _) (c, ()) =
        some (.ok (k, c, ())) ∧ c.follow [.plus, .plus] c.root = some k := by
  intro cut a
  let n : Node (line (Exact ℚ)) Nat Bool := .fork 0 none (cut 0)
    (.fork 3 none (cut 5) (.leaf 5 (some false)) (.leaf 4 (some true))) (.leaf 1 (some true))
  have hn : a.Holds none n := ⟨rfl, ⟨rfl, rfl, rfl⟩, rfl⟩
  have ha : a.WellFormed := hn.wellFormed rfl rfl (by decide : [5, 4, 3, 1, 0].Nodup)
  obtain ⟨c, hrun, -, -, hcount, hcell⟩ :=
    isolate_isolates _ ha (rfl : a.follow [.plus, .minus] a.root = some 4)
      (some true) (some false) none
  refine ⟨⟨ha, rfl⟩, c, hrun, hcount, ?within, ?beside⟩
  case within =>
    obtain ⟨j, k, hj, hk, hin, -⟩ := hcell (Exact.finite 3) 0
    cases hj.symm.trans (Action.run_cellOf hn)
    exact ⟨k, hk, hin.mpr ⟨[], by decide +kernel⟩⟩
  case beside =>
    obtain ⟨j, k, hj, hk, -, hoff⟩ := hcell (Exact.finite 7) 0
    cases hj.symm.trans (Action.run_cellOf hn)
    exact ⟨k, hk, (hoff [.plus] .minus [] rfl).2.mpr ⟨[], by decide +kernel⟩⟩

end SpacePartition.Arena
