import SpacePartition.Arena.Operations
import SpacePartition.Proofs.Arena.Extract
import SpacePartition.Proofs.Arena.Runs
import SpacePartition.Proofs.Region.Duality

/-!
Leaves of subtrees in arenas. A split duplicates leaves and makes one of two that agree, but the
attributes that are there stay the same.
-/

namespace SpacePartition

variable {R : Type} {S : Space R} {ι α σ ε : Type}

theorem Node.mem_leafAttrs_iff_at? {n : Node S ι α} {t : Option α} :
    t ∈ n.leafAttrs ↔ ∃ path i, n.at? path = some (leaf i t) := by
  induction n
  case leaf i t' =>
    rw [leafAttrs, List.mem_singleton]
    constructor
    case mp  => exact fun h => ⟨[], i, h ▸ rfl⟩
    case mpr =>
      rintro ⟨_ | _, _, h⟩ <;> cases h
      rfl
  case fork i t' c l r hl hr =>
    rw [leafAttrs, List.mem_append, hl, hr]
    constructor
    case mp =>
      rintro (⟨path, h⟩ | ⟨path, h⟩)
      case inl => exact ⟨.plus :: path, h⟩
      case inr => exact ⟨.minus :: path, h⟩
    case mpr =>
      rintro ⟨_ | ⟨_ | _, path⟩, j, h⟩
      case nil        => cases h
      case cons.plus  => exact .inl ⟨path, j, h⟩
      case cons.minus => exact .inr ⟨path, j, h⟩

theorem Halves.mem_leafAttrs_close {h : Halves S ι α} {sub : S.Sub} {t : Option α} :
    t ∈ (h.close sub).leafAttrs ↔ t ∈ h.plus.leafAttrs ∨ t ∈ h.minus.leafAttrs :=
  List.mem_append

namespace Arena

variable {a : Arena S α} {p : Option Nat} {n : Node S Nat α} {i : Nat} {t : Option α}

-- The attributes of the leaves at or below a node.
def leafAttrs (a : Arena S α) (i : Index) : Set (Option α) :=
  {t | ∃ path j p, a.follow path i = some j ∧ a.entries[j]? = some ⟨.leaf, p, t⟩}

theorem Holds.mem_leafAttrs (h : a.Holds p n) : t ∈ a.leafAttrs n.id ↔ t ∈ n.leafAttrs := by
  rw [Node.mem_leafAttrs_iff_at?]
  constructor
  case mp =>
    rintro ⟨path, j, q, hj, he⟩
    rw [h.follow, Option.map_eq_some_iff] at hj
    obtain ⟨m, hm, rfl⟩ := hj
    obtain ⟨q', hq⟩ := h.at? hm
    cases m
    case leaf => cases hq.symm.trans he; exact ⟨path, _, hm⟩
    case fork => cases hq.1.symm.trans he
  case mpr =>
    rintro ⟨path, j, hm⟩
    obtain ⟨q, hq⟩ := h.at? hm
    exact ⟨path, j, q, h.follow.trans <| Option.map_eq_some_iff.mpr ⟨_, hm, rfl⟩, hq⟩

namespace Action

theorem run_allLeaves {test : Option α → Bool} {s : σ} (h : a.Holds p n) :
    (Index.allLeaves test n.id : Action S α σ ε Bool) (a, s) =
      some (.ok (n.leafAttrs.all test, a, s)) := by
  induction n generalizing p
  case leaf i t =>
    rw [Index.allLeaves, Node.leafAttrs, List.all_cons, List.all_nil, Bool.and_true]
    exact (run_bind (run_children h)).trans <| run_bind (run_entry h)
  case fork i t c l r hl hr =>
    rw [Index.allLeaves, Node.leafAttrs, List.all_append, Bool.and_comm]
    refine (run_bind (run_children h.1)).trans <| (run_bind (hr h.2.2)).trans ?_
    cases r.leafAttrs.all test
    case false => rfl
    case true  => exact hl h.2.1

end Action

section Split

variable [DecidableEq α]

-- A split ends in a node that has the leaf attributes of the one that was split.
theorem Holds.exists_split (sub : S.Sub) (hn : a.Holds p n) (hd : n.ids.Nodup) :
    ∃ m a', a'.Holds none m ∧
      (Index.split n.id sub : Action S α Unit Empty _) (a, ()) = some (.ok (m.id, a', ())) ∧
      ∀ t, t ∈ m.leafAttrs ↔ t ∈ n.leafAttrs := by
  have hs : (Index.split n.id sub : Action S α Unit Empty _).Yields a _ := Action.yields_split hn hd
  obtain ⟨root, a', _, hrun, h, rfl, hb, hh, -⟩ := hs.exists_ok ()
  refine ⟨h.close sub, a', hh, hrun, fun t => ?_⟩
  have hbare : t ∈ (h.close sub).leafAttrs ↔ t ∈ (h.bare.close sub).leafAttrs := by
    simp [Halves.mem_leafAttrs_close, Halves.bare, Node.bare]
  rw [hbare, hb, Halves.mem_leafAttrs_close, Node.mem_leafAttrs_split, Node.bare,
    Node.leafAttrs_relabel]

end Split

-- Splitting what is below a node ends in a node below which the leaves have the same attributes as
-- before. In a region, what was all outside or all inside is so afterwards, and nothing else is.
theorem leafAttrs_split (S : Space R) :
    (∀ {α : Type} [DecidableEq α] {a : Arena S α} {i : Index}, a.WellFormed → a.Reachable i →
      ∀ sub : S.Sub, ∃ root a',
        (Index.split i sub : Action S α Unit Empty _) (a, ()) = some (.ok (root, a', ())) ∧
        a'.leafAttrs root = a.leafAttrs i) ∧
    ∀ {a : Arena S Bool} {i : Index}, a.WellFormed → a.Reachable i → ∀ sub : S.Sub, ∃ root a' e f,
      (Index.split i sub : Action S Bool Unit Empty _) (a, ()) = some (.ok (root, a', ())) ∧
      (i.isEmpty : Action S Bool Unit Empty _) (a, ()) = some (.ok (e, a, ())) ∧
      (root.isEmpty : Action S Bool Unit Empty _) (a', ()) = some (.ok (e, a', ())) ∧
      (i.isFull : Action S Bool Unit Empty _) (a, ()) = some (.ok (f, a, ())) ∧
      (root.isFull : Action S Bool Unit Empty _) (a', ()) = some (.ok (f, a', ())) := by
  constructor
  case left =>
    intro α _ a i ha hi sub
    obtain ⟨p, n, hn, rfl, hd⟩ := ha.exists_holds_below hi
    obtain ⟨m, a', hm, hrun, ht⟩ := hn.exists_split sub hd
    refine ⟨m.id, a', hrun, Set.ext fun t => ?_⟩
    exact hm.mem_leafAttrs.trans <| (ht t).trans hn.mem_leafAttrs.symm
  case right =>
    intro a i ha hi sub
    obtain ⟨p, n, hn, rfl, hd⟩ := ha.exists_holds_below hi
    obtain ⟨m, a', hm, hrun, ht⟩ := hn.exists_split sub hd
    have hall (test : Option Bool → Bool) : m.leafAttrs.all test = n.leafAttrs.all test := by
      rw [Bool.eq_iff_iff, List.all_eq_true, List.all_eq_true]
      exact forall_congr' fun t => by rw [ht]
    have run (test : Option Bool → Bool) :
        (Index.allLeaves test m.id : Action S Bool Unit Empty _) (a', ()) =
          some (.ok (n.leafAttrs.all test, a', ())) := by
      rw [Action.run_allLeaves hm, hall]
    exact ⟨m.id, a', n.leafAttrs.all _, n.leafAttrs.all _, hrun, Action.run_allLeaves hn, run _,
      Action.run_allLeaves hn, run _⟩

-- A fork below the root, with an inside and an outside leaf, is cut on its minus side.
theorem leafAttrs_split_of_inner_fork :
    let cut (x : ℚ) : OrientedPoint (Exact ℚ) := ⟨.finite x, true, .finite 1⟩
    let a : Arena (line (Exact ℚ)) Bool :=
      ⟨#[⟨.leaf, some 4, some true⟩, ⟨.leaf, some 3, some true⟩, ⟨.leaf, some 3, some false⟩,
        ⟨.fork (cut 10) 1 2, some 4, none⟩, ⟨.fork (cut 5) 0 3, none, none⟩], 4⟩
    (a.WellFormed ∧ a.Reachable 3) ∧
    (∃ root a', (Index.split 3 (cut 7) : Action _ Bool Unit Empty _) (a, ()) =
      some (.ok (root, a', ())) ∧ a'.leafAttrs root = {some true, some false}) ∧
    ∃ root a', (Index.split 3 (cut 7) : Action _ Bool Unit Empty _) (a, ()) =
        some (.ok (root, a', ())) ∧
      (Index.isEmpty root : Action _ Bool Unit Empty _) (a', ()) = some (.ok (false, a', ())) ∧
      (Index.isFull root : Action _ Bool Unit Empty _) (a', ()) = some (.ok (false, a', ())) := by
  intro cut a
  let n : Node (line (Exact ℚ)) Nat Bool :=
    .fork 3 none (cut 10) (.leaf 1 (some true)) (.leaf 2 (some false))
  have hn : a.Holds (some 4) n := ⟨rfl, rfl, rfl⟩
  have hold : a.Holds none (.fork 4 none (cut 5) (.leaf 0 (some true)) n) := ⟨rfl, rfl, hn⟩
  have ha : a.WellFormed := hold.wellFormed rfl rfl (by decide : [0, 1, 2, 3, 4].Nodup)
  have h3 : a.Reachable 3 := (hold.reachable_iff rfl).mpr (by decide : 3 ∈ [0, 1, 2, 3, 4])
  obtain ⟨attrs, sides⟩ := leafAttrs_split (line (Exact ℚ))
  obtain ⟨root, a', hs, ht⟩ := attrs ha h3 (cut 7)
  obtain ⟨root', a'', e, f, hs', he, he', hf, hf'⟩ := sides ha h3 (cut 7)
  cases he.symm.trans (Action.run_allLeaves hn)
  cases hf.symm.trans (Action.run_allLeaves hn)
  have hn' : a.leafAttrs 3 = {some true, some false} :=
    Set.ext fun t => hn.mem_leafAttrs.trans <| by simp [n, Node.leafAttrs]
  exact ⟨⟨ha, h3⟩, ⟨root, a', hs, ht.trans hn'⟩, root', a'', hs', he', hf'⟩

end Arena
end SpacePartition
