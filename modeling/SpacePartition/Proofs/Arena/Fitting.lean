import SpacePartition.Proofs.Arena.Cuts
import SpacePartition.Proofs.Arena.Operations
import SpacePartition.Proofs.Region.Chain

/-!
Fitting a partition that is fitted already. Where every cut is its own part on the sides of the
walls, nothing vanishes and nothing changes, whoever would be asked.
-/

namespace SpacePartition

variable {R : Type} {S : Space R} {ι κ α β σ ε : Type}

namespace Node

-- Whether walls keep all cuts of a partition as they are.
def KeptBy (walls : Cell S) (n : Node S ι α) : Prop :=
  ∀ wall ∈ walls, ∀ s ∈ n.cuts, (S.split s (S.hyperplane wall.cut)).on wall.side = some s

theorem keptBy_bare {walls : Cell S} {n : Node S ι α} : n.bare.KeptBy walls ↔ n.KeptBy walls := by
  rw [KeptBy, bare, cuts_relabel, KeptBy]

theorem condense_condense [DecidableEq α] {n : Node S ι α} : n.condense.condense = n.condense := by
  fun_cases condense n <;> simp_all [condense]

section Path

variable {n m l r : Node S ι α} {cell cell' : Cell S} {path path' : Path} {i : ι} {t : Option α}
variable {c : S.Sub} {b : Branch}

-- The cuts on the way to a node are walls of its cell.
theorem mem_of_locateIn (h : n.locateIn cell (path ++ b :: path') = some (cell', m))
    (hn : n.at? path = some (fork i t c l r)) : ⟨c, b⟩ ∈ cell' := by
  rw [locateIn_append, Option.bind_eq_some_iff] at h
  obtain ⟨⟨cell₁, k⟩, hk, h⟩ := h
  rw [← n.locateIn_node cell, hk] at hn
  cases hn
  cases b
  case plus  => exact (suffix_locateIn (n := l) h).subset List.mem_cons_self
  case minus => exact (suffix_locateIn (n := r) h).subset List.mem_cons_self

end Path

end Node

namespace Arena

variable {a : Arena S α} {p : Option Nat} {n l r : Node S Nat α} {i : Nat} {t : Option α}
variable {c : S.Sub} {e : Entry S α} {up place : Option Slot} {cell walls : Cell S}
variable {forks : List Nat} {b : Branch}

-- The cuts of a node and of those below it.
def cutsBelow (a : Arena S α) (i : Index) : Set S.Sub :=
  {c | ∃ path j l r p t, a.follow path i = some j ∧ a.entries[j]? = some ⟨.fork c l r, p, t⟩}

-- The cuts of the nodes above a node, each with the side on which the node is.
def wallsAbove (a : Arena S α) (i : Index) : Set (Wall S) :=
  {wall | ∃ k path l r p t, a.Reachable k ∧ a.entries[k]? = some ⟨.fork wall.cut l r, p, t⟩ ∧
    a.follow (wall.side :: path) k = some i}

theorem Holds.mem_cutsBelow (h : a.Holds p n) : c ∈ a.cutsBelow n.id ↔ c ∈ n.cuts := by
  rw [Node.mem_cuts_iff_at?]
  constructor
  case mp =>
    rintro ⟨path, j, l, r, q, t, hj, he⟩
    rw [h.follow, Option.map_eq_some_iff] at hj
    obtain ⟨m, hm, rfl⟩ := hj
    obtain ⟨q', hq⟩ := h.at? hm
    cases m
    case leaf => cases hq.symm.trans he
    case fork => cases hq.1.symm.trans he; exact ⟨path, _, _, _, _, hm⟩
  case mpr =>
    rintro ⟨path, i, t, l, r, hm⟩
    obtain ⟨q, hq⟩ := h.at? hm
    exact ⟨path, i, _, _, _, _, h.follow.trans <| Option.map_eq_some_iff.mpr ⟨_, hm, rfl⟩, hq.1⟩

theorem Located.side (h : a.Located up cell forks (.fork i t c l r)) (b : Branch) :
    a.Located (some (i, b)) (⟨c, b⟩ :: cell) (i :: forks) (b.pick l r) := by
  cases b
  case plus  => exact h.plus
  case minus => exact h.minus

theorem Located.vacant (h : a.Located place cell forks n) : a.Vacant place (· = n.id) := by
  rintro q rfl c l r p t he rfl
  obtain ⟨c', l', r', p', t', he', hb⟩ := h.hangs
  cases he.symm.trans he'
  cases hb.trans (if_pos rfl)

-- A fork that gets the child it has stays as it is.
theorem Attaches.entry_eq {a' : Arena S α} {q : Nat} (h : a.Attaches i a' (some (q, b)))
    (hq : a.child? b q = some i) : a'.entries[q]? = a.entries[q]? := by
  obtain ⟨c, l, r, p, t, he, rfl⟩ := child?_eq_some.mp hq
  refine h.trans ?_
  rw [he]
  cases b <;> rfl

-- A partition that takes the place of another one, without new nodes, changes only nodes of that
-- one.
theorem Places.entry_eq {a' : Arena S α} {q j : Nat} {m : Node S Nat α}
    (h : a.Places (· ∈ n.ids) (some (q, b)) cell forks a' m) (hm : a.child? b q = some m.id)
    (hs : a'.entries.size = a.entries.size) (hj : j ∉ n.ids) : a'.entries[j]? = a.entries[j]? := by
  by_cases hlt : j < a.entries.size
  case neg =>
    rw [Array.getElem?_eq_none (hs ▸ not_lt.mp hlt), Array.getElem?_eq_none (not_lt.mp hlt)]
  case pos =>
    by_cases hjq : j = q
    case pos => exact hjq ▸ h.attaches.entry_eq hm
    case neg =>
      refine h.evolves.same <| not_free.mpr ⟨hlt, fun h => ?_⟩
      exact h.elim hj fun h => hjq (Option.some.inj h).symm

-- A node that is not the root hangs on a side of a fork, and the cuts above it are the walls of its
-- cell.
theorem WellFormed.exists_located (ha : a.WellFormed) (hi : a.Reachable i) (hr : i ≠ a.root) :
    ∃ q b cell forks m, m.id = i ∧ a.Located (some (q, b)) cell forks m ∧ a.child? b q = some i ∧
      ∀ wall ∈ a.wallsAbove i, wall ∈ cell := by
  obtain ⟨n, hn, hroot, hd⟩ := ha.exists_holds
  obtain ⟨path, hpath⟩ := hi
  obtain rfl | ⟨path, b, rfl⟩ := path.eq_nil_or_concat'
  case inl => exact absurd (Option.some.inj hpath).symm hr
  have hf := hpath
  rw [← hroot, hn.follow, Option.map_eq_some_iff] at hf
  obtain ⟨m, hm, rfl⟩ := hf
  obtain ⟨q, t, c, l, r, hq, hm⟩ := Node.exists_fork hm
  obtain rfl : b.pick l r = m := Option.some.inj hm
  obtain ⟨cell, up, forks, hc, hl⟩ := hn.located hd hq
  refine ⟨q, b, ⟨c, b⟩ :: cell, q :: forks, b.pick l r, rfl, hl.side b, ?child, ?walls⟩
  case child => exact child?_eq_some.mpr ⟨c, _, _, _, _, hl.holds.1, (Branch.apply_pick _).symm⟩
  case walls =>
    rintro ⟨c', b'⟩ ⟨k, path', l', r', p', t', ⟨pathk, hk⟩, he, hki⟩
    have hp : pathk ++ b' :: path' = path ++ [b] := by
      refine ha.once (follow_append.trans ?_) hpath
      rw [hk]
      exact hki
    rw [← hroot, hn.follow, Option.map_eq_some_iff] at hk
    obtain ⟨nk, hk, rfl⟩ := hk
    obtain ⟨_, hnk⟩ := hn.at? hk
    cases nk
    case leaf => cases hnk.symm.trans he
    case fork =>
      cases hnk.1.symm.trans he
      have hc' : n.locateIn [] (pathk ++ b' :: path') = some (⟨c, b⟩ :: cell, b.pick l r) := by
        rw [hp, Node.locateIn_append, show n.locateIn [] path = _ from hc]
        cases b <;> rfl
      exact Node.mem_of_locateIn hc' hk

theorem put_eq_self (he : a.entries[i]? = some e) : a.put i e = a := by
  refine congrArg (Arena.mk · a.root) <| Array.ext_getElem? fun j => ?_
  by_cases hj : j = i
  case pos => rw [hj, he]; exact entry_put_self (lt_of_entry he)
  case neg => exact entry_put_of_ne hj

namespace Action

open Index

section Runs

variable {fix : Handler S α σ ε} {h : S.Hyperplane} {s : σ}

theorem run_update_self {f : Entry S α → Entry S α} (he : a.entries[i]? = some e) (hf : f e = e) :
    (update i f : Action S α σ ε Unit) (a, s) = some (.ok ((), a, s)) := by
  rw [run_update he, hf, put_eq_self he]

theorem run_slot (he : a.entries[i]? = some e) (hp : e.parent = up.map Prod.fst)
    (hh : a.Hangs i up) :
    (slot i : Action S α σ ε _) (a, s) = some (.ok (up, a, s)) := by
  obtain ⟨link, parent, attr⟩ := e
  cases hp
  cases up
  case none      => exact run_slot_root he
  case some slot =>
    obtain ⟨q, b⟩ := slot
    obtain ⟨c, l, r, p, t, hq, rfl⟩ := hh
    exact run_slot_fork he hq

theorem run_twoChildren {l r : Nat} (he : a.entries[i]? = some ⟨.fork c l r, p, t⟩) :
    (twoChildren i : Action S α σ ε _) (a, s) = some (.ok ((l, r), a, s)) :=
  run_bind (run_children he)

theorem run_isLeaf (he : a.entries[i]? = some (n.entry p)) :
    (isLeaf i : Action S α σ ε _) (a, s) = some (.ok (n.isLeaf, a, s)) := by
  refine (run_bind (run_children he)).trans ?_
  cases n <;> rfl

theorem run_areLeaves {q : Option Nat} (hl : a.entries[l.id]? = some (l.entry p))
    (hr : a.entries[r.id]? = some (r.entry q)) :
    (isLeaf l.id <&&> isLeaf r.id : Action S α σ ε _) (a, s) =
      some (.ok (l.isLeaf && r.isLeaf, a, s)) := by
  refine (run_bind (run_isLeaf hl)).trans ?_
  cases l.isLeaf
  case false => rfl
  case true  => exact run_isLeaf hr

-- Setting the cut that a fork has.
theorem run_setCut_self (hn : a.Holds p (.fork i t c l r)) :
    (update i (.setCut c) : Action S α σ ε Unit) (a, s) = some (.ok ((), a, s)) :=
  run_update_self hn.1 rfl

theorem run_chop (hn : a.Holds p n) (hc : ∀ s ∈ n.cuts, (S.split s h).on b = some s) :
    (chop fix h b n.id : Action S α σ ε Unit) (a, s) = some (.ok ((), a, s)) := by
  induction n generalizing p
  case leaf =>
    rw [chop]
    exact run_bind (run_children hn)
  case fork c l r hl hr =>
    obtain ⟨hc, cl, cr⟩ := Node.forall_cuts_fork.mp hc
    rw [chop]
    refine (run_bind (run_children hn.1)).trans <| (run_bind (run_cut hn.1)).trans ?_
    refine (run_bind (hl hn.2.1 cl)).trans <| (run_bind (hr hn.2.2 cr)).trans ?_
    rw [hc]
    exact run_setCut_self hn

-- The walk up has come to `current`, a node with the walls `walls` around it.
theorem run_chopAbove {current : Nat} (hn : a.Holds p (.fork i t c l r))
    (hu : a.Above up walls forks) (he : a.entries[current]? = some e)
    (hp : e.parent = up.map Prod.fst) (hh : a.Hangs current up)
    (hc : (Node.fork i t c l r).KeptBy walls) :
    (chopAbove fix i current : Action S α σ ε Unit) (a, s) = some (.ok ((), a, s)) := by
  induction hu generalizing current e
  case root =>
    rw [chopAbove]
    exact run_bind (run_slot he hp hh)
  case wall hq hq' _ _ ih =>
    obtain ⟨hw, hc⟩ := List.forall_mem_cons.mp hc
    obtain ⟨hw, wl, wr⟩ := Node.forall_cuts_fork.mp hw
    rw [chopAbove]
    refine (run_bind (run_slot he hp hh)).trans <| (run_bind (run_cut hq)).trans ?_
    refine (run_bind (run_cut hn.1)).trans <| (run_bind (run_twoChildren hn.1)).trans ?_
    refine (run_bind (run_chop hn.2.1 wl)).trans <| (run_bind (run_chop hn.2.2 wr)).trans ?_
    rw [hw]
    refine (run_bind (run_setCut_self hn)).trans ?_
    exact ih hq rfl hq' hc

variable [DecidableEq α]

theorem run_condense (hn : a.Holds p n) (hc : n.bare.condense = n.bare) :
    (condense n.id : Action S α σ ε Unit) (a, s) = some (.ok ((), a, s)) := by
  cases n
  case leaf => exact run_bind (run_children hn)
  case fork i t c l r =>
    obtain ⟨he, hl, hr⟩ := hn
    refine (run_bind (run_children he)).trans <|
      (run_bind (run_areLeaves hl.entry hr.entry)).trans ?_
    cases l
    case fork => rfl
    case leaf j tl =>
      cases r
      case fork => rfl
      case leaf k tr =>
        refine (run_bind (run_entry hl)).trans <| (run_bind (run_entry hr)).trans ?_
        have ht : tl ≠ tr := fun ht => by simp [Node.condense, ht] at hc
        exact congrFun (if_neg ht) _

theorem run_insertIn (hn : a.Located place cell forks n)
    (hq : ∀ q b, place = some (q, b) → a.child? b q = some n.id)
    (hk : n.KeptBy cell) (hc : n.bare.condense = n.bare) :
    (insertIn fix n.id place : Action S α σ ε Unit) (a, s) = some (.ok ((), a, s)) := by
  have hh : (hang n.id place : Action S α σ ε Unit) (a, s) = some (.ok ((), a, s)) := by
    have hp := Node.setParent_entry (n := n) (p := place.map Prod.fst) (q := place.map Prod.fst)
    rcases place with _ | ⟨q, b⟩
    case none => exact run_update_self hn.holds.entry hp
    case some =>
      obtain ⟨c, l, r, p, t, he, hi⟩ := child?_eq_some.mp (hq q b rfl)
      refine (run_bind <| run_update_self he ?_).trans (run_update_self hn.holds.entry hp)
      cases b <;> cases hi <;> rfl
  refine (run_bind hh).trans <| (run_bind (run_isLeaf hn.holds.entry)).trans ?_
  cases n
  case leaf => rfl
  case fork =>
    refine (run_bind <| run_chopAbove hn.holds hn.walls hn.holds.1 rfl hn.hangs hk).trans ?_
    exact run_condense hn.holds hc

end Runs
end Action
end Arena
end SpacePartition
