import Mathlib.Data.Finset.Card
import Mathlib.Data.Finset.Range
import SpacePartition.Proofs.Arena.Compact

/-!
Well-formed arenas. They are the ones whose links, followed from the root, lay out a partition.
-/

namespace SpacePartition

variable {R : Type} {S : Space R} {ι α : Type}

namespace Node

variable {n m m' l r : Node S ι α} {path path' : Path} {i : ι}

theorem mem_ids_iff_at? : i ∈ n.ids ↔ ∃ path m, n.at? path = some m ∧ m.id = i := by
  induction n
  case leaf j t =>
    constructor
    case mp  => exact fun h => ⟨[], _, rfl, (List.mem_singleton.mp h).symm⟩
    case mpr =>
      rintro ⟨_ | _, m, h, rfl⟩ <;> cases h
      exact List.mem_singleton_self _
  case fork j t c l r hl hr =>
    rw [mem_ids_fork, hl, hr]
    constructor
    case mp =>
      rintro (⟨path, m, h⟩ | ⟨path, m, h⟩ | rfl)
      case inl     => exact ⟨.plus :: path, m, h⟩
      case inr.inl => exact ⟨.minus :: path, m, h⟩
      case inr.inr => exact ⟨[], _, rfl, rfl⟩
    case mpr =>
      rintro ⟨_ | ⟨_ | _, path⟩, m, h, hi⟩
      case nil        => cases h; exact .inr <| .inr hi.symm
      case cons.plus  => exact .inl ⟨path, m, h, hi⟩
      case cons.minus => exact .inr <| .inl ⟨path, m, h, hi⟩

theorem ids_subset (h : n.at? path = some m) : m.ids ⊆ n.ids := by
  intro j hj
  obtain ⟨path', k, hk, hi⟩ := mem_ids_iff_at?.mp hj
  refine mem_ids_iff_at?.mpr ⟨path ++ path', k, ?_, hi⟩
  rw [at?_append, h]
  exact hk

theorem at?_injective (hn : n.ids.Nodup) (h : n.at? path = some m) (h' : n.at? path' = some m')
    (hm : m.id = i) (hm' : m'.id = i) : path = path' := by
  have mem {n m : Node S ι α} {path} (h : n.at? path = some m) (hm : m.id = i) : i ∈ n.ids :=
    mem_ids_iff_at?.mpr ⟨path, m, h, hm⟩
  induction n generalizing path path'
  case leaf =>
    cases path <;> cases h
    cases path' <;> cases h'
    rfl
  case fork j t c l r hl hr =>
    obtain ⟨nl, nr, hd, hjl, hjr⟩ := nodup_fork.mp hn
    have root {m} (h : (fork j t c l r).at? [] = some m) (hm : m.id = i) : j = i := by
      cases h
      exact hm
    rcases path with _ | ⟨_ | _, path⟩ <;> rcases path' with _ | ⟨_ | _, path'⟩
    case nil.nil               => rfl
    case nil.cons.plus         => exact (hjl <| root h hm ▸ mem (n := l) h' hm').elim
    case nil.cons.minus        => exact (hjr <| root h hm ▸ mem (n := r) h' hm').elim
    case cons.plus.nil         => exact (hjl <| root h' hm' ▸ mem (n := l) h hm).elim
    case cons.minus.nil        => exact (hjr <| root h' hm' ▸ mem (n := r) h hm).elim
    case cons.plus.cons.plus   => exact congrArg _ <| hl nl h h'
    case cons.minus.cons.minus => exact congrArg _ <| hr nr h h'
    case cons.plus.cons.minus  => exact (hd i (mem (n := l) h hm) <| mem (n := r) h' hm').elim
    case cons.minus.cons.plus  => exact (hd i (mem (n := l) h' hm') <| mem (n := r) h hm).elim

end Node

@[simp]
theorem Node.parent_entry {n : Node S Nat α} {p : Option Nat} : (n.entry p).parent = p := by
  cases n <;> rfl

namespace Arena

variable {a : Arena S α} {p : Option Nat} {n m : Node S Nat α} {i j : Nat} {path path' : Path}
variable {b : Branch}

def child? (a : Arena S α) (b : Branch) (i : Nat) : Option Nat :=
  match a.entries[i]? with
  | some ⟨.fork _ l r, _, _⟩ => some (b.pick l r)
  | _                        => none

-- The node at the end of a path.
def follow (a : Arena S α) : Path → Nat → Option Nat
  | [], i        => some i
  | b :: path, i => (a.child? b i).bind (a.follow path)

def Reachable (a : Arena S α) (i : Nat) : Prop :=
  ∃ path, a.follow path a.root = some i

structure WellFormed (a : Arena S α) : Prop where
  root  : ∃ e, a.entries[a.root]? = some e ∧ e.parent = none
  links {i : Nat} {c l r p t} : a.Reachable i → a.entries[i]? = some ⟨.fork c l r, p, t⟩ →
    l ≠ r ∧ (∃ e, a.entries[l]? = some e ∧ e.parent = some i) ∧
      ∃ e, a.entries[r]? = some e ∧ e.parent = some i
  once {path path' : Path} {i : Nat} :
    a.follow path a.root = some i → a.follow path' a.root = some i → path = path'

theorem follow_append :
    a.follow (path ++ path') i = (a.follow path i).bind (a.follow path') := by
  induction path generalizing i
  case nil          => rfl
  case cons b _ ih  =>
    simp only [List.cons_append, follow]
    cases a.child? b i
    case none => rfl
    case some => exact ih

theorem follow_concat : a.follow (path ++ [b]) i = (a.follow path i).bind (a.child? b) := by
  rw [follow_append]
  congr 1
  funext j
  exact Option.bind_fun_some _

theorem child?_eq_some : a.child? b i = some j ↔
    ∃ c l r p t, a.entries[i]? = some ⟨.fork c l r, p, t⟩ ∧ b.pick l r = j := by
  rw [child?]
  constructor
  case mp =>
    split
    case h_1 c l r p t he => exact fun h => ⟨c, l, r, p, t, he, Option.some.inj h⟩
    case h_2              => exact fun h => nomatch h
  case mpr =>
    rintro ⟨c, l, r, p, t, he, rfl⟩
    rw [he]

section Holds

variable (h : a.Holds p n)

include h

theorem Holds.at? (hm : n.at? path = some m) : ∃ p, a.Holds p m := by
  induction n generalizing p path
  case leaf =>
    cases path <;> cases hm
    exact ⟨p, h⟩
  case fork i t c l r hl hr =>
    rcases path with _ | ⟨_ | _, path⟩
    case nil        => cases hm; exact ⟨p, h⟩
    case cons.plus  => exact hl h.2.1 hm
    case cons.minus => exact hr h.2.2 hm

-- The links of a held partition lead where the partition does.
theorem Holds.follow : a.follow path n.id = (n.at? path).map Node.id := by
  induction n generalizing p path
  case leaf i t =>
    cases path
    case nil  => rfl
    case cons => rw [Arena.follow, child?, h.entry]; rfl
  case fork i t c l r hl hr =>
    rcases path with _ | ⟨_ | _, path⟩
    case nil        => rfl
    case cons.plus  => rw [Arena.follow, child?, h.entry]; exact hl h.2.1
    case cons.minus => rw [Arena.follow, child?, h.entry]; exact hr h.2.2

variable (hr : n.id = a.root)

include hr

theorem Holds.reachable_iff : a.Reachable i ↔ i ∈ n.ids := by
  simp only [Reachable, ← hr, h.follow, Option.map_eq_some_iff, Node.mem_ids_iff_at?]

theorem Holds.wellFormed (hp : p = none) (hn : n.ids.Nodup) : a.WellFormed where
  root := ⟨_, hr ▸ h.entry, Node.parent_entry.trans hp⟩
  links {i c l r p t} hi he := by
    obtain ⟨path, hi⟩ := hi
    rw [← hr, h.follow] at hi
    obtain ⟨m, hm, rfl⟩ := Option.map_eq_some_iff.mp hi
    obtain ⟨q, hq⟩ := h.at? hm
    cases m
    case leaf => cases hq.symm.trans he
    case fork c l r =>
      cases hq.1.symm.trans he
      refine ⟨fun hlr => ?_, ⟨_, hq.2.1.entry, Node.parent_entry⟩,
        _, hq.2.2.entry, Node.parent_entry⟩
      have hl : n.at? (path ++ [.plus]) = some l := by rw [Node.at?_append, hm]; rfl
      have hr : n.at? (path ++ [.minus]) = some r := by rw [Node.at?_append, hm]; rfl
      have := Node.at?_injective hn hl hr hlr rfl
      simp at this
  once {path path' i} hi hi' := by
    rw [← hr, h.follow] at hi hi'
    obtain ⟨m, hm, him⟩ := Option.map_eq_some_iff.mp hi
    obtain ⟨m', hm', him'⟩ := Option.map_eq_some_iff.mp hi'
    exact Node.at?_injective hn hm hm' him him'

end Holds

section Represents

variable {n : Node S ι α} (h : a.Represents (.ofNode n))

include h

theorem Represents.wellFormed : a.WellFormed :=
  h.holds.wellFormed h.root rfl Node.nodup_number

theorem Represents.reachable (i : Nat) (hi : i < a.entries.size) : a.Reachable i := by
  refine (h.holds.reachable_iff h.root).mpr ?_
  rw [h.size] at hi
  simpa [Tree.ofNode] using hi

end Represents

namespace WellFormed

variable (h : a.WellFormed)

include h

theorem exists_entry (hi : a.Reachable i) : ∃ e, a.entries[i]? = some e := by
  obtain ⟨path, hi⟩ := hi
  induction path using List.reverseRecOn generalizing i
  case nil =>
    obtain ⟨e, he, -⟩ := h.root
    exact ⟨e, Option.some.inj hi ▸ he⟩
  case append_singleton path b _ =>
    rw [follow_concat, Option.bind_eq_some_iff] at hi
    obtain ⟨j, hj, hi⟩ := hi
    obtain ⟨c, l, r, p, t, he, rfl⟩ := child?_eq_some.mp hi
    obtain ⟨-, ⟨l, hl, -⟩, r, hr, -⟩ := h.links ⟨path, hj⟩ he
    cases b
    case plus  => exact ⟨l, hl⟩
    case minus => exact ⟨r, hr⟩

-- No path is as long as there are entries, as it would come by one of them twice.
theorem length_lt (hi : a.follow path a.root = some i) : path.length < a.entries.size := by
  have visit (k : Nat) : ∃ j, a.follow (path.take k) a.root = some j := by
    rw [← path.take_append_drop k, follow_append, Option.bind_eq_some_iff] at hi
    obtain ⟨j, hj, -⟩ := hi
    exact ⟨j, hj⟩
  choose f hf using visit
  by_contra hle
  have hcard : (Finset.range (path.length + 1)).card ≤ (Finset.range a.entries.size).card := by
    refine Finset.card_le_card_of_injOn f (fun k _ => ?lt) fun k hk k' hk' he => ?injective
    case lt =>
      obtain ⟨e, he⟩ := h.exists_entry ⟨_, hf k⟩
      exact Finset.mem_coe.mpr <| Finset.mem_range.mpr <| lt_of_entry he
    case injective =>
      have := congrArg List.length <| h.once (hf k) (he ▸ hf k')
      simp only [List.length_take, Finset.coe_range, Set.mem_Iio] at this hk hk'
      omega
  simp only [Finset.card_range] at hcard
  omega

-- The induction is on the length that is left to the paths.
theorem exists_holds_of_length {k : Nat} {e : Entry S α} (hi : a.follow path a.root = some i)
    (he : a.entries[i]? = some e) (hk : a.entries.size ≤ path.length + k) :
    ∃ n, a.Holds e.parent n ∧ n.id = i ∧ n.ids.Nodup ∧
      ∀ j ∈ n.ids, ∃ path', a.follow (path ++ path') a.root = some j := by
  induction k generalizing path i e
  case zero => exact absurd (h.length_lt hi) hk.not_gt
  case succ k ih =>
    obtain ⟨_ | ⟨c, l, r⟩, p, t⟩ := e
    case leaf =>
      refine ⟨.leaf i t, he, rfl, List.nodup_singleton _, fun j hj => ⟨[], ?_⟩⟩
      rwa [List.append_nil, List.mem_singleton.mp hj]
    case fork =>
      have side (b : Branch) : a.follow (path ++ [b]) a.root = some (b.pick l r) := by
        rw [follow_concat, hi]
        exact child?_eq_some.mpr ⟨c, l, r, p, t, he, rfl⟩
      obtain ⟨-, ⟨el, hel, hpl⟩, er, her, hpr⟩ := h.links ⟨path, hi⟩ he
      obtain ⟨l, hl, rfl, dl, pl⟩ := ih (side .plus) hel (by simp; omega)
      obtain ⟨r, hr, rfl, dr, pr⟩ := ih (side .minus) her (by simp; omega)
      have unique {path₁ path₂ j} (h₁ : a.follow (path ++ path₁) a.root = some j)
          (h₂ : a.follow (path ++ path₂) a.root = some j) : path₁ = path₂ :=
        List.append_cancel_left <| h.once h₁ h₂
      have here : a.follow (path ++ []) a.root = some i := by rwa [List.append_nil]
      simp only [List.append_assoc] at pl pr
      refine ⟨.fork i t c l r, ⟨he, hpl ▸ hl, hpr ▸ hr⟩, rfl, Node.nodup_fork.mpr ⟨dl, dr,
        fun j hjl hjr => ?apart, fun hil => ?plus, fun hir => ?minus⟩, fun j hj => ?paths⟩
      case apart =>
        obtain ⟨path₁, h₁⟩ := pl j hjl
        obtain ⟨path₂, h₂⟩ := pr j hjr
        cases unique h₁ h₂
      case plus =>
        obtain ⟨path₁, h₁⟩ := pl i hil
        cases unique h₁ here
      case minus =>
        obtain ⟨path₁, h₁⟩ := pr i hir
        cases unique h₁ here
      case paths =>
        rcases Node.mem_ids_fork.mp hj with hj | hj | rfl
        case inl     => exact (pl j hj).imp' ([.plus] ++ ·) fun _ hj => hj
        case inr.inl => exact (pr j hj).imp' ([.minus] ++ ·) fun _ hj => hj
        case inr.inr => exact ⟨[], here⟩

theorem exists_holds : ∃ n, a.Holds none n ∧ n.id = a.root ∧ n.ids.Nodup := by
  obtain ⟨e, he, hp⟩ := h.root
  have hroot : a.follow [] a.root = some a.root := rfl
  obtain ⟨n, hn, hi, hd, -⟩ := h.exists_holds_of_length hroot he (Nat.le_add_left ..)
  exact ⟨n, hp ▸ hn, hi, hd⟩

theorem exists_holds_below (hi : a.Reachable i) : ∃ p n, a.Holds p n ∧ n.id = i ∧ n.ids.Nodup := by
  obtain ⟨e, he⟩ := h.exists_entry hi
  obtain ⟨path, hi⟩ := hi
  obtain ⟨n, hn, hid, hd, -⟩ := h.exists_holds_of_length hi he (Nat.le_add_left ..)
  exact ⟨_, n, hn, hid, hd⟩

end WellFormed
end Arena
end SpacePartition
