import Mathlib.Data.List.Nodup
import Mathlib.Order.Nat
import SpacePartition.Node.Lemmas
import SpacePartition.Proofs.Arena.Yields

/-!
Partitions that an arena holds. A held partition has the indices of its entries as identifiers. An
action leaves alone what it is not given: of the entries that the arena had before, it changes those
of its arguments only.
-/

namespace SpacePartition

variable {R : Type} {S : Space R} {α σ ε : Type}

namespace Node

section Ids

variable {ι κ : Type} {n l r : Node S ι α} {i : ι} {t : Option α} {c : S.Sub}

theorem id_mem_ids : n.id ∈ n.ids := by
  cases n <;> simp [id, ids]

theorem nodup_fork : (fork i t c l r).ids.Nodup ↔
    l.ids.Nodup ∧ r.ids.Nodup ∧ (∀ j ∈ l.ids, j ∉ r.ids) ∧ i ∉ l.ids ∧ i ∉ r.ids := by
  simp only [ids, List.nodup_append, List.mem_append, List.mem_singleton, List.nodup_singleton]
  grind

theorem mem_ids_fork {j : ι} : j ∈ (fork i t c l r).ids ↔ j ∈ l.ids ∨ j ∈ r.ids ∨ j = i := by
  simp [ids]

-- A partition up to its identifiers.
def bare (n : Node S ι α) : Node S Unit α :=
  n.relabel fun _ => ()

@[simp]
theorem bare_leaf : (leaf i t : Node S ι α).bare = leaf () t :=
  rfl

@[simp]
theorem bare_fork : (fork i t c l r).bare = fork () t c l.bare r.bare :=
  rfl

theorem bare_condense [DecidableEq α] : n.condense.bare = n.bare.condense := by
  rcases n with _ | ⟨_, _, _, _ | _, _ | _⟩
  case fork.leaf.leaf => simp only [condense, bare_fork, bare_leaf]; split <;> rfl
  all_goals rfl

-- A partition with other attributes at its leaves.
def mark (f : Option α → Option α) : Node S ι α → Node S ι α
  | leaf i t       => leaf i (f t)
  | fork i t c l r => fork i t c (l.mark f) (r.mark f)

end Ids

-- The entry of the root of a partition that is held.
def entry (p : Option Nat) : Node S Nat α → Entry S α
  | leaf _ t       => ⟨.leaf, p, t⟩
  | fork _ t c l r => ⟨.fork c l.id r.id, p, t⟩

@[simp]
theorem setParent_entry {n : Node S Nat α} {p q : Option Nat} :
    (n.entry p).setParent q = n.entry q := by
  cases n <;> rfl

end Node

namespace Arena

-- Whether an arena holds a partition, whose root has a given parent.
def Holds (a : Arena S α) : Option Nat → Node S Nat α → Prop
  | p, .leaf i t       => a.entries[i]? = some ⟨.leaf, p, t⟩
  | p, .fork i t c l r =>
    a.entries[i]? = some ⟨.fork c l.id r.id, p, t⟩ ∧ a.Holds (some i) l ∧ a.Holds (some i) r

-- The indices that a change of given entries may use: these, and those of new entries.
def Free (a : Arena S α) (X : Nat → Prop) (i : Nat) : Prop :=
  i < a.entries.size → X i

-- Whether a partition is made of given entries and of new ones.
def MadeOf (a : Arena S α) (X : Nat → Prop) (n : Node S Nat α) : Prop :=
  ∀ i ∈ n.ids, a.Free X i

-- Whether an arena comes from another one by changes of given entries and by new entries.
structure Evolves (a : Arena S α) (X : Nat → Prop) (a' : Arena S α) : Prop where
  size_le : a.entries.size ≤ a'.entries.size
  same {i : Nat} : ¬a.Free X i → a'.entries[i]? = a.entries[i]?

variable {a a' a'' : Arena S α} {X Y Z : Nat → Prop} {e : Entry S α} {i : Nat} {p q : Option Nat}
variable {n m : Node S Nat α}

section Evolves

theorem evolves_refl : a.Evolves X a :=
  ⟨le_rfl, fun _ => rfl⟩

theorem not_free : ¬a.Free X i ↔ i < a.entries.size ∧ ¬X i :=
  Classical.not_imp

theorem free_of_size_le (h : a.entries.size ≤ i) : a.Free X i :=
  fun hi => absurd h hi.not_ge

theorem Evolves.mono (h : a.Evolves X a') (hX : ∀ i, X i → Y i) : a.Evolves Y a' where
  size_le := h.size_le
  same hi := h.same fun hf => hi fun hlt => hX _ (hf hlt)

theorem Evolves.free (h : a.Evolves Z a') (hY : ∀ i, Y i → a.Free X i) (hi : a'.Free Y i) :
    a.Free X i :=
  fun hlt => hY _ (hi <| hlt.trans_le h.size_le) hlt

theorem Evolves.trans (h : a.Evolves X a') (h' : a'.Evolves Y a'') (hY : ∀ i, Y i → a.Free X i) :
    a.Evolves X a'' where
  size_le := h.size_le.trans h'.size_le
  same hi := by rw [h'.same fun hf => hi <| h.free hY hf, h.same hi]

theorem Evolves.put (h : a.Evolves X a') (hi : a.Free X i) : a.Evolves X (a'.put i e) where
  size_le := h.size_le.trans_eq size_put.symm
  same {j} hj := by
    have hne : j ≠ i := fun he => hj (he ▸ hi)
    rw [entry_put_of_ne hne, h.same hj]

theorem Evolves.push (h : a.Evolves X a') : a.Evolves X (a'.push e) where
  size_le := h.size_le.trans <| (Nat.le_succ _).trans_eq size_push.symm
  same hj := by
    have hlt := (not_free.mp hj).1.trans_le h.size_le
    rw [entry_push_of_lt hlt, h.same hj]

theorem Evolves.entry (h : a.Evolves X a') (he : a.entries[i]? = some e) (hX : ¬X i) :
    a'.entries[i]? = some e :=
  (h.same fun hf => hX <| hf <| lt_of_entry he).trans he

end Evolves

section Holds

theorem Holds.entry (h : a.Holds p n) : a.entries[n.id]? = some (n.entry p) := by
  cases n
  case leaf => exact h
  case fork => exact h.1

theorem Holds.lt (h : a.Holds p n) (hi : i ∈ n.ids) : i < a.entries.size := by
  induction n generalizing p
  case leaf => cases List.mem_singleton.mp hi; exact lt_of_entry h
  case fork hl hr =>
    rcases Node.mem_ids_fork.mp hi with hi | hi | rfl
    case inl       => exact hl h.2.1 hi
    case inr.inl   => exact hr h.2.2 hi
    case inr.inr   => exact lt_of_entry h.1

theorem Holds.congr (h : a.Holds p n) (he : ∀ i ∈ n.ids, a'.entries[i]? = a.entries[i]?) :
    a'.Holds p n := by
  induction n generalizing p
  case leaf => exact (he _ Node.id_mem_ids).trans h
  case fork hl hr =>
    refine ⟨(he _ Node.id_mem_ids).trans h.1, hl h.2.1 ?plus, hr h.2.2 ?minus⟩ <;> intro i hi
    case plus  => exact he i <| Node.mem_ids_fork.mpr <| .inl hi
    case minus => exact he i <| Node.mem_ids_fork.mpr <| .inr <| .inl hi

theorem Evolves.holds (h : a.Evolves X a') (hn : a.Holds p n) (hX : ∀ i ∈ n.ids, ¬X i) :
    a'.Holds p n :=
  hn.congr fun i hi => h.same fun hf => hX i hi <| hf <| hn.lt hi

theorem Evolves.madeOf (h : a.Evolves Z a') (hY : ∀ i, Y i → a.Free X i) (hm : a'.MadeOf Y m) :
    a.MadeOf X m :=
  fun i hi => h.free hY (hm i hi)

-- What is made of other nodes shares none with a partition that was held before.
theorem MadeOf.apart (hm : a.MadeOf X m) (hn : a.Holds p n) (hX : ∀ i ∈ n.ids, ¬X i) :
    ∀ i ∈ m.ids, i ∉ n.ids :=
  fun i him hin => hX i hin <| hm i him <| hn.lt hin

theorem Holds.put (h : a.Holds p n) (hi : i ∉ n.ids) : (a.put i e).Holds p n :=
  h.congr fun _ hj => entry_put_of_ne fun he => hi (he ▸ hj)

theorem Holds.push (h : a.Holds p n) : (a.push e).Holds p n :=
  h.congr fun _ hj => entry_push_of_lt (h.lt hj)

-- The root of a held partition may be hung up elsewhere.
theorem Holds.hang (h : a.Holds p n) (hn : n.ids.Nodup) :
    (a.put n.id (n.entry q)).Holds q n := by
  have hlt := h.lt Node.id_mem_ids
  cases n
  case leaf => exact entry_put_self hlt
  case fork =>
    obtain ⟨-, -, -, hl, hr⟩ := Node.nodup_fork.mp hn
    exact ⟨entry_put_self hlt, h.2.1.put hl, h.2.2.put hr⟩

-- What an arena holds is fixed by where its root is.
theorem Holds.unique (hn : a.Holds p n) (hm : a.Holds q m) (h : n.id = m.id) : n = m := by
  induction n generalizing p q m
  case leaf i t =>
    cases m
    case leaf => cases h; cases Option.some.inj (hn.symm.trans hm); rfl
    case fork => cases h; cases Option.some.inj (hn.symm.trans hm.1)
  case fork i t c l r hl hr =>
    cases m
    case leaf => cases h; cases Option.some.inj (hn.1.symm.trans hm)
    case fork i' t' c' l' r' =>
      cases h
      have he := Option.some.inj (hn.1.symm.trans hm.1)
      simp only [Entry.mk.injEq, Link.fork.injEq] at he
      obtain ⟨⟨rfl, hil, hir⟩, -, rfl⟩ := he
      rw [hl hn.2.1 hm.2.1 hil, hr hn.2.2 hm.2.2 hir]

end Holds

end Arena
end SpacePartition
