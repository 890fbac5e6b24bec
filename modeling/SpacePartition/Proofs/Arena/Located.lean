import SpacePartition.Proofs.Arena.Split

/-!
Where a held partition hangs. The forks above it, read off the links to their parents, are the walls
of its cell.
-/

namespace SpacePartition

variable {R : Type} {S : Space R} {α σ ε : Type}

namespace Arena

-- Whether a node is taken to be in a slot, when the parent of the node is the one of the slot.
def Hangs (a : Arena S α) (i : Nat) : Option Slot → Prop
  | none        => True
  | some (q, b) =>
    ∃ c l r p t, a.entries[q]? = some ⟨.fork c l r, p, t⟩ ∧ b = if l = i then .plus else .minus

-- Whether the forks above a slot are the walls of a cell. None of them is above itself.
inductive Above (a : Arena S α) : Option Slot → Cell S → List Nat → Prop
  | root : a.Above none [] []
  | wall {q b up c l r t cell forks} :
    a.entries[q]? = some ⟨.fork c l r, up.map Prod.fst, t⟩ → a.Hangs q up → q ∉ forks →
      a.Above up cell forks → a.Above (some (q, b)) (⟨c, b⟩ :: cell) (q :: forks)

-- Whether a partition is held in a slot, with none of its nodes above itself.
structure Located (a : Arena S α) (up : Option Slot) (cell : Cell S) (forks : List Nat)
    (n : Node S Nat α) : Prop where
  walls : a.Above up cell forks
  hangs : a.Hangs n.id up
  holds : a.Holds (up.map Prod.fst) n
  nodup : n.ids.Nodup
  apart : ∀ j ∈ n.ids, j ∉ forks

variable {a a' : Arena S α} {X : Nat → Prop} {up : Option Slot} {cell : Cell S} {forks : List Nat}
variable {n m l r : Node S Nat α} {i : Nat} {t : Option α} {c : S.Sub} {b : Branch}

theorem Above.lt (h : a.Above up cell forks) (hi : i ∈ forks) : i < a.entries.size := by
  induction h
  case root => cases hi
  case wall he _ _ _ ih =>
    cases hi
    case head      => exact lt_of_entry he
    case tail _ hi => exact ih hi

-- The parent of a slot is the first fork above it.
theorem Above.mem (h : a.Above (some (i, b)) cell forks) : i ∈ forks := by
  cases h
  exact List.mem_cons_self

theorem Hangs.congr (h : a.Hangs i up)
    (he : ∀ slot ∈ up, a'.entries[slot.1]? = a.entries[slot.1]?) : a'.Hangs i up := by
  cases up
  case none      => trivial
  case some slot =>
    obtain ⟨c, l, r, p, t, hq, hb⟩ := h
    exact ⟨c, l, r, p, t, (he slot rfl).trans hq, hb⟩

theorem Above.congr (h : a.Above up cell forks)
    (he : ∀ j ∈ forks, a'.entries[j]? = a.entries[j]?) : a'.Above up cell forks := by
  induction h
  case root => exact .root
  case wall hq hh hn hu ih =>
    refine .wall ((he _ List.mem_cons_self).trans hq) (hh.congr fun slot hs => ?_) hn <|
      ih fun j hj => he j <| List.mem_cons_of_mem _ hj
    cases hs
    exact he _ <| List.mem_cons_of_mem _ hu.mem

theorem Evolves.above (h : a.Evolves X a') (hu : a.Above up cell forks) (hX : ∀ j ∈ forks, ¬X j) :
    a'.Above up cell forks :=
  hu.congr fun j hj => h.same fun hf => hX j hj <| hf <| hu.lt hj

theorem Evolves.hangs (h : a.Evolves X a') (hu : a.Above up cell forks) (hX : ∀ j ∈ forks, ¬X j)
    (hh : a.Hangs i up) : a'.Hangs i up := by
  refine hh.congr fun slot hs => ?_
  cases hs
  exact h.same fun hf => hX _ hu.mem <| hf <| hu.lt hu.mem

namespace Located

theorem plus (h : a.Located up cell forks (.fork i t c l r)) :
    a.Located (some (i, .plus)) (⟨c, .plus⟩ :: cell) (i :: forks) l where
  walls := .wall h.holds.1 h.hangs (h.apart i Node.id_mem_ids) h.walls
  hangs := ⟨c, l.id, r.id, _, t, h.holds.1, (if_pos rfl).symm⟩
  holds := h.holds.2.1
  nodup := (Node.nodup_fork.mp h.nodup).1
  apart j hj := by
    obtain ⟨-, -, -, hil, -⟩ := Node.nodup_fork.mp h.nodup
    exact List.not_mem_cons_of_ne_of_not_mem (fun he => hil (he ▸ hj)) <|
      h.apart j <| Node.mem_ids_fork.mpr <| .inl hj

theorem minus (h : a.Located up cell forks (.fork i t c l r)) :
    a.Located (some (i, .minus)) (⟨c, .minus⟩ :: cell) (i :: forks) r where
  walls := .wall h.holds.1 h.hangs (h.apart i Node.id_mem_ids) h.walls
  hangs := by
    obtain ⟨-, -, hd, -⟩ := Node.nodup_fork.mp h.nodup
    have hne : l.id ≠ r.id := fun he => hd _ l.id_mem_ids (he ▸ r.id_mem_ids)
    exact ⟨c, l.id, r.id, _, t, h.holds.1, (if_neg hne).symm⟩
  holds := h.holds.2.2
  nodup := (Node.nodup_fork.mp h.nodup).2.1
  apart j hj := by
    obtain ⟨-, -, -, -, hir⟩ := Node.nodup_fork.mp h.nodup
    exact List.not_mem_cons_of_ne_of_not_mem (fun he => hir (he ▸ hj)) <|
      h.apart j <| Node.mem_ids_fork.mpr <| .inr <| .inl hj

theorem reworks (h : a.Located up cell forks n) (hr : Reworks a (up.map Prod.fst) n a' m) :
    a'.Located up cell forks m where
  walls := hr.evolves.above h.walls fun j hj hn => h.apart j hn hj
  hangs := hr.id ▸ hr.evolves.hangs h.walls (fun j hj hn => h.apart j hn hj) h.hangs
  holds := hr.holds
  nodup := hr.nodup
  apart j hj := h.apart j (hr.subset hj)

end Located

namespace Action

open Index

theorem yields_slot {Q : Option Slot → Arena S α → Prop} {e : Entry S α}
    (he : a.entries[i]? = some e) (hp : e.parent = up.map Prod.fst) (hh : a.Hangs i up)
    (h : Q up a) :
    (slot i : Action S α σ ε _).Yields a Q := by
  refine yields_bind <| yields_entry he ?_
  rw [hp]
  cases up
  case none      => exact yields_pure h
  case some slot =>
    obtain ⟨c, l, r, p, t, hq, hb⟩ := hh
    refine yields_bind <| yields_children_fork hq <| yields_pure ?_
    rwa [← hb]

theorem yields_fit {Q : Option S.Sub → Arena S α → Prop} {sub : S.Sub} {e : Entry S α}
    (hu : a.Above up cell forks) (he : a.entries[i]? = some e) (hp : e.parent = up.map Prod.fst)
    (hh : a.Hangs i up) (h : Q (cell.fit sub) a) : (fit i sub : Action S α σ ε _).Yields a Q := by
  induction hu generalizing i e sub
  case root =>
    rw [fit]
    exact yields_bind <| yields_slot he hp hh <| yields_pure h
  case wall q b up c l r t cell forks hq hq' _ _ ih =>
    rw [fit]
    refine yields_bind <| yields_slot he hp hh <| yields_bind <| yields_cut hq ?_
    rw [Cell.fit] at h
    cases hs : (S.split sub (S.hyperplane c)).on b
    case none => exact yields_pure (by rwa [hs] at h)
    case some => exact ih hq rfl hq' (by rwa [hs] at h)

theorem yields_walls {Q : Cell S → Arena S α → Prop} {e : Entry S α} (hu : a.Above up cell forks)
    (he : a.entries[i]? = some e) (hp : e.parent = up.map Prod.fst) (hh : a.Hangs i up)
    (h : Q cell a) : (walls i : Action S α σ ε _).Yields a Q := by
  induction hu generalizing i e Q
  case root =>
    rw [walls]
    exact yields_bind <| yields_slot he hp hh <| yields_pure h
  case wall q b up c l r t cell forks hq hq' _ _ ih =>
    rw [walls]
    refine yields_bind <| yields_slot he hp hh <| yields_bind <| yields_cut hq <| yields_bind ?_
    exact ih hq rfl hq' <| yields_pure h

end Action
end Arena
end SpacePartition
