import SpacePartition.Proofs.Arena.Holds

/-!
Changes of a held partition in place. The root stays where it is, and the rest is made of nodes that
the partition had before.
-/

namespace SpacePartition.Arena

variable {R : Type} {S : Space R} {α σ ε : Type}

-- Whether an arena holds a partition `m` in the place where another arena holds `n`, with no other
-- change and no new entries.
structure Reworks (a : Arena S α) (p : Option Nat) (n : Node S Nat α) (a' : Arena S α)
    (m : Node S Nat α) : Prop where
  holds   : a'.Holds p m
  nodup   : m.ids.Nodup
  subset  : m.ids ⊆ n.ids
  id      : m.id = n.id
  evolves : a.Evolves (· ∈ n.ids) a'
  size    : a'.entries.size = a.entries.size

variable {a a' a'' : Arena S α} {p : Option Nat} {n m k l r l' r' : Node S Nat α} {i : Nat}
variable {t x : Option α} {c c' : S.Sub} {f : Option α → Option α}

theorem reworks_refl (h : a.Holds p n) (hn : n.ids.Nodup) : Reworks a p n a n :=
  ⟨h, hn, List.Subset.refl _, rfl, evolves_refl, rfl⟩

-- What shares no node with the partition is still held.
theorem Reworks.spares (h : Reworks a p n a' m) {q : Option Nat} (hk : a.Holds q k)
    (hd : ∀ j ∈ k.ids, j ∉ n.ids) : a'.Holds q k :=
  h.evolves.holds hk hd

theorem Reworks.trans (h : Reworks a p n a' m) (h' : Reworks a' p m a'' k) :
    Reworks a p n a'' k where
  holds   := h'.holds
  nodup   := h'.nodup
  subset  := List.Subset.trans h'.subset h.subset
  id      := h'.id.trans h.id
  evolves := h.evolves.trans h'.evolves fun _ hi _ => h.subset hi
  size    := h'.size.trans h.size

section Fork

variable (h : a.Holds p (.fork i t c l r)) (hn : (Node.fork i t c l r).ids.Nodup)

include h hn

theorem Reworks.plus (hl : Reworks a (some i) l a' l') :
    Reworks a p (.fork i t c l r) a' (.fork i t c l' r) := by
  obtain ⟨-, nr, hd, hil, hir⟩ := Node.nodup_fork.mp hn
  have hs := hl.subset
  refine ⟨⟨?entry, hl.holds, ?minus⟩, ?nodup, fun j hj => ?subset, rfl, ?evolves, hl.size⟩
  case entry   => rw [hl.id]; exact hl.evolves.entry h.1 hil
  case minus   => exact hl.evolves.holds h.2.2 fun j hj hjl => hd j hjl hj
  case nodup   =>
    refine Node.nodup_fork.mpr ⟨hl.nodup, nr, fun j hj => hd j (hs hj), fun hi => hil (hs hi), hir⟩
  case subset  =>
    rw [Node.mem_ids_fork] at hj ⊢
    exact hj.imp_left fun hj => hs hj
  case evolves =>
    exact evolves_refl.trans hl.evolves fun j hj _ => Node.mem_ids_fork.mpr (.inl hj)

theorem Reworks.minus (hr : Reworks a (some i) r a' r') :
    Reworks a p (.fork i t c l r) a' (.fork i t c l r') := by
  obtain ⟨nl, -, hd, hil, hir⟩ := Node.nodup_fork.mp hn
  have hs := hr.subset
  refine ⟨⟨?entry, ?plus, hr.holds⟩, ?nodup, fun j hj => ?subset, rfl, ?evolves, hr.size⟩
  case entry   => rw [hr.id]; exact hr.evolves.entry h.1 hir
  case plus    => exact hr.evolves.holds h.2.1 hd
  case nodup   =>
    refine Node.nodup_fork.mpr ⟨nl, hr.nodup, fun j hj hj' => hd j hj (hs hj'), hil,
      fun hi => hir (hs hi)⟩
  case subset  =>
    rw [Node.mem_ids_fork] at hj ⊢
    exact hj.imp_right fun hj => hj.imp_left fun hj => hs hj
  case evolves =>
    exact evolves_refl.trans hr.evolves fun j hj _ => Node.mem_ids_fork.mpr (.inr <| .inl hj)

end Fork

namespace Action

open Index

section Fork

variable (h : a.Holds p (.fork i t c l r)) (hn : (Node.fork i t c l r).ids.Nodup)

include h hn

theorem yields_setCut : (update i (.setCut c') : Action S α σ ε Unit).Yields a fun _ a' =>
    Reworks a p (.fork i t c l r) a' (.fork i t c' l r) := by
  obtain ⟨-, -, -, hil, hir⟩ := Node.nodup_fork.mp hn
  refine yields_update h.1 ⟨⟨?entry, h.2.1.put hil, h.2.2.put hir⟩, hn, List.Subset.refl _, rfl,
    ?evolves, size_put⟩
  case entry   => exact entry_put_self (lt_of_entry h.1)
  case evolves => exact evolves_refl.put fun _ => Node.id_mem_ids

theorem yields_makeLeaf : (makeLeaf i x : Action S α σ ε Unit).Yields a fun _ a' =>
    Reworks a p (.fork i t c l r) a' (.leaf i x) := by
  obtain ⟨-, -, hd, hil, hir⟩ := Node.nodup_fork.mp hn
  have hl := h.2.1.entry
  have hr := h.2.2.entry
  have hil : i ≠ l.id := fun he => hil (he ▸ Node.id_mem_ids)
  have hir : i ≠ r.id := fun he => hir (he ▸ Node.id_mem_ids)
  have hlr : r.id ≠ l.id := fun he => hd l.id Node.id_mem_ids (he ▸ Node.id_mem_ids)
  have hr' {e} : (a.put l.id e).entries[r.id]? = _ := (entry_put_of_ne hlr).trans hr
  have hi' {e e'} : ((a.put l.id e).put r.id e').entries[i]? = _ :=
    (entry_put_of_ne hir).trans <| (entry_put_of_ne hil).trans h.1
  refine yields_bind <| yields_children_fork h.1 <| yields_bind <| yields_update hl ?_
  refine yields_bind <| yields_update hr' <| yields_update hi' ?_
  refine ⟨?holds, List.nodup_singleton i, fun j hj => ?subset, rfl, ?evolves,
    size_put.trans <| size_put.trans size_put⟩
  case holds =>
    refine entry_put_self ?_
    rw [size_put, size_put]
    exact lt_of_entry h.1
  case subset =>
    exact Node.mem_ids_fork.mpr <| .inr <| .inr <| List.mem_singleton.mp hj
  case evolves =>
    refine ((evolves_refl.put fun _ => ?_).put fun _ => ?_).put fun _ => ?_
    all_goals exact Node.mem_ids_fork.mpr (by simp [Node.id_mem_ids])

end Fork

theorem yields_condense [DecidableEq α] (h : a.Holds p n) (hn : n.ids.Nodup) :
    (condense n.id : Action S α σ ε Unit).Yields a fun _ a' => Reworks a p n a' n.condense := by
  cases n
  case leaf => exact yields_bind <| yields_children_leaf h <| yields_pure <| reworks_refl h hn
  case fork i t c l r =>
    have hf : Reworks a p (.fork i t c l r) a (.fork i t c l r) := reworks_refl h hn
    refine yields_bind <| yields_children_fork h.1 <| yields_bind <| yields_and ?_
    cases l
    case fork =>
      exact yields_isLeaf_fork h.2.1.1 <| yields_pure hf
    case leaf j tl =>
      refine yields_isLeaf_leaf h.2.1 ?_
      cases r
      case fork => exact yields_isLeaf_fork h.2.2.1 <| yields_pure hf
      case leaf k tr =>
        refine yields_isLeaf_leaf h.2.2 ?_
        refine yields_bind <| yields_entry h.2.1 <| yields_bind <| yields_entry h.2.2 ?_
        by_cases ht : tl = tr
        case pos =>
          simp only [if_pos ht, Node.condense]
          exact yields_makeLeaf h hn
        case neg =>
          simp only [if_neg ht, Node.condense]
          exact yields_pure hf

theorem yields_markLeaves (h : a.Holds p n) (hn : n.ids.Nodup) :
    (markLeaves f n.id : Action S α σ ε Unit).Yields a fun _ a' => Reworks a p n a' (n.mark f) := by
  induction n generalizing a p
  case leaf i t =>
    rw [markLeaves]
    refine yields_bind <| yields_children_leaf h <| yields_update h ?_
    refine ⟨entry_put_self (lt_of_entry h), hn, List.Subset.refl _, rfl, ?_, size_put⟩
    exact evolves_refl.put fun _ => Node.id_mem_ids
  case fork i t c l r hl hr =>
    obtain ⟨nl, nr, -⟩ := Node.nodup_fork.mp hn
    rw [markLeaves]
    refine yields_bind <| yields_children_fork h.1 <| yields_bind ?_
    refine (hl h.2.1 nl).imp fun _ a₁ h₁ => ?_
    have h₁ := h₁.plus h hn
    refine (hr h₁.holds.2.2 nr).imp fun _ a₂ h₂ => ?_
    exact h₁.trans <| h₂.minus h₁.holds h₁.nodup

end Action

end SpacePartition.Arena
