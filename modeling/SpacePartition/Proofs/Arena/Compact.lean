import SpacePartition.Proofs.Arena.Merge
import SpacePartition.Tree.Basic

/-!
Merging of arenas. Copying numbers the nodes anew and leaves out what no link leads to, so that the
merged arena has the entries of one partition and no others.
-/

namespace SpacePartition

variable {R : Type} {S : Space R} {α σ ε β : Type}

theorem Node.id_relabel {ι κ : Type} {f : ι → κ} {n : Node S ι α} : (n.relabel f).id = f n.id := by
  cases n <;> rfl

theorem Node.bare_relabel {ι κ : Type} {f : ι → κ} {n : Node S ι α} :
    (n.relabel f).bare = n.bare := by
  induction n <;> simp_all [relabel]

theorem Node.number_relabel {ι κ : Type} {f : ι → κ} {n : Node S ι α} {k : Nat} :
    (n.relabel f).number k = n.number k := by
  induction n generalizing k <;> simp_all [relabel, number]

theorem Tree.ofNode_bare {ι : Type} {n : Node S ι α} : ofNode n.bare = ofNode n := by
  rw [ofNode, Node.bare, Node.number_relabel, Node.size_relabel, ofNode]

theorem Node.nodup_number {ι : Type} {n : Node S ι α} {k : Nat} : (n.number k).ids.Nodup := by
  rw [ids_number]
  exact List.nodup_range'

namespace Arena

variable {a a' b : Arena S α} {p : Option Nat} {n o m : Node S Nat α} {i j k : Nat} {t : Option α}
variable {c : S.Sub}

section Append

theorem entry_append_of_lt (h : i < a.entries.size) : (a.append b).entries[i]? = a.entries[i]? := by
  rw [append, Array.getElem?_append_left h]

theorem entry_append (a b : Arena S α) (i : Nat) :
    (a.append b).entries[i + a.entries.size]? = b.entries[i]?.map (.shift a.entries.size) := by
  rw [append, Array.getElem?_append_right (Nat.le_add_left ..), Nat.add_sub_cancel,
    Array.getElem?_map]

theorem evolves_append : a.Evolves (fun _ => False) (a.append b) where
  size_le := by simp [append]
  same h  := entry_append_of_lt (not_free.mp h).1

theorem Holds.append (h : b.Holds p n) :
    (a.append b).Holds (p.map (· + a.entries.size)) (n.relabel (· + a.entries.size)) := by
  induction n generalizing p
  case leaf => exact (entry_append ..).trans <| congrArg (Option.map _) h
  case fork i t c l r hl hr =>
    refine ⟨(entry_append ..).trans ?_, hl h.2.1, hr h.2.2⟩
    rw [h.1, Node.id_relabel, Node.id_relabel]
    rfl

end Append

-- A partition meets one that has come behind it.
theorem Holds.meet (ha : a.Holds none n) (hn : n.ids.Nodup) (ho : o.ids.Nodup)
    (hb : a'.Holds none (o.relabel (· + a.entries.size))) (ev : a.Evolves (fun _ => False) a') :
    a'.Meet none [] [] none none n (o.relabel (· + a.entries.size)) := by
  refine ⟨.root, ev.holds ha fun _ _ hf => hf, hb, ⟨hn, ?nodup⟩, fun j hj => ?apart,
    fun _ _ => List.not_mem_nil, fun q hq => by cases hq⟩
  case nodup =>
    rw [Node.ids_relabel]
    exact ho.map fun _ _ => Nat.add_right_cancel
  case apart =>
    have := ha.lt hj
    simp only [Node.ids_relabel, List.mem_map, not_exists, not_and]
    omega

-- Whether an arena holds a tree and nothing else.
structure Represents (a : Arena S α) (t : Tree S α) : Prop where
  holds : a.Holds none t.root
  root  : t.root.id = a.root
  size  : a.entries.size = t.capacity

namespace Action

open Index

theorem Yields.and {x : Action S α σ ε β} {P Q : β → Arena S α → Prop} (hp : x.Yields a P)
    (hq : x.Yields a Q) : x.Yields a fun b a' => P b a' ∧ Q b a' := by
  intro s
  obtain ⟨outcome, hx, hp⟩ := hp s
  obtain ⟨outcome', hx', hq⟩ := hq s
  cases hx.symm.trans hx'
  refine ⟨outcome, hx, ?_⟩
  rcases outcome with (_ | _ | _ | _ | _) | _
  case error.refused => trivial
  case ok            => exact ⟨hp, hq⟩
  all_goals exact hp

theorem yields_addFork_size {l r : Nat} (hl : l < a.entries.size) (hr : r < a.entries.size) :
    (addFork c l r t : Action S α σ ε Nat).Yields a fun _ a' =>
      a'.entries.size = a.entries.size + 1 := by
  have hl' : l < (a.push ⟨.fork c l r, none, t⟩).entries.size := by
    rw [size_push]
    exact Nat.lt_succ_of_lt hl
  refine yields_bind <| yields_add <| yields_bind <|
    yields_update (Array.getElem?_eq_getElem hl') ?_
  refine yields_bind <| yields_update (Array.getElem?_eq_getElem ?child) <| yields_pure ?size
  case child =>
    rw [size_put, size_push]
    exact Nat.lt_succ_of_lt hr
  case size => rw [size_put, size_put, size_push]

theorem yields_copy (h : a.Holds p m) : (copy a m.id : Action S α σ ε Nat).Yields b fun root c =>
    root = (m.number b.entries.size).id ∧ c.Holds none (m.number b.entries.size) ∧
      c.entries.size = b.entries.size + m.size ∧ b.Evolves (fun _ => False) c := by
  induction m generalizing b p
  case leaf i t =>
    rw [copy, h.entry]
    exact yields_add ⟨rfl, entry_push_self, size_push, evolves_refl.push⟩
  case fork i t c l r hl hr =>
    rw [copy, h.entry]
    refine yields_bind <| (hl h.2.1).imp fun root a₁ h₁ => yields_bind ?_
    obtain ⟨rfl, h₁, s₁, ev₁⟩ := h₁
    refine (hr h.2.2).imp fun root a₂ h₂ => ?_
    obtain ⟨rfl, h₂, s₂, ev₂⟩ := h₂
    have h₁' := ev₂.holds h₁ fun _ _ hf => hf
    have hd : ∀ j ∈ (l.number b.entries.size).ids, j ∉ (r.number a₁.entries.size).ids := by
      simp only [Node.ids_number, List.mem_range'_1]
      omega
    refine ((yields_addFork h₁' h₂ Node.nodup_number Node.nodup_number hd).and <|
      yields_addFork_size (h₁'.lt Node.id_mem_ids) (h₂.lt Node.id_mem_ids)).imp fun root a₃ h₃ => ?_
    obtain ⟨⟨rfl, h₃, -, ev₃⟩, s₃⟩ := h₃
    have hnew : ∀ j, j = (l.number b.entries.size).id ∨ j = (r.number a₁.entries.size).id →
        b.Free (fun _ => False) j := by
      have hl := (l.number b.entries.size).id_mem_ids
      have hr := (r.number a₁.entries.size).id_mem_ids
      rw [Node.ids_number, List.mem_range'_1] at hl hr
      intro j hj
      exact free_of_size_le (by omega)
    refine ⟨?id, ?holds, ?size, (ev₁.trans ev₂ fun _ hf => hf.elim).trans ev₃ hnew⟩
    case id    => rw [s₂, s₁]; rfl
    case holds => rw [s₂, s₁] at h₃; exact h₃
    case size  => rw [s₃, s₂, s₁, Node.size]; omega

theorem yields_compact (h : a.Holds none m) (hr : m.id = a.root) :
    (compact : Action S α σ ε Unit).Yields a fun _ c => c.Represents (.ofNode m) := by
  refine yields_bind <| yields_arena <| yields_bind <| yields_setArena <| yields_bind ?_
  rw [← hr]
  refine (yields_copy h).imp fun root c hc => yields_bind <| yields_arena <| yields_setArena ?_
  obtain ⟨rfl, hc, hs, -⟩ := hc
  exact ⟨hc.congr fun _ _ => rfl, rfl, hs.trans (Nat.zero_add _)⟩

theorem yields_absorb (h : b.Holds none o) (hr : o.id = b.root) (ho : o.ids.Nodup) :
    (absorb b : Action S α σ ε Nat).Yields a fun root a' =>
      root = (o.relabel (· + a.entries.size)).id ∧ a'.root = a.root ∧
        a'.Holds none (o.relabel (· + a.entries.size)) ∧ a.Evolves (fun _ => False) a' := by
  have hn : (o.relabel (· + a.entries.size)).ids.Nodup := by
    rw [Node.ids_relabel]
    exact ho.map fun _ _ => Nat.add_right_cancel
  have hh : (a.append b).Holds none (o.relabel (· + a.entries.size)) := h.append
  refine yields_bind <| yields_arena <| yields_bind <| yields_setArena <| yields_bind ?_
  rw [← hr, ← Node.id_relabel (f := (· + a.entries.size))]
  refine yields_update hh.entry <| yields_pure ⟨rfl, rfl, ?holds, evolves_append.put ?evolves⟩
  case holds =>
    rw [Node.setParent_entry]
    exact hh.hang hn
  case evolves =>
    rw [Node.id_relabel]
    exact free_of_size_le (Nat.le_add_left ..)

variable [DecidableEq α] {merger : Merger S α σ ε} {decide : SpacePartition.Merger S Unit α SetM}

omit [DecidableEq α] in
theorem yields_close (hm : a.Holds none m) (hn : m.ids.Nodup) :
    (do
      setArena { (← arena) with root := m.id }
      update m.id (.setParent none)
      compact : Action S α σ ε Unit).Yields a fun _ c => c.Represents (.ofNode m) := by
  refine yields_bind <| yields_arena <| yields_bind <| yields_setArena <| yields_bind ?_
  have hm : Holds { a with root := m.id } none m := hm.congr fun _ _ => rfl
  refine yields_update hm.entry ?_
  rw [Node.setParent_entry]
  exact yields_compact (hm.hang hn) rfl

theorem yields_merge (hm : merger.Acts decide) (ha : a.Holds none n) (hra : n.id = a.root)
    (hn : n.ids.Nodup) (hb : b.Holds none o) (hrb : o.id = b.root) (ho : o.ids.Nodup) :
    (merge merger b).Yields a fun _ c =>
      ∃ m ∈ (n.bare.merge decide [] o.bare).run, c.Represents (.ofNode m) := by
  refine yields_bind <| (yields_absorb hb hrb ho).imp fun root a₁ h₁ => ?_
  obtain ⟨rfl, hr₁, ho₁, ev₁⟩ := h₁
  refine yields_bind <| yields_arena <| yields_bind ?_
  rw [hr₁, ← hra]
  refine (yields_mergeNodes hm <| ha.meet hn ho ho₁ ev₁).imp fun root a₂ h₂ => ?_
  obtain ⟨m, rfl, h₂, hmem⟩ := h₂
  refine (yields_close h₂.located.holds h₂.located.nodup).imp
    fun _ c hc => ⟨m.bare, ?merged, ?represents⟩
  case merged     => rwa [Node.bare_relabel] at hmem
  case represents => rwa [Tree.ofNode_bare]

end Action
end Arena
end SpacePartition
