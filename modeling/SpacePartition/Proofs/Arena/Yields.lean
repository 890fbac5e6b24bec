import Mathlib.Logic.IsEmpty.Basic
import SpacePartition.Arena.Merge

/-!
What actions on an arena come to. An action yields a condition if it ends, with no assumption of its
own broken, in a result and an arena of which the condition holds; it may be refused.
-/

namespace SpacePartition

variable {R : Type} {S : Space R} {α σ ε β γ : Type}

namespace Arena

variable {a a' : Arena S α} {e e' : Entry S α} {i j : Nat}

@[simp]
theorem size_put : (a.put i e).entries.size = a.entries.size :=
  Array.size_setIfInBounds

@[simp]
theorem size_push : (a.push e).entries.size = a.entries.size + 1 :=
  Array.size_push e

theorem lt_of_entry (h : a.entries[i]? = some e) : i < a.entries.size :=
  (Array.getElem?_eq_some_iff.mp h).1

theorem entry_put_self (h : i < a.entries.size) : (a.put i e).entries[i]? = some e := by
  rw [put, Array.getElem?_setIfInBounds_self_of_lt h]

theorem entry_put_of_ne (h : j ≠ i) : (a.put i e).entries[j]? = a.entries[j]? :=
  Array.getElem?_setIfInBounds_ne h.symm

theorem entry_push_self : (a.push e).entries[a.entries.size]? = some e :=
  Array.getElem?_push_size

theorem entry_push_of_lt (h : i < a.entries.size) : (a.push e).entries[i]? = a.entries[i]? := by
  rw [push, Array.getElem?_push_lt h, Array.getElem?_eq_getElem h]

end Arena

namespace Arena.Action

variable {a : Arena S α} {x : Action S α σ ε β} {f : β → Action S α σ ε γ} {e e' : Entry S α}
variable {i j : Nat}

def Yields (x : Action S α σ ε β) (a : Arena S α) (Q : β → Arena S α → Prop) : Prop :=
  ∀ s, ∃ outcome, x (a, s) = some outcome ∧
    match outcome with
    | .ok (b, a', _)       => Q b a'
    | .error (.refused _)  => True
    | .error _             => False

variable {P Q : β → Arena S α → Prop}

theorem Yields.imp (h : x.Yields a P) (hi : ∀ b a', P b a' → Q b a') : x.Yields a Q := by
  intro s
  have ⟨outcome, hx, ho⟩ := h s
  refine ⟨outcome, hx, ?_⟩
  split at ho
  case h_1 => exact hi _ _ ho
  case h_2 => trivial
  case h_3 => exact ho.elim

-- Where nobody can refuse, an action has a result.
theorem Yields.exists_ok [IsEmpty ε] (h : x.Yields a Q) (s : σ) :
    ∃ b a' s', x (a, s) = some (.ok (b, a', s')) ∧ Q b a' := by
  have ⟨outcome, hx, ho⟩ := h s
  rcases outcome with (_ | _ | _ | _ | e) | ⟨b, a', s'⟩
  case ok            => exact ⟨b, a', s', hx, ho⟩
  case error.refused => exact isEmptyElim e
  all_goals exact ho.elim

theorem yields_pure {b : β} (h : Q b a) : (pure b : Action S α σ ε β).Yields a Q :=
  fun s => ⟨.ok (b, a, s), rfl, h⟩

theorem yields_bind {Q : γ → Arena S α → Prop} (h : x.Yields a fun b a' => (f b).Yields a' Q) :
    (x >>= f).Yields a Q := by
  intro s
  have ⟨outcome, hx, ho⟩ := h s
  change ∃ outcome, Option.bind (x (a, s)) _ = some outcome ∧ _
  rw [hx]
  split at ho
  case h_1 => exact ho _
  case h_2 => exact ⟨_, rfl, trivial⟩
  case h_3 => exact ho.elim

theorem yields_and {x y : Action S α σ ε Bool} {Q : Bool → Arena S α → Prop}
    (h : x.Yields a fun b a' => if b then y.Yields a' Q else Q false a') :
    (x <&&> y).Yields a Q := by
  refine yields_bind <| h.imp fun b a' hb => ?_
  cases b
  case false => exact yields_pure hb
  case true  => exact hb

theorem yields_arena {Q : Arena S α → Arena S α → Prop} (h : Q a a) :
    (arena : Action S α σ ε _).Yields a Q :=
  fun s => ⟨.ok (a, a, s), rfl, h⟩

theorem yields_setArena {Q : Unit → Arena S α → Prop} {a' : Arena S α} (h : Q () a') :
    (setArena a' : Action S α σ ε Unit).Yields a Q :=
  fun s => ⟨.ok ((), a', s), rfl, h⟩

section Entry

variable (he : a.entries[i]? = some e)

include he

theorem yields_entry {Q : Entry S α → Arena S α → Prop} (h : Q e a) :
    (entry i : Action S α σ ε _).Yields a Q := by
  refine yields_bind <| yields_arena ?_
  rw [he]
  exact yields_pure h

theorem yields_update {Q : Unit → Arena S α → Prop} {f : Entry S α → Entry S α}
    (h : Q () (a.put i (f e))) : (update i f : Action S α σ ε Unit).Yields a Q :=
  yields_bind <| yields_entry he <| yields_bind <| yields_arena <| yields_setArena h

end Entry

theorem yields_add {Q : Nat → Arena S α → Prop} (h : Q a.entries.size (a.push e)) :
    (add e : Action S α σ ε Nat).Yields a Q :=
  yields_bind <| yields_arena <| yields_bind <| yields_setArena <| yields_pure h

section Leaf

variable {p : Option Nat} {t : Option α} (he : a.entries[i]? = some ⟨.leaf, p, t⟩)

include he

theorem yields_children_leaf {Q : Option (Nat × Nat) → Arena S α → Prop} (h : Q none a) :
    (children i : Action S α σ ε _).Yields a Q :=
  yields_bind <| yields_entry he <| yields_pure h

theorem yields_isLeaf_leaf {Q : Bool → Arena S α → Prop} (h : Q true a) :
    (isLeaf i : Action S α σ ε _).Yields a Q :=
  yields_bind <| yields_children_leaf he <| yields_pure h

end Leaf

section Fork

variable {p : Option Nat} {t : Option α} {c : S.Sub} {l r : Nat}
variable (he : a.entries[i]? = some ⟨.fork c l r, p, t⟩)

include he

theorem yields_children_fork {Q : Option (Nat × Nat) → Arena S α → Prop} (h : Q (some (l, r)) a) :
    (children i : Action S α σ ε _).Yields a Q :=
  yields_bind <| yields_entry he <| yields_pure h

theorem yields_isLeaf_fork {Q : Bool → Arena S α → Prop} (h : Q false a) :
    (isLeaf i : Action S α σ ε _).Yields a Q :=
  yields_bind <| yields_children_fork he <| yields_pure h

theorem yields_cut {Q : S.Sub → Arena S α → Prop} (h : Q c a) :
    (cut i : Action S α σ ε _).Yields a Q :=
  yields_bind <| yields_entry he <| yields_pure h

theorem yields_twoChildren {Q : Nat × Nat → Arena S α → Prop} (h : Q (l, r) a) :
    (twoChildren i : Action S α σ ε _).Yields a Q :=
  yields_bind <| yields_children_fork he <| yields_pure h

end Fork

theorem yields_setChild {Q : Unit → Arena S α → Prop} {b : Branch} (hi : a.entries[i]? = some e)
    (hj : a.entries[j]? = some e') (hne : j ≠ i)
    (h : Q () ((a.put i (e.setChild b j)).put j (e'.setParent i))) :
    (setChild i b j : Action S α σ ε Unit).Yields a Q := by
  refine yields_bind <| yields_update hi <| yields_update ?_ h
  rwa [entry_put_of_ne hne]

end Arena.Action
end SpacePartition
