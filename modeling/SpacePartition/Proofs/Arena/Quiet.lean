import SpacePartition.Proofs.Arena.Compact

/-!
Actions that know nothing of the state of those who decide. They do the same whatever it is, and
leave it as it is. None but mergers and handlers are otherwise.
-/

namespace SpacePartition.Arena

variable {R : Type} {S : Space R} {α β γ σ ε : Type}

namespace Action

open Index

-- Whether an action does the same from an arena with every state.
def Quiet (x : (σ : Type) → Action S α σ ε β) (a : Arena S α) : Prop :=
  ∀ (σ : Type) (s : σ),
    x σ (a, s) = Option.map (Except.map fun r => (r.1, r.2.1, s)) (x Unit (a, ()))

variable {x y : (σ : Type) → Action S α σ ε β} {f : (σ : Type) → β → Action S α σ ε γ}
variable {a a' : Arena S α} {i j : Nat} {b : Branch} {t : Option α} {c sub : S.Sub}
variable {place : Option Slot}

section Basic

theorem quiet_pure {z : β} : Quiet (fun σ => (pure z : Action S α σ ε β)) a :=
  fun _ _ => rfl

theorem quiet_throw {e : Panic ε} : Quiet (fun σ => (throw e : Action S α σ ε β)) a :=
  fun _ _ => rfl

-- The rest is only quiet where the first part may lead to.
theorem quiet_bind_of_yields (hx : Quiet x a)
    (hf : (x Unit).Yields a fun z a' => Quiet (fun σ => f σ z) a') :
    Quiet (fun σ => x σ >>= f σ) a := by
  intro σ s
  obtain ⟨outcome, hr, ho⟩ := hf ()
  change Option.bind (x σ (a, s)) _ = Option.map _ (Option.bind (x Unit (a, ())) _)
  rw [hx σ s, hr]
  rcases outcome with (_ | _ | _ | _ | _) | ⟨z, a', _⟩
  case ok => exact ho σ s
  all_goals rfl

theorem quiet_bind (hx : Quiet x a) (hf : ∀ z a', Quiet (fun σ => f σ z) a') :
    Quiet (fun σ => x σ >>= f σ) a := by
  intro σ s
  change Option.bind (x σ (a, s)) _ = Option.map _ (Option.bind (x Unit (a, ())) _)
  rw [hx σ s]
  rcases x Unit (a, ()) with _ | _ | ⟨z, a', _⟩
  case some.ok => exact hf z a' σ s
  all_goals rfl

theorem quiet_arena : Quiet (fun σ => (arena : Action S α σ ε _)) a :=
  fun _ _ => rfl

theorem quiet_setArena : Quiet (fun σ => (setArena a' : Action S α σ ε _)) a :=
  fun _ _ => rfl

theorem quiet_entry : Quiet (fun σ => (entry i : Action S α σ ε _)) a := by
  refine quiet_bind quiet_arena fun a _ => ?_
  cases a.entries[i]?
  case none => exact quiet_throw
  case some => exact quiet_pure

theorem quiet_update {u : Entry S α → Entry S α} :
    Quiet (fun σ => (update i u : Action S α σ ε _)) a :=
  quiet_bind quiet_entry fun _ _ => quiet_bind quiet_arena fun _ _ => quiet_setArena

theorem quiet_add {e : Entry S α} : Quiet (fun σ => (add e : Action S α σ ε _)) a :=
  quiet_bind quiet_arena fun _ _ => quiet_bind quiet_setArena fun _ _ => quiet_pure

theorem quiet_children : Quiet (fun σ => (children i : Action S α σ ε _)) a := by
  refine quiet_bind quiet_entry fun e _ => ?_
  cases e.link <;> exact quiet_pure

theorem quiet_isLeaf : Quiet (fun σ => (isLeaf i : Action S α σ ε _)) a :=
  quiet_bind quiet_children fun _ _ => quiet_pure

theorem quiet_cut : Quiet (fun σ => (Action.cut i : Action S α σ ε _)) a := by
  refine quiet_bind quiet_entry fun e _ => ?_
  cases e.link
  case leaf => exact quiet_throw
  case fork => exact quiet_pure

theorem quiet_twoChildren : Quiet (fun σ => (twoChildren i : Action S α σ ε _)) a := by
  refine quiet_bind quiet_children fun pm _ => ?_
  cases pm
  case none => exact quiet_throw
  case some => exact quiet_pure

theorem quiet_addFork : Quiet (fun σ => (addFork c i j t : Action S α σ ε _)) a :=
  quiet_bind quiet_add fun _ _ => quiet_bind quiet_update fun _ _ =>
    quiet_bind quiet_update fun _ _ => quiet_pure

theorem quiet_setChild : Quiet (fun σ => (setChild i b j : Action S α σ ε _)) a :=
  quiet_bind quiet_update fun _ _ => quiet_update

theorem quiet_makeLeaf : Quiet (fun σ => (makeLeaf i t : Action S α σ ε _)) a := by
  refine quiet_bind quiet_children fun pm _ => ?_
  cases pm
  case none => exact quiet_update
  case some =>
    exact quiet_bind quiet_update fun _ _ => quiet_bind quiet_update fun _ _ => quiet_update

theorem quiet_slot : Quiet (fun σ => (slot i : Action S α σ ε _)) a := by
  refine quiet_bind quiet_entry fun e _ => ?_
  cases e.parent
  case none => exact quiet_pure
  case some =>
    refine quiet_bind quiet_children fun pm _ => ?_
    cases pm <;> exact quiet_pure

theorem quiet_condense [DecidableEq α] : Quiet (fun σ => (condense i : Action S α σ ε _)) a := by
  refine quiet_bind quiet_children fun pm _ => ?_
  cases pm
  case none => exact quiet_pure
  case some =>
    refine quiet_bind ?test fun both _ => ?change
    case test =>
      refine quiet_bind quiet_isLeaf fun z _ => ?_
      cases z
      case false => exact quiet_pure
      case true  => exact quiet_isLeaf
    case change =>
      cases both
      case false => exact quiet_pure
      case true  =>
        refine quiet_bind quiet_entry fun plus _ => quiet_bind quiet_entry fun minus _ => ?_
        by_cases ha : plus.attr = minus.attr
        case pos => simpa only [ha, if_true] using quiet_makeLeaf
        case neg => simpa only [ha, if_false] using quiet_pure

end Basic

section Split

variable [DecidableEq α] {n : Node S Nat α} {p : Option Nat}

theorem quiet_graft {side : Side} : Quiet (fun σ => (graft i j b side : Action S α σ ε _)) a :=
  quiet_bind quiet_twoChildren fun _ _ => quiet_bind quiet_setChild fun _ _ =>
    quiet_bind quiet_setChild fun _ _ => quiet_condense

omit [DecidableEq α] in
theorem quiet_swap : Quiet (fun σ => (swap i j : Action S α σ ε _)) a :=
  quiet_bind quiet_twoChildren fun _ _ => quiet_bind quiet_twoChildren fun _ _ =>
    quiet_bind quiet_setChild fun _ _ => quiet_setChild

theorem quiet_pair {c' : S.Sub} : Quiet (fun σ => (pair sub c c' i j : Action S α σ ε _)) a :=
  quiet_bind quiet_swap fun _ _ => quiet_bind quiet_update fun _ _ =>
    quiet_bind quiet_update fun _ _ => quiet_bind quiet_condense fun _ _ =>
      quiet_bind quiet_condense fun _ _ => quiet_addFork

omit [DecidableEq α] in
theorem quiet_recut {k : Nat} {same : Bool} :
    Quiet (fun σ => (recut i j k sub same : Action S α σ ε _)) a := by
  refine quiet_bind quiet_update fun _ _ => ?_
  cases same
  case true  => exact quiet_pure
  case false => exact quiet_bind quiet_setChild fun _ _ => quiet_setChild

theorem quiet_split (h : a.Holds p n) (hn : n.ids.Nodup) :
    Quiet (fun σ => (split n.id sub : Action S α σ ε _)) a := by
  induction n generalizing a p sub
  case leaf i t =>
    unfold split
    refine quiet_bind_of_yields quiet_children <| yields_children_leaf h ?_
    exact quiet_bind quiet_entry fun _ _ => quiet_bind quiet_add fun _ _ => quiet_addFork
  case fork i t c l r hl hr =>
    obtain ⟨nl, nr, hd, -, -⟩ := Node.nodup_fork.mp hn
    unfold split
    refine quiet_bind_of_yields quiet_children <| yields_children_fork h.1 ?_
    refine quiet_bind_of_yields quiet_cut <| yields_cut h.1 <| quiet_bind ?_ fun root _ =>
      quiet_bind quiet_update fun _ _ => quiet_pure
    generalize S.split sub (S.hyperplane c) = subs
    rcases subs with ⟨_ | subPlus, _ | subMinus⟩
    case none.none => exact quiet_bind quiet_recut fun _ _ => quiet_pure
    case none.some =>
      exact quiet_bind (hr h.2.2 nr) fun _ _ => quiet_bind quiet_graft fun _ _ => quiet_pure
    case some.none =>
      exact quiet_bind (hl h.2.1 nl) fun _ _ => quiet_bind quiet_graft fun _ _ => quiet_pure
    case some.some =>
      refine quiet_bind_of_yields (hl h.2.1 nl) <| (yields_split h.2.1 nl).imp fun _ a₁ h₁ => ?_
      obtain ⟨halves, h₁⟩ := h₁
      have h₁ := h₁.evolves.holds h.2.2 fun j hj hjl => hd j hjl hj
      exact quiet_bind (hr h₁ nr) fun _ _ => quiet_pair

theorem quiet_splitIn (h : a.Holds p n) (hn : n.ids.Nodup) :
    Quiet (fun σ => (splitIn n.id sub place : Action S α σ ε _)) a := by
  refine quiet_bind (quiet_split h hn) fun root _ => ?_
  cases place
  case none => exact quiet_bind quiet_pure fun _ _ => quiet_pure
  case some => exact quiet_bind quiet_setChild fun _ _ => quiet_pure

end Split

section Merge

variable {up : Option Slot} {cell : Cell S} {forks : List Nat} {n m : Node S Nat α} {p : Option Nat}
variable {e : Entry S α}

theorem quiet_fit (hu : a.Above up cell forks) (he : a.entries[i]? = some e)
    (hp : e.parent = up.map Prod.fst) (hh : a.Hangs i up) :
    Quiet (fun σ => (fit i sub : Action S α σ ε _)) a := by
  induction hu generalizing i e sub
  case root =>
    unfold fit
    exact quiet_bind_of_yields quiet_slot <| yields_slot he hp hh quiet_pure
  case wall q b up c l r t cell forks hq hq' _ _ ih =>
    unfold fit
    refine quiet_bind_of_yields quiet_slot <| yields_slot he hp hh ?_
    refine quiet_bind_of_yields quiet_cut <| yields_cut hq ?_
    cases (S.split sub (S.hyperplane c)).on b
    case none => exact quiet_pure
    case some => exact ih hq rfl hq'

theorem quiet_refit (hl : a.Located up cell forks n) :
    Quiet (fun σ => (refit n.id : Action S α σ ε _)) a := by
  cases n
  case leaf =>
    exact quiet_bind_of_yields quiet_entry <| yields_entry hl.holds quiet_pure
  case fork =>
    refine quiet_bind_of_yields quiet_entry <| yields_entry hl.holds.1 ?_
    refine quiet_bind (quiet_fit hl.walls hl.holds.1 rfl hl.hangs) fun part _ => ?_
    cases part
    case none => exact quiet_pure
    case some => exact quiet_update

theorem quiet_copy (h : a.Holds p m) : Quiet (fun σ => (copy a m.id : Action S α σ ε _)) a' := by
  induction m generalizing a' p
  case leaf =>
    unfold copy
    rw [h.entry]
    exact quiet_add
  case fork hl hr =>
    unfold copy
    rw [h.entry]
    exact quiet_bind (hl h.2.1) fun _ _ => quiet_bind (hr h.2.2) fun _ _ => quiet_addFork

theorem quiet_compact (h : a.Holds p m) (hr : m.id = a.root) :
    Quiet (fun σ => (compact : Action S α σ ε _)) a := by
  refine quiet_bind_of_yields quiet_arena <| yields_arena ?_
  refine quiet_bind quiet_setArena fun _ _ => ?_
  rw [← hr]
  exact quiet_bind (quiet_copy h) fun _ _ => quiet_bind quiet_arena fun _ _ => quiet_setArena

theorem quiet_absorb : Quiet (fun σ => (absorb a' : Action S α σ ε _)) a :=
  quiet_bind quiet_arena fun _ _ => quiet_bind quiet_setArena fun _ _ =>
    quiet_bind quiet_update fun _ _ => quiet_pure

-- The end of a merge.
theorem quiet_close (h : a.Holds none m) (hn : m.ids.Nodup) : Quiet (fun σ => (do
    setArena { (← arena) with root := m.id }
    update m.id (.setParent none)
    compact : Action S α σ ε _)) a := by
  refine quiet_bind_of_yields quiet_arena <| yields_arena ?_
  refine quiet_bind_of_yields quiet_setArena <| yields_setArena ?_
  have h : Holds { a with root := m.id } none m := h.congr fun _ _ => rfl
  refine quiet_bind_of_yields quiet_update <| yields_update h.entry ?_
  rw [Node.setParent_entry]
  exact quiet_compact (h.hang hn) rfl

end Merge

end Action
end SpacePartition.Arena
