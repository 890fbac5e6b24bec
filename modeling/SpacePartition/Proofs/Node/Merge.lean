import SpacePartition.Proofs.Node.Fitting
import SpacePartition.Proofs.Node.Pure
import SpacePartition.Proofs.Node.Split

/-!
Merging fitted partitions. If a merger is right about the leaves that it meets, the merged partition
is fitted and says of a point what the merger makes of the two answers.
-/

namespace SpacePartition

variable {R : Type} {S : Space R} {ι α : Type}

namespace Node

variable [Inhabited ι] [DecidableEq α] {look : Outlook S}

-- Whether no split in the course of a merge loses a part of a cut.
def MergeKeepsParts : Node S ι α → Node S ι α → Prop
  | leaf .., _                          => True
  | fork .., leaf ..                    => True
  | fork _ _ cut p m, other@(fork ..)   =>
    other.KeepsParts cut ∧
    p.MergeKeepsParts (other.split cut).plus ∧ m.MergeKeepsParts (other.split cut).minus

end Node

-- Whether a point with an outlook lies in a cell.
def Cell.Contains (cell : Cell S) (look : Outlook S) : Prop :=
  ∀ wall ∈ cell, look (S.hyperplane wall.cut) = wall.side

section Encounters

variable [Inhabited ι] [DecidableEq α] {cell : Cell S} {n other : Node S ι α} {look : Outlook S}

theorem Cell.Contains.cons (h : cell.Contains look) (cut : S.Sub) :
    Contains (⟨cut, look (S.hyperplane cut)⟩ :: cell) look
  | _, .head _   => rfl
  | w, .tail _ m => h w m

-- A merger only meets smaller cells.
theorem Node.suffix_encounters {e : Encounter S ι α} (he : e ∈ n.encounters cell other) :
    cell <:+ e.cell := by
  fun_induction Node.encounters cell n other
  case case1 => cases List.mem_singleton.mp he; exact List.suffix_rfl
  case case2 => cases List.mem_singleton.mp he; exact List.suffix_rfl
  case case3 hp hm =>
    cases List.mem_append.mp he
    case inl he => exact (List.suffix_cons _ _).trans (hp he)
    case inr he => exact (List.suffix_cons _ _).trans (hm he)

-- The cells that a merger meets cover the cell of the merge.
theorem Node.exists_encounter (h : cell.Contains look) :
    ∃ e ∈ n.encounters cell other, e.cell.Contains look := by
  fun_induction Node.encounters cell n other
  case case1 => exact ⟨_, List.mem_singleton_self _, h⟩
  case case2 => exact ⟨_, List.mem_singleton_self _, h⟩
  case case3 cell _ _ cut _ _ _ _ _ _ _ hp hm =>
    have hc := h.cons cut
    cases hl : look (S.hyperplane cut) <;> rw [hl] at hc
    case plus  => exact hp hc |>.imp fun e he => ⟨List.mem_append_left _ he.1, he.2⟩
    case minus => exact hm hc |>.imp fun e he => ⟨List.mem_append_right _ he.1, he.2⟩

end Encounters

namespace Layout

variable {P : Type} {L : Layout S P} {C : Set P} {cell : Cell S}

theorem Proper.cons {cut side} (hw : L.Spans C cut) (hc : L.Proper cell) :
    L.Proper (⟨cut, side⟩ :: cell)
  | _, .head _   => ⟨C, hw⟩
  | w, .tail _ h => hc w h

section Encounters

variable [Inhabited ι]

theorem Fitted.mergeKeepsParts [DecidableEq α] {n other : Node S ι α} (hL : L.Separating)
    (hC : L.IsCell C) (hn : L.Fitted C n) (ho : L.Fitted C other) : n.MergeKeepsParts other := by
  fun_induction Node.MergeKeepsParts n other generalizing C
  case case1 => trivial
  case case2 => trivial
  case case3 hp hm =>
    have ⟨hs, fp, fm⟩ := hn
    have hd := ho.split hL hC hs
    exact ⟨ho.keepsParts hL hC hs, hp (.inter hC) fp (hd.fitted .plus),
      hm (.inter hC) fm (hd.fitted .minus)⟩

theorem Sees.mem_interior {look : Outlook S} {x : P} (hx : L.Sees look x) (hc : L.Proper cell)
    (h : cell.Contains look) : x ∈ L.interior cell := by
  induction cell
  case nil => trivial
  case cons wall walls hi =>
    have ⟨C, hw⟩ := hc wall List.mem_cons_self
    refine ⟨hi (fun w hm => hc w <| .tail _ hm) (fun w hm => h w <| .tail _ hm), ?_⟩
    rw [← h wall List.mem_cons_self]
    exact hx C wall.cut hw

-- The nodes that a merger meets are fitted to their cells.
theorem Fitted.encounters [DecidableEq α] {n other : Node S ι α} (hL : L.Separating)
    (hc : L.Proper cell) (hn : L.Fitted (L.interior cell) n) (ho : L.Fitted (L.interior cell) other)
    {e : Encounter S ι α} (he : e ∈ n.encounters cell other) :
    L.Proper e.cell ∧ L.Fitted (L.interior e.cell) e.other := by
  fun_induction Node.encounters cell n other
  case case1 => cases List.mem_singleton.mp he; exact ⟨hc, ho⟩
  case case2 => cases List.mem_singleton.mp he; exact ⟨hc, hn⟩
  case case3 hp hm =>
    obtain ⟨hs, fp, fm⟩ := hn
    have hd := ho.split hL (L.isCell_interior _) hs
    cases List.mem_append.mp he
    case inl he => exact hp (hc.cons hs) fp (hd.fitted .plus) he
    case inr he => exact hm (hc.cons hs) fm (hd.fitted .minus) he

end Encounters

theorem Lawful.holds_refit (hL : L.Lawful) {n : Node S ι Bool} {look : Outlook S} :
    (n.refit cell).holds look = n.holds look := by
  cases n
  case leaf => rfl
  case fork =>
    obtain ⟨c, hr, hc⟩ := Node.exists_refit_fork hL.grounded cell
    rw [hr, Node.holds_fork, Node.holds_fork, hc]

section Verdict

variable [Inhabited ι] {n other : Node S ι Bool} {place : Encounter S ι Bool → Node S ι Bool}
variable (hL : L.Separating) (hc : L.Proper cell) (hn : L.Fitted (L.interior cell) n)
variable (ho : L.Fitted (L.interior cell) other)

include hL hc hn ho

-- What a merge says of a point is what it makes of the leaf and the node that meet in the cell of
-- the point, and these say what the operands say.
theorem Fitted.holds_encounter {e : Encounter S ι Bool} (he : e ∈ n.encounters cell other)
    {look : Outlook S} {x : P} (hx : L.Sees look x) (h : e.cell.Contains look) :
    e.ours.holds look = n.holds look ∧ e.theirs.holds look = other.holds look ∧
      (n.mergeBy place cell other).holds look = (place e).holds look := by
  fun_induction Node.encounters cell n other
  case case1 => cases List.mem_singleton.mp he; exact ⟨rfl, rfl, rfl⟩
  case case2 => cases List.mem_singleton.mp he; exact ⟨rfl, rfl, rfl⟩
  case case3 cell _ _ cut p m j a' cut' p' m' hp hm =>
    obtain ⟨hs, fp, fm⟩ := hn
    have hd := ho.split hL (L.isCell_interior _) hs
    -- The encounter is on the side of the cut where the point is.
    have side {b} (hw : ⟨cut, b⟩ :: cell <:+ e.cell) :
        (∀ i a p m,
          (Node.fork (S := S) (ι := ι) i a cut p m).holds look = (b.pick p m).holds look) ∧
        (((Node.fork j a' cut' p' m').split cut).on b).holds look =
          (Node.fork j a' cut' p' m').holds look := by
      have hb : look (S.hyperplane cut) = b := h ⟨cut, b⟩ <| hw.subset List.mem_cons_self
      have hC := hx.mem_interior hc fun w hm => h w <| hw.subset <| List.mem_cons_of_mem _ hm
      exact ⟨fun i a p m => hb ▸ Node.holds_fork, hb ▸ hd.holds hx hC⟩
    rw [Node.mergeBy_fork_fork, hL.holds_refit, Node.holds_condense]
    cases List.mem_append.mp he
    case inl he =>
      obtain ⟨hf, hv⟩ := side <| Node.suffix_encounters he
      obtain ⟨h₁, h₂, h₃⟩ := hp (hc.cons hs) fp (hd.fitted .plus) he
      exact ⟨h₁.trans (hf ..).symm, h₂.trans hv, (hf ..).trans h₃⟩
    case inr he =>
      obtain ⟨hf, hv⟩ := side <| Node.suffix_encounters he
      obtain ⟨h₁, h₂, h₃⟩ := hm (hc.cons hs) fm (hd.fitted .minus) he
      exact ⟨h₁.trans (hf ..).symm, h₂.trans hv, (hf ..).trans h₃⟩

theorem Fitted.mergeBy (hp : ∀ e ∈ n.encounters cell other, L.Fitted (L.interior e.cell) (place e))
    (hr : ∀ {cell} {n : Node S ι Bool}, L.Proper cell → L.Fitted (L.interior cell) n →
      L.Fitted (L.interior cell) (n.refit cell)) :
    L.Fitted (L.interior cell) (n.mergeBy place cell other) := by
  fun_induction Node.encounters cell n other
  case case1 => exact hp _ <| List.mem_singleton_self _
  case case2 => exact hp _ <| List.mem_singleton_self _
  case case3 ip im =>
    obtain ⟨hs, fp, fm⟩ := hn
    have hd := ho.split hL (L.isCell_interior _) hs
    have hp' := ip (hc.cons hs) fp (hd.fitted .plus) fun e he => hp e <| List.mem_append_left _ he
    have hm' := im (hc.cons hs) fm (hd.fitted .minus) fun e he => hp e <| List.mem_append_right _ he
    rw [Node.mergeBy_fork_fork]
    exact hr hc <| Fitted.condense ⟨hs, hp', hm'⟩

end Verdict

-- Whether a partition combines two partitions of a cell.
structure Merges (L : Layout S P) (C : Set P) (f : Bool → Bool → Bool) (n other r : Node S ι Bool) :
    Prop where
  fitted : L.Fitted C r
  holds {look : Outlook S} {x : P} : L.Sees look x → x ∈ C →
    r.holds look = f (n.holds look) (other.holds look)

end Layout
end SpacePartition
