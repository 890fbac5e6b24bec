import Mathlib.Algebra.Order.Field.Rat
import SpacePartition.Arena.Operations
import SpacePartition.Line.Basic
import SpacePartition.Proofs.Arena.WellFormed
import SpacePartition.Proofs.Region.Operation
import SpacePartition.Proofs.Scalar.Exact

/-!
Mergers that hang one of two nodes. Whatever they decide, a merge of well-formed arenas ends in a
well-formed arena.
-/

namespace SpacePartition

variable {R : Type} {S : Space R} {ι α σ ε : Type}

namespace Node

-- A partition with the attributes of its leaves changed, if that is asked for.
def markBy (f : Option (Option α → Option α)) (n : Node S ι α) : Node S ι α :=
  f.elim n n.mark

theorem bare_mark {f : Option α → Option α} {n : Node S ι α} : (n.mark f).bare = n.bare.mark f := by
  induction n <;> simp_all [mark]

theorem bare_markBy {f : Option (Option α → Option α)} {n : Node S ι α} :
    (n.markBy f).bare = n.bare.markBy f := by
  cases f
  case none => rfl
  case some => exact bare_mark

end Node

namespace Arena

variable {a a' : Arena S α} {place : Option Slot} {cell : Cell S} {forks : List Nat}
variable {p q : Option Nat}
variable {n o m : Node S Nat α} {f : Option (Option α → Option α)} {fix : Handler S α σ ε}
variable {vanish : SpacePartition.Handler S Unit α SetM}

def Decision.keep (d : Decision S α σ ε) (leaf other : Node S ι α) : Node S ι α :=
  if d.keepsLeaf then leaf.markBy d.onLeaf else other.markBy d.onOther

namespace Action

open Index

theorem yields_markBy (h : a.Holds p n) (hn : n.ids.Nodup) :
    (f.forM (markLeaves · n.id) : Action S α σ ε Unit).Yields a fun _ a' =>
      Reworks a p n a' (n.markBy f) := by
  cases f
  case none => exact yields_pure (reworks_refl h hn)
  case some => exact yields_markLeaves h hn

variable [DecidableEq α]

theorem yields_insert (hf : fix.Answers vanish) (h : a.Meet place cell forks p q n o) :
    (do
      insertIn fix n.id place
      return n.id : Action S α σ ε Nat).Yields a <|
        Brings a (· ∈ n.ids) place cell forks (n.bare.insertIn vanish cell) := by
  refine yields_bind <| (yields_insertIn hf h.walls h.ours h.nodup.1
    (fun j hj => h.below j (.inl hj)) h.vacant_id).imp ?_
  intro _ a₁ h₁
  obtain ⟨m, hid, h₁, hm, -⟩ := h₁
  exact yields_pure ⟨m, hid, h₁, hm⟩

-- Whether decisions are made by looking at the arena alone, and put into place what may take the
-- place of a leaf and the node that faces it.
def Decides (decide : Decider S α σ ε) (result : SpacePartition.Merger S Unit α SetM) : Prop :=
  ∀ ⦃a : Arena S α⦄ ⦃place cell forks p q i t⦄ ⦃n : Node S Nat α⦄ ⦃fromInstance⦄,
    a.Meet place cell forks p q (.leaf i t) n →
      (decide i n.id place fromInstance).Yields a fun d a' =>
        a' = a ∧ ∃ vanish, d.fix.Answers vanish ∧
        ((d.keep (.leaf () t) n.bare).insertIn vanish cell).run ⊆
          (result ⟨(), t, n.bare, cell, fromInstance⟩).run

variable {decide : Decider S α σ ε} {result : SpacePartition.Merger S Unit α SetM}

theorem acts_attaching (h : Decides decide result) : (attaching decide).Acts result := by
  intro a place cell forks p q i t n fromInstance hm
  refine yields_bind <| (h hm).imp fun d a' hd => ?_
  obtain ⟨rfl, vanish, hf, hd⟩ := hd
  refine yields_bind <| (yields_markBy hm.ours hm.nodup.1).imp fun _ a₁ h₁ => ?_
  have hm₁ := hm.reworks h₁
  refine yields_bind <| (yields_markBy hm₁.theirs hm₁.nodup.2).imp fun _ a₂ h₂ => ?_
  have hm₂ := (hm₁.symm.reworks h₂).symm
  have ev₁ := h₁.evolves.mono (Y := fun j => j ∈ (Node.leaf i t : Node S Nat α).ids ∨ j ∈ n.ids)
    fun j hj => .inl hj
  have ev₂ := ev₁.trans h₂.evolves fun j hj _ => .inr hj
  have hX : ∀ j ∈ forks, ¬(j ∈ (Node.leaf i t : Node S Nat α).ids ∨ j ∈ n.ids) :=
    fun j hf hj => hm.below j hj hf
  rw [Decision.keep] at hd
  generalize d.keepsLeaf = keepsLeaf at hd ⊢
  cases keepsLeaf
  case true =>
    have hi := yields_insert hf hm₂
    rw [h₁.id] at hi
    refine hi.imp fun root a₃ h₃ => ?_
    obtain ⟨m, rfl, h₃, hr⟩ := h₃
    refine ⟨m, rfl, h₃.after ev₂ hm.walls hX fun j hj _ => .inl (h₁.subset hj), hd ?_⟩
    rwa [Node.bare_markBy] at hr
  case false =>
    have hi := yields_insert hf hm₂.symm
    rw [h₂.id] at hi
    refine hi.imp fun root a₃ h₃ => ?_
    obtain ⟨m, rfl, h₃, hr⟩ := h₃
    refine ⟨m, rfl, h₃.after ev₂ hm.walls hX fun j hj _ => .inr (h₂.subset hj), hd ?_⟩
    rwa [Node.bare_markBy] at hr

end Action

end Arena

namespace Node

variable {n : Node S ι Bool}

theorem mark_flip : n.mark Arena.Decider.flip = n.complement := by
  induction n <;> simp_all [mark, complement, Arena.Decider.flip]

end Node

namespace Arena.Action

variable {a : Arena S α} {i : Nat} {t : Option α} {p : Option Nat}

theorem yields_isInside {a : Arena S Bool} {t : Option Bool} {Q : Bool → Arena S Bool → Prop}
    (he : a.Holds p (.leaf i t)) (h : Q (t == some true) a) :
    (isInside i : Action S Bool σ ε Bool).Yields a Q :=
  yields_bind <| yields_entry he <| yields_pure h

theorem answers_agreed [DecidableEq α] (fallback : Option α) :
    (agreed fallback : Handler S α σ ε).Answers fun _ n => pure (n.agreed fallback) := by
  intro a up cell forks n hn
  have hl := hn.holds
  cases n
  case leaf => exact yields_bind <| yields_children_leaf hl <| yields_pure ⟨rfl, rfl⟩
  case fork i t c l r =>
    refine yields_bind <| yields_children_fork hl.1 <| yields_bind <| yields_and ?_
    cases l
    case fork => exact yields_isLeaf_fork hl.2.1.1 <| yields_pure ⟨rfl, rfl⟩
    case leaf j x =>
      refine yields_isLeaf_leaf hl.2.1 ?_
      cases r
      case fork => exact yields_isLeaf_fork hl.2.2.1 <| yields_pure ⟨rfl, rfl⟩
      case leaf k y =>
        refine yields_isLeaf_leaf hl.2.2 ?_
        exact yields_bind <| yields_entry hl.2.1 <| yields_bind <| yields_entry hl.2.2 <|
          yields_pure ⟨rfl, rfl⟩

theorem answers_probe [Scalar R] [Measured S] (r s : Region S) :
    (probe r s : Handler S Bool σ (Violation R)).Answers fun cell _ =>
      {x | ∃ y, r.probe s cell = .ok y ∧ x = some y} := by
  intro a up cell forks n hn
  refine yields_bind <| yields_walls hn.walls hn.holds.entry Node.parent_entry hn.hangs ?_
  cases hp : r.probe s cell
  case ok y    => exact yields_pure ⟨rfl, y, hp, rfl⟩
  case error v => exact fun _ => ⟨_, rfl, trivial⟩

end Arena.Action

namespace Operation

variable [Scalar R] [Measured S]

def decider (r s : Region S) (op : Operation) : Arena.Decider S Bool σ (Violation R) :=
  match op with
  | union        => .union
  | intersection => .intersection
  | xor          => .xor
  | difference   => .difference r s

-- What may become of a fork without cut.
def answers (r s : Region S) (op : Operation) (e : Encounter S Unit Bool) :
    Handler S Unit Bool SetM :=
  match op with
  | union        => fun _ n => pure (n.agreed (some e.leaf.isInside))
  | intersection => fun _ n => pure (n.agreed (some e.leaf.isInside))
  | xor          => fun _ n => pure (n.agreed (some true))
  | difference   => fun cell _ => {x | ∃ y, r.probe s cell = .ok y ∧ x = some y}

end Operation

namespace Arena.Action

variable [Scalar R] [Measured S]

theorem decides_operation (r s : Region S) (op : Operation) :
    Decides (op.decider r s : Decider S Bool σ (Violation R)) (op.merger (op.answers r s)) := by
  intro a place cell forks p q i t n fromInstance hm
  have hk {d : Decision S Bool σ (Violation R)} {e : Encounter S Unit Bool}
      {vanish : SpacePartition.Handler S Unit Bool SetM}
      (h : d.keep (.leaf () t) n.bare = op.keep e) :
      ((d.keep (.leaf () t) n.bare).insertIn vanish cell).run ⊆
        ((op.keep e).insertIn vanish cell).run :=
    h ▸ fun _ hm => hm
  cases op <;> refine yields_bind <| yields_isInside hm.ours <| yields_pure ⟨rfl, _, ?_, hk ?_⟩
  case union.refine_1        => exact answers_agreed _
  case intersection.refine_1 => exact answers_agreed _
  case xor.refine_1          => exact answers_agreed _
  case difference.refine_1   => exact answers_probe r s
  case union.refine_2        => rcases t with _ | _ | _ <;> rfl
  case intersection.refine_2 => rcases t with _ | _ | _ <;> rfl
  case xor.refine_2          =>
    rcases t with _ | _ | _
    case some.true => exact Node.mark_flip
    all_goals rfl
  case difference.refine_2 =>
    rcases t with _ | _ | _ <;> cases fromInstance
    case some.true.true => exact Node.mark_flip
    all_goals rfl

end Arena.Action

namespace Arena

-- Whether a handler does no more than to look at the arena.
def Handler.Observes (fix : Handler S α σ ε) : Prop :=
  ∀ ⦃a : Arena S α⦄ ⦃up cell forks n⦄, a.Located up cell forks n →
    (fix n.id).Yields a fun _ a' => a' = a

-- Whether decisions, and the handlers that they name, do no more than to look at the arena.
def Decider.Observes (decide : Decider S α σ ε) : Prop :=
  ∀ ⦃a : Arena S α⦄ ⦃place cell forks p q i t⦄ ⦃n : Node S Nat α⦄ ⦃fromInstance⦄,
    a.Meet place cell forks p q (.leaf i t) n →
      (decide i n.id place fromInstance).Yields a fun d a' => a' = a ∧ d.fix.Observes

variable {fix : Handler S α σ ε} {decide : Decider S α σ ε}
variable {vanish : SpacePartition.Handler S Unit α SetM}

theorem Handler.Answers.observes (h : fix.Answers vanish) : fix.Observes :=
  fun _ _ _ _ _ hl => (h hl).imp fun _ _ he => he.1

theorem Handler.Observes.answers (h : fix.Observes) : fix.Answers fun _ _ => Set.univ :=
  fun _ _ _ _ _ hl => (h hl).imp fun _ _ he => ⟨he, trivial⟩

variable [DecidableEq α]

theorem Decider.Observes.decides (h : decide.Observes) : Action.Decides decide fun _ => Set.univ :=
  fun _ _ _ _ _ _ _ _ _ _ hm => (h hm).imp fun _ _ hd =>
    ⟨hd.1, _, hd.2.answers, fun _ _ => trivial⟩

theorem Action.Decides.observes {result : SpacePartition.Merger S Unit α SetM}
    (h : Action.Decides decide result) : decide.Observes := by
  intro a place cell forks p q i t n fromInstance hm
  refine (h hm).imp fun d a' hd => ?_
  obtain ⟨rfl, vanish, hf, -⟩ := hd
  exact ⟨rfl, hf.observes⟩

theorem observes_decider [Scalar R] [Measured S] (r s : Region S) (op : Operation) :
    (op.decider r s : Decider S Bool σ (Violation R)).Observes :=
  (Action.decides_operation r s op).observes

theorem observes_union : (Decider.union : Decider S Bool σ ε).Observes := by
  intro a place cell forks p q i t n fromInstance hm
  refine Action.yields_bind <| Action.yields_isInside hm.ours <| Action.yields_pure ⟨rfl, ?_⟩
  exact (Action.answers_agreed _).observes

-- Whether an action ends having changed none but given entries of an arena.
def Action.Touches {β : Type} (x : Action S α σ ε β) (a : Arena S α) (X : Nat → Prop) : Prop :=
  x.Yields a fun _ a' => a.Evolves X a'

-- A merge of well-formed arenas ends, refused by its decider or with a well-formed arena that has
-- no entries but the reachable ones. On the way no call changes what it was not given: of the
-- entries that are there, only those of the partitions that it gets, and of the fork that they are
-- hung into.
theorem wellFormed_merge (hd : decide.Observes) :
    (∀ a b : Arena S α, a.WellFormed → b.WellFormed →
      (Action.merge (Action.attaching decide) b).Yields a fun _ c =>
        c.WellFormed ∧ ∀ i < c.entries.size, c.Reachable i) ∧
    (∀ (a : Arena S α) place cell forks p q n o, a.Meet place cell forks p q n o →
      (Index.mergeNodes (Action.attaching decide) n.id o.id place).Touches a fun j =>
        j ∈ n.ids ∨ j ∈ o.ids ∨ place.map Prod.fst = some j) ∧
    (∀ (a : Arena S α) p n sub, a.Holds p n → n.ids.Nodup →
      (Index.split n.id sub : Action S α σ ε Nat).Touches a (· ∈ n.ids)) ∧
    ∀ fix : Handler S α σ ε, fix.Observes →
      (∀ (a : Arena S α) place cell forks p q n o, a.Meet place cell forks p q n o →
        (Action.insertIn fix n.id place).Touches a fun j =>
          j ∈ n.ids ∨ place.map Prod.fst = some j) ∧
      ∀ (a : Arena S α) up cell forks n h b, a.Located up cell forks n →
        (Index.chop fix h b n.id).Touches a (· ∈ n.ids) := by
  have hm := Action.acts_attaching hd.decides
  refine ⟨fun a b ha hb => ?merge, fun a place cell forks p q n o h => ?mergeNodes,
    fun a p n sub h hn => ?split, fun fix hf => ⟨fun a place cell forks p q n o h => ?insertIn,
      fun a up cell forks n h b hn => ?chop⟩⟩
  case merge =>
    obtain ⟨n, hn, hrn, dn⟩ := ha.exists_holds
    obtain ⟨o, ho, hro, dO⟩ := hb.exists_holds
    refine (Action.yields_merge hm hn hrn dn ho hro dO).imp fun _ c hc => ?_
    obtain ⟨m, -, hc⟩ := hc
    exact ⟨hc.wellFormed, hc.reachable⟩
  case mergeNodes =>
    refine (Action.yields_mergeNodes hm h).imp fun _ a' h' => ?_
    obtain ⟨m, -, h', -⟩ := h'
    exact h'.evolves.mono fun j => or_assoc.mp
  case split =>
    refine (Action.yields_split h hn).imp fun _ a' h' => ?_
    obtain ⟨halves, h'⟩ := h'
    exact h'.evolves
  case insertIn =>
    refine (Action.yields_insertIn hf.answers h.walls h.ours h.nodup.1
      (fun j hj => h.below j (.inl hj)) h.vacant_id).imp fun _ a' h' => ?_
    obtain ⟨m, -, h', -⟩ := h'
    exact h'.evolves
  case chop =>
    refine (Action.yields_chop hf.answers hn).imp fun _ a' h' => ?_
    obtain ⟨m, h', -⟩ := h'
    exact h'.evolves

-- Two rays, as they are made and merged into each other.
theorem wellFormed_merge_of_rays :
    let cut (x : ℚ) : OrientedPoint (Exact ℚ) := ⟨.finite x, true, .finite 1⟩
    let ray (x : ℚ) : Arena (line (Exact ℚ)) Bool :=
      ⟨#[⟨.leaf, some 2, some false⟩, ⟨.leaf, some 2, some true⟩,
        ⟨.fork (cut x) 0 1, none, none⟩], 2⟩
    let both := (ray 0).append (ray 5)
    let root (x : ℚ) (k : Nat) : Node (line (Exact ℚ)) Nat Bool :=
      .fork (k + 2) none (cut x) (.leaf k (some false)) (.leaf (k + 1) (some true))
    let merger : Merger (line (Exact ℚ)) Bool Unit Empty := Action.attaching .union
    let fix : Handler (line (Exact ℚ)) Bool Unit Empty := Action.agreed none
    (Decider.union : Decider (line (Exact ℚ)) Bool Unit Empty).Observes ∧ fix.Observes ∧
      (ray 0).WellFormed ∧ (ray 5).WellFormed ∧
      both.Meet none [] [] none none (root 0 0) (root 5 3) ∧
      (∃ c, Action.merge merger (ray 5) (ray 0, ()) = some (.ok ((), c, ())) ∧
        c.WellFormed ∧ ∀ i < c.entries.size, c.Reachable i) ∧
      ((Index.mergeNodes merger 2 5 none).Touches both fun j =>
        j ∈ (root 0 0).ids ∨ j ∈ (root 5 3).ids ∨ none = some j) ∧
      (Index.split 5 (cut 0) : Action _ _ Unit Empty Nat).Touches both (· ∈ (root 5 3).ids) ∧
      ((Action.insertIn fix 2 none).Touches both fun j => j ∈ (root 0 0).ids ∨ none = some j) ∧
      (Index.chop fix (cut 0) .plus 5).Touches both (· ∈ (root 5 3).ids) := by
  intro cut ray both root merger fix
  have hu : (Decider.union : Decider (line (Exact ℚ)) Bool Unit Empty).Observes := observes_union
  have hf : fix.Observes := (Action.answers_agreed none).observes
  have hr (x : ℚ) : (ray x).Holds none (root x 0) := ⟨rfl, rfl, rfl⟩
  have hw (x : ℚ) : (ray x).WellFormed := (hr x).wellFormed rfl rfl (by decide : [0, 1, 2].Nodup)
  have hm : both.Meet none [] [] none none (root 0 0) (root 5 3) := by
    have hr₀ : both.Holds none (root 0 0) := evolves_append.holds (hr 0) fun _ _ hf => hf
    refine ⟨.root, hr₀, (hr 5).append, by decide, by decide, fun _ _ => List.not_mem_nil, ?_⟩
    exact fun q hq => by cases hq
  obtain ⟨hmerge, hnodes, hsplit, hfix⟩ := wellFormed_merge hu
  obtain ⟨hinsert, hchop⟩ := hfix fix hf
  obtain ⟨_, c, _, hc, hw'⟩ := (hmerge _ _ (hw 0) (hw 5)).exists_ok ()
  exact ⟨hu, hf, hw 0, hw 5, hm, ⟨c, hc, hw'⟩, hnodes _ _ _ _ _ _ _ _ hm,
    hsplit _ _ _ _ hm.theirs hm.nodup.2, hinsert _ _ _ _ _ _ _ _ hm,
    hchop _ none [] [] _ _ _
      ⟨.root, trivial, hm.theirs, hm.nodup.2, fun j hj => hm.below j (.inr hj)⟩⟩

end Arena
end SpacePartition
