import SpacePartition.Proofs.Node.Merge
import SpacePartition.Proofs.Region.Operation

/-!
Boolean operations on fitted regions. Wherever a leaf meets a node, the node that is kept says what
the operation says; nothing vanishes, and the result is fitted again.
-/

namespace SpacePartition

variable {R : Type} {S : Space R} {ι : Type} {look : Outlook S}

namespace Operation

theorem holds_keep (op : Operation) (e : Encounter S ι Bool) :
    (op.keep e).holds look = op.holds (e.ours.holds look) (e.theirs.holds look) := by
  have hl : e.leaf.holds look = e.leaf.isInside := rfl
  rcases h : e.leaf.isInside <;> rcases h' : e.fromInstance <;> cases op <;>
    simp [keep, Operation.holds, Encounter.ours, Encounter.theirs, hl, h, h', Node.holds_complement]

theorem fitted_keep {P : Type} {L : Layout S P} {C : Set P} (op : Operation)
    {e : Encounter S ι Bool} (h : L.Fitted C e.other) : L.Fitted C (op.keep e) := by
  have hl : L.Fitted C e.leaf := Layout.fitted_leaf
  have hc {n : Node S ι Bool} (hn : L.Fitted C n) : L.Fitted C n.complement :=
    Layout.fitted_complement.mpr hn
  cases op <;> rw [keep] <;> split
  case union.isTrue         => exact hl
  case union.isFalse        => exact h
  case intersection.isTrue  => exact h
  case intersection.isFalse => exact hl
  case xor.isTrue           => exact hc h
  case xor.isFalse          => exact h
  all_goals cases hf : e.fromInstance <;> simp only [Encounter.ours, Encounter.theirs, hf]
  case difference.isTrue.false  => exact hc hl
  case difference.isTrue.true   => exact hc h
  case difference.isFalse.false => exact h
  case difference.isFalse.true  => exact hl

-- What the operation leaves where a leaf meets a node that is fitted to the cell.
def settled (op : Operation) (e : Encounter S ι Bool) : Node S ι Bool :=
  ((op.keep e).shortenAll e.cell).condense

theorem holds_settled {P : Type} {L : Layout S P} (hL : L.Lawful) (op : Operation)
    (e : Encounter S ι Bool) :
    (op.settled e).holds look = op.holds (e.ours.holds look) (e.theirs.holds look) := by
  rw [settled, Node.holds_condense, Node.holds, hL.verdict_shortenAll]
  exact op.holds_keep e

end Operation

-- A merged partition is numbered and simplified, which changes neither its cells nor its leaves.
theorem Layout.Fitted.normalize {P : Type} {L : Layout S P} {C : Set P} {n : Node S ι Bool}
    (h : L.Fitted C n) : L.Fitted C (Tree.ofNode n.clearForks.simplify).root :=
  fitted_number.mpr <| Fitted.simplify <| fitted_clearForks.mpr h

theorem Node.holds_normalize {n : Node S ι Bool} :
    (Tree.ofNode n.clearForks.simplify).root.holds look = n.holds look := by
  rw [Tree.ofNode, holds_number, holds_simplify, holds_clearForks]

-- Every point lies in a cell where a leaf of one region meets a node of the other.
theorem Region.exists_encounter (a b : Region S) (look : Outlook S) :
    ∃ e ∈ a.tree.root.encounters [] (a.follower b), e.cell.Contains look :=
  Node.exists_encounter fun _ => nofun

namespace Layout.Fitted

variable {P : Type} {L : Layout S P} {a b : Region S}

theorem follower (hb : L.Fitted .univ b.tree.root) : L.Fitted (L.interior []) (a.follower b) :=
  Layout.fitted_relabel.mpr hb

variable (hL : L.Separating) (hT : L.Tight)
variable (ha : L.Fitted .univ a.tree.root) (hb : L.Fitted .univ b.tree.root)

include hL hT ha hb

-- The handler is never called: it may be any, and run in any monad.
theorem merge_eq {m : Type → Type} [Monad m] [LawfulMonad m] (op : Operation)
    (vanish : Encounter S Nat Bool → Handler S Nat Bool m) :
    ∀ e ∈ a.tree.root.encounters [] (a.follower b), op.merger vanish e = pure (op.settled e) := by
  intro e he
  have hr : L.Fitted (L.interior []) a.tree.root := ha
  have ⟨hc, ho⟩ := hr.encounters hL Layout.proper_nil hb.follower he
  exact (op.fitted_keep ho).insertIn hT hc (vanish e)

theorem merges (op : Operation) :
    L.Merges .univ op.holds a.tree.root (a.follower b)
      (a.tree.root.mergeBy op.settled [] (a.follower b)) := by
  have hr : L.Fitted (L.interior []) a.tree.root := ha
  constructor
  case fitted =>
    refine hr.mergeBy hL Layout.proper_nil hb.follower (fun e he => ?encounter) fun hc hn => ?refit
    case encounter =>
      have ⟨hc, ho⟩ := hr.encounters hL Layout.proper_nil hb.follower he
      exact ((op.fitted_keep ho).shortenAll hL.toLawful hc fun _ => interior_subset).condense
    case refit => exact hn.refit hT hc
  case holds =>
    intro look x hx _
    have ⟨e, he, h⟩ := Region.exists_encounter a b look
    obtain ⟨h₁, h₂, h₃⟩ := hr.holds_encounter hL Layout.proper_nil hb.follower he hx h
    rw [h₃, op.holds_settled hL.toLawful, h₁, h₂]

-- The merge of the trees is the same under any handlers, so that the operation uses none.
theorem apply [Scalar R] [Measured S] (ht : a.tolerance == b.tolerance) (op : Operation) :
    ∃ t : Tree S Bool,
      (∀ (m : Type → Type) [Monad m] [LawfulMonad m]
        (vanish : Encounter S Nat Bool → Handler S Nat Bool m),
        a.tree.merge (op.merger vanish) b.tree = pure t) ∧
      op.apply a b = .ok ⟨.ofNode t.root.clearForks.simplify, a.tolerance⟩ ∧
      L.Merges .univ op.holds a.tree.root b.tree.root t.root := by
  have hm (m : Type → Type) [Monad m] [LawfulMonad m]
      (vanish : Encounter S Nat Bool → Handler S Nat Bool m) :=
    Node.merge_pure (ha.merge_eq hL hT hb op vanish)
  refine ⟨.ofNode (a.tree.root.mergeBy op.settled [] (a.follower b)), ?any, ?apply, ?merges⟩
  case any =>
    intro m _ _ vanish
    have h := hm m vanish
    rw [Region.follower] at h
    rw [Tree.merge, h, map_pure, Region.follower]
  case apply =>
    rw [op.apply_eq, Region.combine_pure ht (ha.merge_eq hL hT hb op _)]
    rfl
  case merges =>
    have h := ha.merges hL hT hb op
    refine ⟨Layout.fitted_number.mpr h.fitted, fun hx hC => ?_⟩
    have hh := h.holds hx hC
    rw [Region.follower, Node.holds_relabel] at hh
    rw [Tree.ofNode, Node.holds_number, ← hh, Region.follower]

theorem apply_ok [Scalar R] [Measured S] (ht : a.tolerance == b.tolerance) (op : Operation) :
    ∃ r, op.apply a b = .ok r ∧ r.tolerance = a.tolerance ∧
      L.Merges .univ op.holds a.tree.root b.tree.root r.tree.root := by
  have ⟨t, _, ho, hm⟩ := ha.apply hL hT hb ht op
  exact ⟨_, ho, rfl, hm.fitted.normalize, fun hx hC => Node.holds_normalize.trans <| hm.holds hx hC⟩

end Layout.Fitted
end SpacePartition
