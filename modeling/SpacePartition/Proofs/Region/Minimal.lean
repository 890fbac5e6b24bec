import SpacePartition.Proofs.Node.Condensed
import SpacePartition.Proofs.Region.Duality
import SpacePartition.Proofs.Region.Uniform

/-!
Minimal partitions, in which no two leaves of a fork lie on one side. Simplifying compares
attributes, and there are two of them for the outside: a leaf that says so and a leaf that says
nothing. Where all leaves of the operands say where they are, what comes of an operation is minimal;
else a fork between an outside leaf of each kind may be left.
-/

namespace SpacePartition

variable {R : Type} {S : Space R} {ι α : Type}

namespace Node

section Cleared

variable {n : Node S ι α} {k : Nat}

-- Whether no fork has an attribute.
def Cleared : Node S ι α → Prop
  | leaf ..        => True
  | fork _ a _ p m => a = none ∧ p.Cleared ∧ m.Cleared

theorem cleared_clearForks (n : Node S ι α) : n.clearForks.Cleared := by
  induction n
  case leaf       => trivial
  case fork hp hm => exact ⟨rfl, hp, hm⟩

theorem cleared_number : (n.number k).Cleared ↔ n.Cleared := by
  induction n generalizing k <;> simp_all [number, Cleared]

variable [DecidableEq α]

theorem Cleared.condense (h : n.Cleared) : n.condense.Cleared := by
  fun_cases Node.condense n
  case case1 => trivial
  all_goals exact h

theorem Cleared.simplify (h : n.Cleared) : n.simplify.Cleared := by
  induction n
  case leaf       => trivial
  case fork hp hm => exact Cleared.condense ⟨h.1, hp h.2.1, hm h.2.2⟩

end Cleared

section Minimal

variable {n p m : Node S ι Bool} {inside : Bool} {path : Path} {i : ι} {a : Option Bool} {c : S.Sub}

-- Whether two nodes are leaves on one side.
def Twins (p m : Node S ι Bool) : Prop :=
  p.isLeaf ∧ m.isLeaf ∧ p.isInside = m.isInside

def Minimal : Node S ι Bool → Prop
  | leaf ..        => True
  | fork _ _ _ p m => p.Minimal ∧ m.Minimal ∧ ¬p.Twins m

theorem Twins.idle (h : p.Twins m) (hp : p.Labelled) (hm : m.Labelled) : p.Idle m := by
  obtain ⟨lp, lm, hi⟩ := h
  cases p <;> cases lp
  cases m <;> cases lm
  obtain ⟨x, rfl⟩ := Option.isSome_iff_exists.mp (labelled_leaf.mp hp)
  obtain ⟨y, rfl⟩ := Option.isSome_iff_exists.mp (labelled_leaf.mp hm)
  refine ⟨rfl, rfl, ?_⟩
  cases x <;> cases y <;> first | rfl | cases hi

-- Leaves on one side that differ are both outside, and only one of them says so.
theorem Twins.outside (h : p.Twins m) (hi : ¬p.Idle m) :
    p.isInside = false ∧ (p.attr = none ↔ m.attr ≠ none) := by
  obtain ⟨lp, lm, hs⟩ := h
  have ha : p.attr ≠ m.attr := fun ha => hi ⟨lp, lm, ha⟩
  rw [isInside, isInside] at hs
  rw [isInside]
  generalize p.attr = x at *
  generalize m.attr = y at *
  rcases x with _ | _ | _ <;> rcases y with _ | _ | _ <;> simp_all

theorem Condensed.not_idle (h : n.Condensed) (hn : n.at? path = some (fork i a c p m)) :
    ¬p.Idle m := by
  induction n generalizing path
  case leaf => cases path <;> cases hn
  case fork hp hm =>
    obtain ⟨cp, cm, hi⟩ := h
    rcases path with _ | ⟨_ | _, path⟩
    case nil        => cases hn; exact hi
    case cons.plus  => exact hp cp hn
    case cons.minus => exact hm cm hn

theorem Condensed.minimal (h : n.Condensed) (hn : n.Labelled) : n.Minimal := by
  induction n
  case leaf => trivial
  case fork hp hm =>
    obtain ⟨cp, cm, hi⟩ := h
    have ⟨lp, lm⟩ := labelled_fork.mp hn
    exact ⟨hp cp lp, hm cm lm, fun ht => hi (ht.idle lp lm)⟩

theorem Uniform.isLeaf (hu : n.Uniform inside) (h : n.Minimal) : n.isLeaf := by
  induction n
  case leaf => rfl
  case fork p m hp hm =>
    obtain ⟨mp, mm, ht⟩ := h
    have leaf {q : Node S ι Bool} (hq : q.isLeaf) (hu : q.Uniform inside) :
        q.isInside = inside := by
      cases q <;> cases hq
      exact hu
    have lp := hp hu.1 mp
    have lm := hm hu.2 mm
    exact absurd ⟨lp, lm, (leaf lp hu.1).trans (leaf lm hu.2).symm⟩ ht

-- An inside leaf always says so.
theorem Uniform.labelled (hu : n.Uniform true) : n.Labelled := by
  induction n
  case leaf a =>
    refine labelled_leaf.mpr ?_
    have ha : a = some true := eq_of_beq hu
    rw [ha]
    rfl
  case fork hp hm => exact labelled_fork.mpr ⟨hp hu.1, hm hu.2⟩

end Minimal

end Node

section Runs

variable {ε : Type} {vanish : Handler S ι α (Except ε)}

-- Whether a handler gives its leaf an attribute, as long as all leaves have one.
def Handler.Labels (vanish : Handler S ι α (Except ε)) : Prop :=
  ∀ cell n a, n.Labelled → vanish cell n = .ok a → a.isSome

namespace Node

variable {n n' other : Node S ι α} {cell walls : Cell S}

theorem Labelled.chop (hv : vanish.Labels) (hn : n.Labelled) {h keep}
    (hr : n.chop vanish h keep cell = .ok n') : n'.Labelled := by
  induction n generalizing cell n'
  case leaf => cases hr; exact hn
  case fork i a cut p m hp hm =>
    have ⟨lp, lm⟩ := labelled_fork.mp hn
    simp only [Node.chop, Except.bind_eq_ok] at hr
    obtain ⟨p', hp', m', hm', hr⟩ := hr
    have hl : (fork i a cut p' m').Labelled := labelled_fork.mpr ⟨hp lp hp', hm lm hm'⟩
    cases hs : (S.split cut h).on keep <;> simp only [hs] at hr
    case some => cases hr; exact hl
    case none =>
      obtain ⟨x, hx, hr⟩ := Except.bind_eq_ok.mp hr
      cases hr
      exact labelled_leaf.mpr (hv cell _ x hl hx)

theorem Labelled.chopAll (hv : vanish.Labels) (hn : n.Labelled)
    (hr : n.chopAll vanish cell walls = .ok n') : n'.Labelled := by
  induction walls generalizing n
  case nil => cases hr; exact hn
  case cons wall walls hi =>
    rw [Node.chopAll, Except.bind_eq_ok] at hr
    obtain ⟨k, hk, hr⟩ := hr
    have hl := hn.chop hv hk
    cases k
    case leaf => cases hr; exact hl
    case fork => exact hi hl hr

variable [DecidableEq α]

theorem Labelled.insertIn (hv : vanish.Labels) (hn : n.Labelled)
    (hr : n.insertIn vanish cell = .ok n') : n'.Labelled := by
  obtain ⟨k, hk, rfl⟩ := Except.map_eq_ok.mp hr
  exact labelled_condense.mpr (hn.chopAll hv hk)

theorem Labelled.merge [Inhabited ι] {merger : Merger S ι α (Except ε)}
    (hm : ∀ e k, e.Labelled → merger e = .ok k → k.Labelled) (hn : n.Labelled) (ho : other.Labelled)
    (hr : n.merge merger cell other = .ok n') : n'.Labelled := by
  induction n generalizing cell other n'
  case leaf i a => exact hm ⟨i, a, other, cell, true⟩ _ ⟨hn, ho⟩ hr
  case fork i a cut p q hp hq =>
    have ⟨lp, lq⟩ := labelled_fork.mp hn
    cases other
    case leaf j b => exact hm ⟨j, b, fork i a cut p q, cell, false⟩ _ ⟨ho, hn⟩ hr
    case fork =>
      have ⟨sp, sm⟩ := ho.split cut
      simp only [Node.merge, Except.bind_eq_ok] at hr
      obtain ⟨p', hp', q', hq', hr⟩ := hr
      cases hr
      rw [Labelled, leafAttrs_refit]
      exact labelled_condense.mpr <| labelled_fork.mpr ⟨hp lp sp hp', hq lq sm hq'⟩

end Node
end Runs

namespace Operation

variable {e : Encounter S ι Bool} {op : Operation}

theorem labelled_keep (op : Operation) (h : e.Labelled) : (op.keep e).Labelled := by
  obtain ⟨hl, ho⟩ := h
  have hours : e.ours.Labelled ∧ e.theirs.Labelled := by
    rw [Encounter.ours, Encounter.theirs]
    cases e.fromInstance
    case false => exact ⟨ho, hl⟩
    case true  => exact ⟨hl, ho⟩
  cases op <;> rw [keep] <;> split
  case union.isTrue         => exact hl
  case union.isFalse        => exact ho
  case intersection.isTrue  => exact ho
  case intersection.isFalse => exact hl
  case xor.isTrue           => exact Node.labelled_complement _
  case xor.isFalse          => exact ho
  case difference.isTrue    => exact Node.labelled_complement _
  case difference.isFalse   => exact hours.1

variable [Scalar R] [Measured S] {a b : Region S}

theorem labels_handler (op : Operation) (e : Encounter S Nat Bool) : (op.handler a b e).Labels := by
  have agreed (fallback : Bool) : Handler.Labels (ε := Violation R)
      fun (_ : Cell S) (n : Node S Nat Bool) => pure (n.agreed (some fallback)) := by
    intro cell n x hn hx
    cases hx
    exact (Node.agreed_dual fallback cell n hn).1
  cases op
  case union        => exact agreed _
  case intersection => exact agreed _
  case xor          => exact agreed true
  case difference   =>
    intro cell n x _ hx
    obtain ⟨inside, -, rfl⟩ := Except.map_eq_ok.mp hx
    rfl

theorem labelled_merge {n : Node S Nat Bool} (ha : a.tree.root.Labelled) (hb : b.tree.root.Labelled)
    (hn : a.tree.root.merge (op.merger (op.handler a b)) [] (a.follower b) = .ok n) :
    n.Labelled := by
  have hf : (a.follower b).Labelled := Node.labelled_relabel.mpr hb
  exact ha.merge (fun e _ he hk => (op.labelled_keep he).insertIn (op.labels_handler e) hk) hf hn

-- What an operation does about a fork without cut, where no probe fails.
def chosen (a b : Region S) (op : Operation) (e : Encounter S Nat Bool) : Choice S Nat Bool :=
  match op with
  | union        => fun _ n => n.agreed (some e.leaf.isInside)
  | intersection => fun _ n => n.agreed (some e.leaf.isInside)
  | xor          => fun _ n => n.agreed (some true)
  | difference   => fun cell _ => (a.probe b cell).toOption

end Operation

namespace Region

variable {a b r : Region S} {op : Operation}

theorem exists_merge [BEq R] {merger : Merger S Nat Bool (Except (Violation R))}
    (h : combine merger a b = .ok r) :
    ∃ n, a.tree.root.merge merger [] (a.follower b) = .ok n ∧ r = ofMerged n a.tolerance := by
  simp only [combine] at h
  split at h
  case isTrue =>
    obtain ⟨t, ht, h⟩ := Except.bind_eq_ok.mp h
    obtain ⟨n, hn, rfl⟩ := Except.map_eq_ok.mp ht
    exact ⟨n, hn, (Except.ok.inj h).symm⟩
  case isFalse => cases h

variable [Scalar R] [Measured S]

-- Only probes and different tolerances keep an operation from an answer.
theorem exists_apply_of_probes (ht : a.tolerance == b.tolerance)
    (hp : op = .difference → ∀ cell, ∃ inside, a.probe b cell = .ok inside) :
    ∃ r, op.apply a b = .ok r := by
  have hc : op.handler a b = fun e cell n => pure (op.chosen a b e cell n) := by
    cases op
    case difference =>
      funext e cell n
      obtain ⟨inside, hi⟩ := hp rfl cell
      simp only [Operation.handler, Operation.chosen, hi]
      rfl
    all_goals rfl
  have hm (e : Encounter S Nat Bool) (_ : e ∈ a.tree.root.encounters [] (a.follower b)) :
      op.merger (op.handler a b) e = pure (op.place (op.chosen a b) e) :=
    hc ▸ op.merger_pure (op.chosen a b) e
  exact ⟨_, (op.apply_eq a b).trans <| combine_pure ht hm⟩

-- What an operation comes to is simplified as far as attributes tell leaves apart.
theorem minimal_apply (op : Operation) (a b : Region S) :
    ((a.tolerance == b.tolerance) = true →
      (op = .difference → ∀ cell, ∃ inside, a.probe b cell = .ok inside) →
      ∃ r, op.apply a b = .ok r) ∧
    ∀ r, op.apply a b = .ok r →
      r.tree.root.Cleared ∧
      (r.isFull = true → r.tree.root.isLeaf = true) ∧
      (∀ path i x cut p m, r.tree.root.at? path = some (.fork i x cut p m) → p.Twins m →
        p.isInside = false ∧ (p.attr = none ↔ m.attr ≠ none)) ∧
      (a.tree.root.Labelled → b.tree.root.Labelled →
        r.tree.root.Minimal ∧ (r.isEmpty = true → r.tree.root.isLeaf = true)) := by
  refine ⟨exists_apply_of_probes, fun r hr => ?_⟩
  rw [Operation.apply_eq] at hr
  obtain ⟨n, hn, rfl⟩ := exists_merge hr
  have hc : (ofMerged n a.tolerance).tree.root.Condensed :=
    Node.condensed_number.mpr (Node.condensed_simplify _)
  refine ⟨?cleared, fun hf => ?full, fun path i x cut p m hp ht => ?twins, fun ha hb => ?minimal⟩
  case cleared =>
    exact Node.cleared_number.mpr (Node.cleared_clearForks _).simplify
  case full =>
    have hu := Node.isFull_iff.mp hf
    exact hu.isLeaf (hc.minimal hu.labelled)
  case twins => exact ht.outside (hc.not_idle hp)
  case minimal =>
    have hl : n.Labelled := Operation.labelled_merge ha hb hn
    have hm := hc.minimal <| by
      simpa [ofMerged, Tree.ofNode, Node.labelled_simplify, Node.labelled_clearForks] using hl
    exact ⟨hm, fun he => (Node.isEmpty_iff.mp he).isLeaf hm⟩

theorem minimal_apply_of_overlap :
    let t : Exact ℚ := .finite (1 / 4)
    let a : Region (line (Exact ℚ)) := interval (.finite 0) (.finite 2) t
    let b : Region (line (Exact ℚ)) := interval (.finite 1) (.finite 3) t
    ((a.tolerance == b.tolerance) = true ∧ (∀ cell, ∃ inside, a.probe b cell = .ok inside) ∧
      a.tree.root.Labelled ∧ b.tree.root.Labelled) ∧
    ∃ r, a.difference b = .ok r ∧ r.tree.root.Cleared ∧ r.tree.root.Minimal := by
  intro t a b
  have ⟨ht, ha, hb⟩ : (a.tolerance == b.tolerance) = true ∧ a.tree.root.Labelled ∧
      b.tree.root.Labelled := by
    decide +kernel
  have hp (cell) : ∃ inside, a.probe b cell = .ok inside := ⟨_, rfl⟩
  have ⟨answers, minimal⟩ := minimal_apply .difference a b
  obtain ⟨r, hr⟩ := answers ht fun _ => hp
  obtain ⟨cleared, -, -, labelled⟩ := minimal r hr
  exact ⟨⟨ht, hp, ha, hb⟩, r, hr, cleared, (labelled ha hb).1⟩

-- A fork between two outside leaves is left if only one of them says that it is outside.
theorem not_minimal_union :
    let t : Exact ℚ := .finite (1 / 4)
    let cut : OrientedPoint (Exact ℚ) := ⟨.finite 0, true, t⟩
    let a : Region (line (Exact ℚ)) := ⟨.ofParts cut (.leaf none) (.leaf (some false)) none, t⟩
    ∃ r, a.union (.empty t) = .ok r ∧ r.isEmpty = true ∧ r.tree.root.isLeaf = false ∧
      ¬r.tree.root.Minimal := by
  intro t cut a
  have hr : a.union (.empty t) = .ok (ofMerged a.tree.root t) := by
    rw [union, Operation.union_eq, combine_of_merge (n := a.tree.root) Exact.finite_beq_self rfl]
  exact ⟨_, hr, rfl, rfl, fun h => h.2.2 ⟨rfl, rfl, rfl⟩⟩

end Region
end SpacePartition
