import SpacePartition.Proofs.Line.Layout
import SpacePartition.Proofs.Node.Condensed
import SpacePartition.Proofs.Region.Duality

/-!
Operations of a region with itself. Every cut splits its own copy off, so that leaf meets leaf and
nothing is fitted: what comes out is the region itself, simplified, or nothing.
-/

namespace SpacePartition

variable {R : Type} {S : Space R} {ι κ α : Type}

-- Whether a sub-hyperplane lies within its own hyperplane and is oriented like it.
structure Space.Coherent (S : Space R) (s : S.Sub) : Prop where
  split           : S.split s (S.hyperplane s) = ⟨none, none⟩
  sameOrientation : S.sameOrientation (S.hyperplane s) (S.hyperplane s)

namespace Node

section Alike

-- Whether two partitions have one shape, with cuts of the same hyperplanes at corresponding forks
-- and the same attributes at corresponding leaves.
def Alike : Node S ι α → Node S κ α → Prop
  | leaf _ a, leaf _ b             => a = b
  | fork _ _ c p m, fork _ _ d q l => S.hyperplane c = S.hyperplane d ∧ p.Alike q ∧ m.Alike l
  | _, _                           => False

variable {n p m : Node S ι α} {n' q l : Node S κ α} {k : Nat}

theorem Alike.isLeaf_eq (h : n.Alike n') : n.isLeaf = n'.isLeaf := by
  cases n <;> cases n' <;> first | rfl | cases h

theorem Alike.attr_eq (h : n.Alike n') (hn : n.isLeaf) : n.attr = n'.attr := by
  cases n <;> cases hn
  cases n'
  case leaf => exact h
  case fork => cases h

theorem Alike.idle (hp : p.Alike q) (hm : m.Alike l) (h : p.Idle m) : q.Idle l :=
  ⟨hp.isLeaf_eq ▸ h.1, hm.isLeaf_eq ▸ h.2.1, by rw [← hp.attr_eq h.1, ← hm.attr_eq h.2.1, h.2.2]⟩

theorem Alike.symm (h : n.Alike n') : n'.Alike n := by
  induction n generalizing n'
  case leaf => cases n' <;> [exact Eq.symm h; cases h]
  case fork hp hm =>
    cases n'
    case leaf => cases h
    case fork => exact ⟨h.1.symm, hp h.2.1, hm h.2.2⟩

theorem alike_refl (n : Node S ι α) : n.Alike n := by
  induction n
  case leaf       => rfl
  case fork hp hm => exact ⟨rfl, hp, hm⟩

theorem Alike.trans {μ : Type} {n'' : Node S μ α} (h : n.Alike n') (h' : n'.Alike n'') :
    n.Alike n'' := by
  induction n generalizing n' n''
  case leaf =>
    cases n'
    case fork => cases h
    case leaf => cases n'' <;> [exact Eq.trans h h'; cases h']
  case fork hp hm =>
    cases n'
    case leaf => cases h
    case fork =>
      cases n''
      case leaf => cases h'
      case fork => exact ⟨h.1.trans h'.1, hp h.2.1 h'.2.1, hm h.2.2 h'.2.2⟩

theorem alike_number : (n.number k).Alike n' ↔ n.Alike n' := by
  induction n generalizing n' k <;> cases n' <;> simp_all [number, Alike]

theorem alike_clearForks : n.clearForks.Alike n' ↔ n.Alike n' := by
  induction n generalizing n' <;> cases n' <;> simp_all [clearForks, Alike]

theorem alike_refit (hS : S.Grounded) {cell : Cell S} : (n.refit cell).Alike n' ↔ n.Alike n' := by
  cases n
  case leaf => rfl
  case fork =>
    obtain ⟨c, hr, hc⟩ := exists_refit_fork hS cell
    rw [hr]
    cases n' <;> simp [Alike, hc]

variable [DecidableEq α]

theorem Alike.condense (h : n.Alike n') : n.condense.Alike n'.condense := by
  cases n <;> cases n'
  case leaf.leaf => exact h
  case leaf.fork => cases h
  case fork.leaf => cases h
  case fork.fork p m _ _ _ q l =>
    obtain ⟨hc, hp, hm⟩ := h
    by_cases hi : p.Idle m
    case pos =>
      rw [condense_of_idle hi, condense_of_idle (hp.idle hm hi)]
      exact hp.attr_eq hi.1
    case neg =>
      rw [condense_of_not_idle hi, condense_of_not_idle fun hi' => hi <| hp.symm.idle hm.symm hi']
      exact ⟨hc, hp, hm⟩

theorem Alike.simplify (h : n.Alike n') : n.simplify.Alike n'.simplify := by
  induction n generalizing n'
  case leaf => cases n' <;> [exact h; cases h]
  case fork hp hm =>
    cases n'
    case leaf => cases h
    case fork => exact Alike.condense ⟨h.1, hp h.2.1, hm h.2.2⟩

end Alike

section Merge

variable [Inhabited ι] [DecidableEq α] {n : Node S ι α} {cell : Cell S} {f : ι → ι}

theorem split_relabel_self {i a c} {p m : Node S ι α} (h : S.Coherent c) :
    ((fork i a c p m).relabel f).split c = ⟨f i, a, p.relabel f, m.relabel f⟩ := by
  simp only [relabel, split, h.split, h.sameOrientation, if_true]

theorem encounters_relabel_self (hc : ∀ s ∈ n.cuts, S.Coherent s) {e : Encounter S ι α}
    (he : e ∈ n.encounters cell (n.relabel f)) :
    ∃ i a j cell, e = ⟨i, a, leaf j a, cell, true⟩ := by
  induction n generalizing cell
  case leaf i a => exact ⟨i, a, f i, cell, List.mem_singleton.mp he⟩
  case fork i a c p m hp hm =>
    obtain ⟨hc, cp, cm⟩ := forall_cuts_fork.mp hc
    have hs := split_relabel_self (i := i) (a := a) (p := p) (m := m) (f := f) hc
    rw [relabel] at hs he
    rw [encounters, hs] at he
    rcases List.mem_append.mp he with he | he
    case inl => exact hp cp he
    case inr => exact hm cm he

-- If a merger keeps attributes where leaves of one attribute meet, a partition that is merged with
-- itself is simplified.
theorem alike_mergeBy_self (hS : S.Grounded) (hc : ∀ s ∈ n.cuts, S.Coherent s)
    {place : Encounter S ι α → Node S ι α}
    (hp : ∀ i a j cell, ∃ k, place ⟨i, a, leaf j a, cell, true⟩ = leaf k a) :
    (n.mergeBy place cell (n.relabel f)).Alike n.simplify := by
  induction n generalizing cell
  case leaf i a =>
    obtain ⟨k, hk⟩ := hp i a (f i) cell
    have hm : (leaf i a).mergeBy place cell ((leaf i a).relabel f) = leaf k a := hk
    rw [hm]
    rfl
  case fork i a c p m ihp ihm =>
    obtain ⟨hc, cp, cm⟩ := forall_cuts_fork.mp hc
    have hs := split_relabel_self (i := i) (a := a) (p := p) (m := m) (f := f) hc
    rw [relabel] at hs ⊢
    rw [mergeBy_fork_fork, hs, alike_refit hS]
    exact Alike.condense ⟨rfl, ihp cp, ihm cm⟩

end Merge

theorem isEmpty_iff_leafAttrs {n : Node S ι Bool} : n.isEmpty ↔ some true ∉ n.leafAttrs := by
  induction n
  case leaf a => rcases a with _ | _ | _ <;> simp [isEmpty, leafAttrs]
  case fork hp hm =>
    simp only [isEmpty, leafAttrs, Bool.and_eq_true, hp, hm, List.mem_append, not_or, and_comm]

end Node

namespace Operation

-- What becomes of a leaf that meets another one of its attribute.
def twice (a : Option Bool) : Operation → Option Bool
  | union | intersection => a
  | xor | difference     => if a == some true then some false else a

theorem keep_self (op : Operation) (i : ι) (a : Option Bool) (j : ι) (cell : Cell S) :
    ∃ k, op.keep ⟨i, a, .leaf j a, cell, true⟩ = .leaf k (op.twice a) := by
  cases op <;> rcases a with _ | _ | _ <;> exact ⟨_, rfl⟩

end Operation

namespace Region

theorem mem_leafAttrs_ofMerged {n : Node S ι Bool} {tolerance : R} {x : Option Bool} :
    x ∈ (ofMerged n tolerance).tree.root.leafAttrs ↔ x ∈ n.leafAttrs := by
  simp [ofMerged, Tree.ofNode, Node.mem_leafAttrs_simplify]

variable [Scalar R] [Measured S] {a : Region S}

section Apply

variable (op : Operation) (ht : Scalar.isNaN a.tolerance = false)
variable (hc : ∀ s ∈ a.tree.root.cuts, S.Coherent s)

include ht hc

theorem apply_self : op.apply a a = .ok (ofMerged
    (a.tree.root.mergeBy op.keep [] (a.follower a)) a.tolerance) := by
  have ht : a.tolerance == a.tolerance := by simpa [Scalar.isNaN] using ht
  rw [op.apply_eq]
  refine combine_pure ht fun e he => ?_
  obtain ⟨i, x, j, cell, rfl⟩ := Node.encounters_relabel_self hc he
  obtain ⟨k, hk⟩ := op.keep_self i x j cell
  rw [Operation.merger, hk, Node.insertIn_leaf]

theorem isEmpty_apply_self (h : ∀ x, op.twice x ≠ some true) :
    ∃ r, op.apply a a = .ok r ∧ r.isEmpty := by
  refine ⟨_, apply_self op ht hc, Node.isEmpty_iff_leafAttrs.mpr ?_⟩
  rw [mem_leafAttrs_ofMerged, Node.mem_leafAttrs_mergeBy]
  rintro ⟨e, he, hx⟩
  obtain ⟨i, x, j, cell, rfl⟩ := Node.encounters_relabel_self hc he
  obtain ⟨k, hk⟩ := op.keep_self i x j cell
  rw [hk] at hx
  exact h x (List.mem_singleton.mp hx).symm

theorem alike_apply_self (hS : S.Grounded) (h : ∀ x, op.twice x = x) :
    ∃ r, op.apply a a = .ok r ∧ r.tree.root.Alike a.tree.simplify.root := by
  refine ⟨_, apply_self op ht hc, ?_⟩
  have hm : (a.tree.root.mergeBy op.keep [] (a.follower a)).Alike a.tree.root.simplify := by
    refine Node.alike_mergeBy_self hS hc fun i x j cell => ?_
    obtain ⟨k, hk⟩ := op.keep_self i x j cell
    exact ⟨k, by rw [hk, h]⟩
  have hs := (Node.alike_clearForks.mpr <| (Node.alike_number (k := 0)).mpr hm).simplify
  rw [Node.simplify_simplify] at hs
  exact Node.alike_number.mpr (Node.alike_number.mpr hs.symm).symm

end Apply

-- A region less itself is empty, and with itself it is itself, simplified. Its partition may be
-- any, fitted or not.
theorem operations_with_self (ht : Scalar.isNaN a.tolerance = false)
    (hc : ∀ s ∈ a.tree.root.cuts, S.Coherent s) :
    (∃ r, a.difference a = .ok r ∧ r.isEmpty) ∧ (∃ r, a.xor a = .ok r ∧ r.isEmpty) ∧
    a.contains a = .ok true ∧
    (S.Grounded →
      (∃ r, a.union a = .ok r ∧ r.tree.root.Alike a.tree.simplify.root) ∧
      ∃ r, a.intersection a = .ok r ∧ r.tree.root.Alike a.tree.simplify.root) := by
  have vanish (x : Option Bool) : (if x == some true then some false else x) ≠ some true := by
    rcases x with _ | _ | _ <;> nofun
  obtain ⟨r, hr, he⟩ := isEmpty_apply_self .difference ht hc vanish
  refine ⟨⟨r, hr, he⟩, isEmpty_apply_self .xor ht hc vanish, ?_, fun hS =>
    ⟨alike_apply_self .union ht hc hS fun _ => rfl,
     alike_apply_self .intersection ht hc hS fun _ => rfl⟩⟩
  have hd : a.difference a = .ok r := hr
  rw [contains, hd, ← he]
  rfl

-- A region whose tolerance is no number has no tolerance in common with itself, and a space may
-- mean another hyperplane by all of a hyperplane.
theorem not_operations_with_self :
    let a : Region (line (Exact ℚ)) := .whole .undefined
    let twisted : Space (Exact ℚ) := { line (Exact ℚ) with whole := OrientedPoint.reversed }
    let cut : OrientedPoint (Exact ℚ) := ⟨.finite 0, true, .finite 1⟩
    let b : Region twisted :=
      ⟨.ofParts cut (.leaf (some false)) (.leaf (some true)) none, .finite 1⟩
    ((line (Exact ℚ)).Grounded ∧ (∀ s ∈ a.tree.root.cuts, (line (Exact ℚ)).Coherent s) ∧
      (∀ r, a.difference a ≠ .ok r) ∧ (∀ r, a.xor a ≠ .ok r) ∧ a.contains a ≠ .ok true ∧
      (∀ r, a.union a ≠ .ok r) ∧ ∀ r, a.intersection a ≠ .ok r) ∧
    ((∀ s h side part, (twisted.split s h).on side = some part →
        twisted.hyperplane part = twisted.hyperplane s) ∧
      (∀ s ∈ b.tree.root.cuts, twisted.Coherent s) ∧
      ∀ r, b.union b = .ok r → ¬r.tree.root.Alike b.tree.simplify.root) := by
  intro a twisted cut b
  have refused (op : Operation) (r) : op.apply a a ≠ .ok r := by
    cases op <;> nofun
  refine ⟨⟨Space.grounded_line _, nofun, refused .difference, refused .xor, nofun, refused .union,
    refused .intersection⟩, fun s h side part => OrientedPoint.part_eq, ?coherent,
    fun r hr ha => ?turned⟩
  case coherent =>
    intro s hs
    cases List.mem_singleton.mp hs
    exact ⟨OrientedPoint.split_self zero_le_one true, rfl⟩
  case turned =>
    have hcut :
        (fun r : Region twisted => r.tree.root.cut?.map OrientedPoint.direct) <$> b.union b =
          .ok (some false) := by
      decide +kernel
    obtain ⟨r', hr', hd⟩ := Except.map_eq_ok.mp hcut
    cases Except.ok.inj (hr.symm.trans hr')
    generalize r.tree.root = n at ha hd
    cases n
    case leaf => cases hd
    case fork c _ _ =>
      have hc : c = cut := And.left ha
      rw [hc] at hd
      cases hd

-- A cut is repeated, another one misses its cell, and one leaf has no attribute.
theorem operations_with_self_of_ill_fitted :
    let cut (x : ℚ) : OrientedPoint (Exact ℚ) := ⟨.finite x, true, .finite 1⟩
    let a : Region (line (Exact ℚ)) := ⟨⟨.fork 6 none (cut 0)
      (.fork 2 none (cut (-5)) (.leaf 0 (some true)) (.leaf 1 none))
      (.fork 5 none (cut 0) (.leaf 3 (some false)) (.leaf 4 (some false))), 7⟩, .finite 1⟩
    Scalar.isNaN a.tolerance = false ∧ (∀ s ∈ a.tree.root.cuts, (line (Exact ℚ)).Coherent s) ∧
    (line (Exact ℚ)).Grounded ∧
    (∃ r, a.difference a = .ok r ∧ r.isEmpty) ∧ (∃ r, a.xor a = .ok r ∧ r.isEmpty) ∧
    a.contains a = .ok true ∧
    (∃ r, a.union a = .ok r ∧ r.tree.root.Alike a.tree.simplify.root) ∧
    ∃ r, a.intersection a = .ok r ∧ r.tree.root.Alike a.tree.simplify.root := by
  intro cut a
  have ht : Scalar.isNaN a.tolerance = false := by decide +kernel
  have hcut x : (line (Exact ℚ)).Coherent (cut x) :=
    ⟨OrientedPoint.split_self zero_le_one true, rfl⟩
  have hc : ∀ s ∈ a.tree.root.cuts, (line (Exact ℚ)).Coherent s := by
    simp [a, Node.cuts, hcut]
  have hS := Space.grounded_line (Exact ℚ)
  obtain ⟨hd, hx, hcontains, hui⟩ := operations_with_self ht hc
  exact ⟨ht, hc, hS, hd, hx, hcontains, hui hS⟩

end Region
end SpacePartition
