import SpacePartition.Node.Lemmas
import Mathlib.Algebra.Order.Field.Rat
import SpacePartition.Line.Interval
import SpacePartition.Proofs.Region.Operation
import SpacePartition.Proofs.Scalar.Exact

/-!
De Morgan duality. A union and the intersection of the complements are built in the same way, cut by
cut, so that their trees are complements of each other. Nothing is asked of the geometry.
-/

namespace SpacePartition

variable {R : Type} {S : Space R} {ι κ α : Type}

namespace Node

-- The leaves of both halves of a partition are leaves of the partition.
theorem mem_leafAttrs_split [Inhabited ι] [DecidableEq α] {n : Node S ι α} {sub : S.Sub}
    {a : Option α} :
    a ∈ (n.split sub).plus.leafAttrs ∨ a ∈ (n.split sub).minus.leafAttrs ↔ a ∈ n.leafAttrs := by
  fun_induction split n sub <;> simp_all [mem_leafAttrs_condense, leafAttrs] <;> grind

-- Whether all leaves carry an attribute. The complement gives one to every leaf, so that it
-- exchanges inside and outside only among leaves that have one.
def Labelled (n : Node S ι α) : Prop :=
  none ∉ n.leafAttrs

instance [DecidableEq α] (n : Node S ι α) : Decidable n.Labelled :=
  inferInstanceAs (Decidable (none ∉ n.leafAttrs))

@[simp]
theorem labelled_leaf {i : ι} {a : Option α} : (leaf (S := S) i a).Labelled ↔ a.isSome := by
  cases a <;> simp [Labelled, leafAttrs]

@[simp]
theorem labelled_fork {i : ι} {a : Option α} {cut : S.Sub} {p m : Node S ι α} :
    (fork i a cut p m).Labelled ↔ p.Labelled ∧ m.Labelled := by
  simp [Labelled, leafAttrs]

@[simp]
theorem labelled_relabel {f : ι → κ} {n : Node S ι α} : (n.relabel f).Labelled ↔ n.Labelled := by
  simp [Labelled]

@[simp]
theorem labelled_number {k} {n : Node S ι α} : (n.number k).Labelled ↔ n.Labelled := by
  simp [Labelled]

@[simp]
theorem labelled_condense [DecidableEq α] {n : Node S ι α} : n.condense.Labelled ↔ n.Labelled := by
  simp [Labelled, mem_leafAttrs_condense]

theorem labelled_clearForks {n : Node S ι α} : n.clearForks.Labelled ↔ n.Labelled := by
  simp [Labelled]

theorem labelled_simplify [DecidableEq α] {n : Node S ι α} : n.simplify.Labelled ↔ n.Labelled := by
  simp [Labelled, mem_leafAttrs_simplify]

theorem Labelled.split [Inhabited ι] [DecidableEq α] {n : Node S ι α} (h : n.Labelled)
    (sub : S.Sub) : (n.split sub).plus.Labelled ∧ (n.split sub).minus.Labelled :=
  ⟨fun hp => h <| mem_leafAttrs_split.mp (.inl hp), fun hm => h <| mem_leafAttrs_split.mp (.inr hm)⟩

section Complement

variable {n : Node S ι Bool}

theorem complement_relabel {f : ι → κ} : (n.relabel f).complement = n.complement.relabel f := by
  induction n <;> simp_all [complement, relabel]

theorem size_complement : n.complement.size = n.size := by
  induction n <;> simp_all [complement, size]

theorem complement_number {k} : (n.number k).complement = n.complement.number k := by
  induction n generalizing k <;> simp_all [complement, number, size_complement]

theorem complement_clearForks : n.clearForks.complement = n.complement.clearForks := by
  induction n <;> simp_all [complement, clearForks]

-- Two leaves have one attribute if and only if their complements do.
theorem Labelled.complement_condense (h : n.Labelled) :
    n.condense.complement = n.complement.condense := by
  cases n
  case leaf => rfl
  case fork i a cut p m =>
    cases p <;> cases m
    case leaf.leaf j b k d =>
      simp only [labelled_fork, labelled_leaf, Option.isSome_iff_exists] at h
      obtain ⟨⟨b, rfl⟩, ⟨d, rfl⟩⟩ := h
      cases b <;> cases d <;> rfl
    all_goals rfl

theorem Labelled.complement_simplify (h : n.Labelled) :
    n.simplify.complement = n.complement.simplify := by
  induction n
  case leaf => rfl
  case fork i a cut p m hp hm =>
    simp only [labelled_fork] at h
    have hc : (fork i a cut p.simplify m.simplify).Labelled := by simp [labelled_simplify, h]
    rw [simplify, hc.complement_condense]
    simp only [complement, simplify, hp h.left, hm h.right]

theorem Labelled.complement_split [Inhabited ι] (h : n.Labelled) (sub : S.Sub) :
    n.complement.split sub =
      { n.split sub with
        plus  := (n.split sub).plus.complement
        minus := (n.split sub).minus.complement } := by
  induction n generalizing sub
  case leaf => rfl
  case fork i a cut p m hp hm =>
    have ⟨lp, lm⟩ := labelled_fork.mp h
    simp only [complement, Node.split]
    split
    case h_1 =>
      rw [hp lp]
      split <;> simp [Labelled.complement_condense, lp.split, lm, complement]
    case h_2 =>
      rw [hm lm]
      split <;> simp [Labelled.complement_condense, lm.split, lp, complement]
    case h_3 =>
      rw [hp lp, hm lm]
      simp [Labelled.complement_condense, lm.split, lp.split, complement]
    case h_4 => split <;> rfl

theorem labelled_complement (n : Node S ι Bool) : n.complement.Labelled := by
  induction n <;> simp_all [complement]

theorem Labelled.complement_complement (h : n.Labelled) : n.complement.complement = n := by
  induction n
  case leaf i a =>
    obtain ⟨a, rfl⟩ := Option.isSome_iff_exists.mp (labelled_leaf.mp h)
    cases a <;> rfl
  case fork hp hm =>
    have ⟨lp, lm⟩ := labelled_fork.mp h
    simp only [complement, hp lp, hm lm]

end Complement

section ComplementIf

variable {n p m : Node S ι Bool} {b : Bool}

-- A partition or its complement.
def complementIf (b : Bool) (n : Node S ι Bool) : Node S ι Bool :=
  if b then n.complement else n

theorem complementIf_leaf {i : ι} {a : Option Bool} : (leaf (S := S) i a).complementIf b =
    leaf i ((leaf (S := S) i a).complementIf b).attr := by
  cases b <;> rfl

theorem complementIf_fork {i : ι} {a : Option Bool} {cut : S.Sub} :
    (fork i a cut p m).complementIf b = fork i a cut (p.complementIf b) (m.complementIf b) := by
  cases b <;> rfl

theorem complementIf_refit {cell : Cell S} :
    (n.refit cell).complementIf b = (n.complementIf b).refit cell := by
  cases n <;> cases b <;> rfl

theorem Labelled.complementIf_condense (h : n.Labelled) :
    n.condense.complementIf b = (n.complementIf b).condense := by
  cases b
  case false => rfl
  case true  => exact h.complement_condense

theorem Labelled.complementIf_split [Inhabited ι] (h : n.Labelled) (sub : S.Sub) :
    (n.complementIf b).split sub =
      { n.split sub with
        plus  := (n.split sub).plus.complementIf b
        minus := (n.split sub).minus.complementIf b } := by
  cases b
  case false => rfl
  case true  => exact h.complement_split sub

end ComplementIf
end Node

-- Two choices that are opposite wherever two partitions are.
def Choice.Dual (choose choose' : Choice S ι Bool) : Prop :=
  ∀ cell n, n.Labelled →
    (choose cell n).isSome ∧ choose' cell n.complement = (choose cell n).map (!·)

namespace Node

theorem agreed_dual (fallback : Bool) :
    Choice.Dual (S := S) (ι := ι) (fun _ n => n.agreed (some fallback))
      (fun _ n => n.agreed (some !fallback)) := by
  intro _ n h
  cases n
  case leaf => exact ⟨rfl, rfl⟩
  case fork i a cut p m =>
    cases p <;> cases m
    case leaf.leaf j b k d =>
      simp only [labelled_fork, labelled_leaf, Option.isSome_iff_exists] at h
      obtain ⟨⟨b, rfl⟩, ⟨d, rfl⟩⟩ := h
      cases b <;> cases d <;> exact ⟨rfl, rfl⟩
    all_goals exact ⟨rfl, rfl⟩

variable {choose choose' : Choice S ι Bool} {n other : Node S ι Bool}

theorem complement_trim (hd : choose.Dual choose') (hn : n.Labelled) (h keep cell) :
    (n.trim choose h keep cell).Labelled ∧
      n.complement.trim choose' h keep cell = (n.trim choose h keep cell).complement := by
  induction n generalizing cell
  case leaf => exact ⟨hn, rfl⟩
  case fork i a cut p m hp hm =>
    have ⟨lp, lm⟩ := labelled_fork.mp hn
    have ⟨tp, ep⟩ := hp lp (⟨cut, .plus⟩ :: cell)
    have ⟨tm, em⟩ := hm lm (⟨cut, .minus⟩ :: cell)
    simp only [complement, trim_fork, ep, em]
    split
    case h_1 => exact ⟨labelled_fork.mpr ⟨tp, tm⟩, rfl⟩
    case h_2 =>
      have ⟨hs, he⟩ := hd cell (fork i a cut _ _) <| labelled_fork.mpr ⟨tp, tm⟩
      refine ⟨labelled_leaf.mpr hs, ?_⟩
      have ⟨b, hb⟩ := Option.isSome_iff_exists.mp hs
      rw [complement, hb, Option.map_some] at he
      rw [complement, he, hb]
      cases b <;> rfl

theorem complement_trimAll (hd : choose.Dual choose') (hn : n.Labelled) (cell walls) :
    (n.trimAll choose cell walls).Labelled ∧
      n.complement.trimAll choose' cell walls = (n.trimAll choose cell walls).complement := by
  induction walls generalizing n
  case nil => exact ⟨hn, rfl⟩
  case cons wall _ hi =>
    have ⟨ht, he⟩ := complement_trim hd hn (S.hyperplane wall.cut) wall.side cell
    rw [trimAll_cons, trimAll_cons, he]
    exact hi ht

theorem complement_placeIn (hd : choose.Dual choose') (hn : n.Labelled) (cell) :
    (n.placeIn choose cell).Labelled ∧
      n.complement.placeIn choose' cell = (n.placeIn choose cell).complement := by
  have ⟨ht, he⟩ := complement_trimAll hd hn cell cell
  exact ⟨labelled_condense.mpr ht, by rw [placeIn, placeIn, he, ht.complement_condense]⟩

end Node

namespace Encounter

def Labelled (e : Encounter S ι α) : Prop :=
  e.leaf.Labelled ∧ e.other.Labelled

def complement (e : Encounter S ι Bool) : Encounter S ι Bool :=
  { e with attr := e.leaf.complement.attr, other := e.other.complement }

-- The encounter when either partition or both are exchanged for their complements.
def complementIf (ours theirs : Bool) (e : Encounter S ι Bool) : Encounter S ι Bool :=
  { e with
    attr  := (e.leaf.complementIf (if e.fromInstance then ours else theirs)).attr
    other := e.other.complementIf (if e.fromInstance then theirs else ours) }

theorem complementIf_true {e : Encounter S ι Bool} : e.complementIf true true = e.complement := by
  simp only [complementIf, ite_self, Node.complementIf, if_true, complement]

end Encounter

namespace Node

variable {n other : Node S ι Bool} {place place' : Encounter S ι Bool → Node S ι Bool}

theorem labelled_refit {cell : Cell S} : (n.refit cell).Labelled ↔ n.Labelled := by
  cases n <;> simp [refit]

-- Both merges meet the same leaves in the same cells, since only cuts direct them.
theorem complementIf_mergeBy [Inhabited ι] {x y z : Bool}
    (hd : ∀ e, e.Labelled →
      (place e).Labelled ∧ place' (e.complementIf x y) = (place e).complementIf z)
    (hn : n.Labelled) (ho : other.Labelled) (cell) :
    (n.mergeBy place cell other).Labelled ∧
      (n.complementIf x).mergeBy place' cell (other.complementIf y) =
        (n.mergeBy place cell other).complementIf z := by
  induction n generalizing cell other
  case leaf i a =>
    rw [complementIf_leaf]
    exact hd ⟨i, a, other, cell, true⟩ ⟨hn, ho⟩
  case fork i a cut p m hp hm =>
    rw [complementIf_fork]
    cases other
    case leaf j b =>
      have he := hd ⟨j, b, fork i a cut p m, cell, false⟩ ⟨ho, hn⟩
      simp only [Encounter.complementIf, complementIf_fork] at he
      rw [complementIf_leaf]
      exact he
    case fork j b cut' p' m' =>
      have ⟨lp, lm⟩ := labelled_fork.mp hn
      have ⟨sp, sm⟩ := ho.split cut
      have ⟨tp, ep⟩ := hp lp sp (⟨cut, .plus⟩ :: cell)
      have ⟨tm, em⟩ := hm lm sm (⟨cut, .minus⟩ :: cell)
      have hs := ho.complementIf_split (b := y) cut
      rw [complementIf_fork] at hs ⊢
      simp only [mergeBy_fork_fork, hs, ep, em]
      refine ⟨labelled_refit.mpr <| labelled_condense.mpr <| labelled_fork.mpr ⟨tp, tm⟩, ?_⟩
      rw [complementIf_refit, Labelled.complementIf_condense <| labelled_fork.mpr ⟨tp, tm⟩,
        complementIf_fork]

theorem complement_mergeBy [Inhabited ι]
    (hd : ∀ e, e.Labelled → (place e).Labelled ∧ place' e.complement = (place e).complement)
    (hn : n.Labelled) (ho : other.Labelled) (cell) :
    (n.mergeBy place cell other).Labelled ∧
      n.complement.mergeBy place' cell other.complement =
        (n.mergeBy place cell other).complement :=
  complementIf_mergeBy (x := true) (y := true) (z := true)
    (fun e he => e.complementIf_true ▸ hd e he) hn ho cell

end Node

namespace Operation

variable {e : Encounter S ι Bool} {op op' : Operation}

theorem isInside_complement (e : Encounter S ι Bool) :
    e.complement.leaf.isInside = !e.leaf.isInside := by
  obtain ⟨_, _ | _ | _, _⟩ := e <;> rfl

theorem settle_dual (e : Encounter S ι Bool) : (settle e).Dual (settle e.complement) := by
  unfold settle
  rw [isInside_complement]
  exact Node.agreed_dual _

-- Where the one operation keeps the leaf, so does the other.
theorem keep_complement (ho : (op, op') = (union, intersection) ∨ (op, op') = (intersection, union))
    (h : e.Labelled) : (op.keep e).Labelled ∧ op'.keep e.complement = (op.keep e).complement := by
  have ⟨hl, hr⟩ := h
  rcases ho with ho | ho <;> cases ho
  all_goals
    simp only [keep, isInside_complement]
    cases e.leaf.isInside <;> exact ⟨‹_›, rfl⟩

theorem place_complement
    (ho : (op, op') = (union, intersection) ∨ (op, op') = (intersection, union))
    (e : Encounter S ι Bool) (h : e.Labelled) :
    (op.place settle e).Labelled ∧
      op'.place settle e.complement = (op.place settle e).complement := by
  have ⟨hl, hk⟩ := keep_complement ho h
  rw [place, place, hk]
  exact Node.complement_placeIn (settle_dual e) hl e.cell

end Operation

namespace Region

variable {a b : Region S}

theorem combine_settle [BEq R] {op : Operation} {merger} (hm : merger = op.merger fun e cell n =>
    pure (Operation.settle e cell n)) (ht : a.tolerance == b.tolerance) :
    combine merger a b = .ok (ofMerged
      (a.tree.root.mergeBy (op.place Operation.settle) [] (a.follower b)) a.tolerance) :=
  combine_pure ht fun e _ => hm ▸ op.merger_pure Operation.settle e

theorem complement_ofMerged {n : Node S ι Bool} {tolerance : R} (h : n.Labelled) :
    (ofMerged n tolerance).complement = ofMerged n.complement tolerance := by
  have h' : (n.number 0).clearForks.Labelled := by simpa [Node.labelled_clearForks] using h
  have hs := h'.complement_simplify
  rw [Node.complement_clearForks, Node.complement_number] at hs
  simp only [ofMerged, Region.complement, Tree.ofNode, Node.complement_number, ← hs,
    Node.size_complement]

theorem complement_follower : a.complement.follower b.complement = (a.follower b).complement :=
  Node.complement_relabel.symm

variable [BEq R]

theorem complement_combine {op op' : Operation} {merger merger'}
    (ho : (op, op') = (.union, .intersection) ∨ (op, op') = (.intersection, .union))
    (hm : merger = op.merger fun e cell n => pure (Operation.settle e cell n))
    (hm' : merger' = op'.merger fun e cell n => pure (Operation.settle e cell n))
    (ht : a.tolerance == b.tolerance) (ha : a.tree.root.Labelled) (hb : b.tree.root.Labelled) :
    ∃ r, combine merger a b = .ok r ∧
      combine merger' a.complement b.complement = .ok r.complement := by
  have hf : (a.follower b).Labelled := Node.labelled_relabel.mpr hb
  have ⟨hl, he⟩ := Node.complement_mergeBy (Operation.place_complement ho) ha hf []
  refine ⟨_, combine_settle hm ht, ?_⟩
  have hc := combine_settle (a := a.complement) (b := b.complement) hm' ht
  rw [hc, complement_follower, complement_ofMerged hl, ← he]
  rfl

theorem complement_union_and_intersection (ht : a.tolerance == b.tolerance)
    (ha : a.tree.root.Labelled) (hb : b.tree.root.Labelled) :
    (∃ r, union a b = .ok r ∧ intersection a.complement b.complement = .ok r.complement) ∧
    (∃ r, intersection a b = .ok r ∧ union a.complement b.complement = .ok r.complement) :=
  ⟨complement_combine (.inl rfl) Operation.union_eq Operation.intersection_eq ht ha hb,
   complement_combine (.inr rfl) Operation.intersection_eq Operation.union_eq ht ha hb⟩

-- The cut at `3 / 2` vanishes from the union, as it is too close to the cut at `1` that takes the
-- place of the one at `0`.
theorem complement_union_and_intersection_of_vanishing :
    let cut x direct : OrientedPoint (Exact ℚ) := ⟨.finite x, direct, .finite 1⟩
    let a : Region (line (Exact ℚ)) := halfSpace (cut 1 true) (.finite 1)
    let b : Region (line (Exact ℚ)) :=
      (interval (.finite 0) (.finite (3 / 2)) (.finite 1)).complement
    ((a.tolerance == b.tolerance) = true ∧ a.tree.root.Labelled ∧ b.tree.root.Labelled) ∧
    (∃ r, union a b = .ok r ∧ intersection a.complement b.complement = .ok r.complement) ∧
    (∃ r, intersection a b = .ok r ∧ union a.complement b.complement = .ok r.complement) :=
  have h : _ ∧ _ ∧ _ := by decide +kernel
  ⟨h, complement_union_and_intersection h.1 h.2.1 h.2.2⟩

end Region
end SpacePartition
