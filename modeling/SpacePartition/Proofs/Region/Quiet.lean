import SpacePartition.Proofs.Region.Duality

/-!
Complements moved through operations. A difference is built in the same way as the intersection with
the complement, and a symmetric difference as those of which one operand is complemented, cut by
cut, as long as no cut vanishes from them. Nothing is asked of the geometry.
-/

namespace SpacePartition

variable {R : Type} {S : Space R} {ι : Type}

namespace Operation

variable {op : Operation} {e : Encounter S ι Bool} {a b : Region S} {x : Bool}

-- Whether no cut vanishes from the nodes that an operation keeps, so that nobody is asked for a
-- leaf.
def Quiet (op : Operation) (a b : Region S) : Prop :=
  (a.tree.root.merge (op.merger fun _ => .refuse) [] (a.follower b)).isOk

instance : Decidable (op.Quiet a b) :=
  inferInstanceAs (Decidable (_ = true))

theorem Quiet.exists_merge (h : op.Quiet a b) : ∃ n,
    (∀ {m : Type → Type} [Monad m] [LawfulMonad m]
      (vanish : Encounter S Nat Bool → Handler S Nat Bool m),
      a.tree.root.merge (op.merger vanish) [] (a.follower b) = pure n) ∧
    ∀ choose, a.tree.root.mergeBy (op.place choose) [] (a.follower b) = n := by
  rw [Quiet] at h
  cases hn : a.tree.root.merge (op.merger fun _ => .refuse) [] (a.follower b)
  case error => rw [hn] at h; cases h
  case ok n =>
    refine ⟨n, fun vanish => ?merge, fun choose => ?mergeBy⟩
    case merge => exact Node.merge_eq_pure (fun e k hk => Node.insertIn_eq_pure hk _) hn
    case mergeBy =>
      refine Node.merge_eq_pure (m := Id) (fun e k hk => ?_) hn
      rw [← Node.insertIn_eq_pure hk fun cell n => pure (choose e cell n), Node.insertIn_pure]
      rfl

-- What the operation comes to is then the same for all choices of leaves.
theorem Quiet.apply_eq [Scalar R] [Measured S] (h : op.Quiet a b) (ht : a.tolerance == b.tolerance)
    (choose : Encounter S Nat Bool → Choice S Nat Bool) :
    op.apply a b = .ok (.ofMerged
      (a.tree.root.mergeBy (op.place choose) [] (a.follower b)) a.tolerance) := by
  obtain ⟨n, hm, hp⟩ := h.exists_merge
  rw [op.apply_eq, hp, Region.combine_of_merge ht (hm _)]

-- The intersection with the complement keeps what the difference does.
theorem keep_difference (h : e.Labelled) :
    (difference.keep e).Labelled ∧
      intersection.keep (e.complementIf false true) = difference.keep e := by
  obtain ⟨i, a, other, cell, fromInstance⟩ := e
  have ⟨hl, ho⟩ := h
  obtain ⟨a, rfl⟩ := Option.isSome_iff_exists.mp (Node.labelled_leaf.mp hl)
  cases fromInstance <;> cases a
  case false.false => exact ⟨ho, rfl⟩
  case false.true  => exact ⟨Node.labelled_complement _, rfl⟩
  case true.false  => exact ⟨hl, rfl⟩
  case true.true   => exact ⟨Node.labelled_complement _, rfl⟩

-- With one operand complemented, the other of a node and its complement is kept.
theorem keep_xor (h : e.Labelled) :
    (xor.keep e).Labelled ∧ xor.keep (e.complementIf x (!x)) = (xor.keep e).complement := by
  obtain ⟨i, a, other, cell, fromInstance⟩ := e
  have ⟨hl, ho⟩ := h
  obtain ⟨a, rfl⟩ := Option.isSome_iff_exists.mp (Node.labelled_leaf.mp hl)
  have hc : (xor.keep ⟨i, some a, other, cell, fromInstance⟩).Labelled := by
    cases a
    case false => exact ho
    case true  => exact Node.labelled_complement other
  refine ⟨hc, ?_⟩
  cases fromInstance <;> cases a <;> cases x
  case false.true.false => exact ho.complement_complement.symm
  case true.true.true   => exact ho.complement_complement.symm
  all_goals rfl

theorem place_difference (h : e.Labelled) :
    let choose (e : Encounter S ι Bool) := settle (e.complementIf false true)
    (difference.place choose e).Labelled ∧
      intersection.place settle (e.complementIf false true) = difference.place choose e := by
  have ⟨hl, hk⟩ := keep_difference h
  have hd := settle_dual (e.complementIf false true)
  exact ⟨(Node.complement_placeIn hd hl e.cell).1, by rw [place, hk]; rfl⟩

theorem place_xor (h : e.Labelled) :
    (xor.place (fun _ _ n => n.agreed (some false)) e).Labelled ∧
      xor.place (fun _ _ n => n.agreed (some true)) (e.complementIf x (!x)) =
        (xor.place (fun _ _ n => n.agreed (some false)) e).complement := by
  have ⟨hl, hk⟩ := keep_xor (x := x) h
  rw [place, place, hk]
  exact Node.complement_placeIn (Node.agreed_dual false) hl e.cell

end Operation

namespace Region

variable {a b : Region S}

theorem xor_eq_ok [BEq R] (ht : a.tolerance == b.tolerance) : a.xor b = .ok (ofMerged
    (a.tree.root.mergeBy (Operation.xor.place fun _ _ n => n.agreed (some true)) [] (a.follower b))
    a.tolerance) :=
  combine_pure ht fun e _ => Operation.xor.merger_pure (fun _ _ n => n.agreed (some true)) e

variable [Scalar R] [Measured S]

-- A difference is the intersection with the complement, and a complement moves out of a symmetric
-- difference, as long as no cut vanishes.
theorem difference_and_xor_of_quiet (ht : a.tolerance == b.tolerance)
    (ha : a.tree.root.Labelled) (hb : b.tree.root.Labelled) :
    (Operation.difference.Quiet a b →
      ∃ r, a.difference b = .ok r ∧ a.intersection b.complement = .ok r) ∧
    (Operation.xor.Quiet a b →
      ∃ r, a.xor b = .ok r ∧ a.complement.xor b = .ok r.complement ∧
        a.xor b.complement = .ok r.complement) := by
  have hf : (a.follower b).Labelled := Node.labelled_relabel.mpr hb
  have hc : a.follower b.complement = (a.follower b).complement := complement_follower
  have same {n n' : Node S Nat Bool} (h : n = n') :
      Except.ok (ε := Violation R) (ofMerged n a.tolerance) = .ok (ofMerged n' a.tolerance) := by
    rw [h]
  refine ⟨fun h => ?difference, fun h => ?xor⟩
  case difference =>
    have ⟨_, he⟩ := Node.complementIf_mergeBy (x := false) (y := true) (z := false)
      (fun e he => Operation.place_difference he) ha hf []
    refine ⟨_, h.apply_eq ht fun e => Operation.settle (e.complementIf false true), ?_⟩
    have hi := combine_settle (b := b.complement) Operation.intersection_eq ht
    rw [hc] at hi
    exact hi.trans <| same he
  case xor =>
    have move x := Node.complementIf_mergeBy (x := x) (y := !x) (z := true)
      (fun e he => Operation.place_xor he) ha hf []
    have ⟨hl, hours⟩ := move true
    have ⟨_, htheirs⟩ := move false
    refine ⟨_, h.apply_eq ht fun _ _ n => n.agreed (some false), ?ours, ?theirs⟩ <;>
      rw [complement_ofMerged hl]
    case ours => exact (xor_eq_ok (a := a.complement) ht).trans <| same hours
    case theirs =>
      have hx := xor_eq_ok (b := b.complement) ht
      rw [hc] at hx
      exact hx.trans <| same htheirs

-- Both cuts of the one interval are met by cuts of the other, and none vanishes.
theorem difference_and_xor_of_overlap :
    let a : Region (line (Exact ℚ)) := interval (.finite 0) (.finite 20) (.finite 1)
    let b : Region (line (Exact ℚ)) := interval (.finite 10) (.finite 30) (.finite 1)
    ((a.tolerance == b.tolerance) = true ∧ a.tree.root.Labelled ∧ b.tree.root.Labelled ∧
      Operation.difference.Quiet a b ∧ Operation.xor.Quiet a b) ∧
    (∃ r, a.difference b = .ok r ∧ a.intersection b.complement = .ok r) ∧
    (∃ r, a.xor b = .ok r ∧ a.complement.xor b = .ok r.complement ∧
      a.xor b.complement = .ok r.complement) := by
  intro a b
  have h : (a.tolerance == b.tolerance) = true ∧ a.tree.root.Labelled ∧ b.tree.root.Labelled ∧
      Operation.difference.Quiet a b ∧ Operation.xor.Quiet a b := by
    decide +kernel
  have ⟨ht, ha, hb, hd, hx⟩ := h
  have ⟨hdifference, hxor⟩ := difference_and_xor_of_quiet ht ha hb
  exact ⟨h, hdifference hd, hxor hx⟩

end Region
end SpacePartition
