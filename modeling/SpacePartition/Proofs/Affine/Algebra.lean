import Mathlib.Algebra.Order.Field.Rat
import SpacePartition.Proofs.Affine.Layout
import SpacePartition.Proofs.Region.Fitted

/-!
Boolean operations in exact geometry of any dimension. Off the cuts of the operands they are right,
and no cut is ever lost on the way.
-/

namespace SpacePartition

variable {K : Type} [Field K] [LinearOrder K] {n : Nat} {gauge : Gauge K n}

namespace Affine

variable {F : Set (AffineForm K n)} {p : Fin n → K}

noncomputable def outlook (gauge : Gauge K n) (p : Fin n → K) : Outlook (affine gauge) :=
  (affine gauge).outlook p

theorem outlook_eq {h : AffineForm K n} :
    outlook gauge p h = if h.eval p ≤ 0 then .minus else .plus := by
  simp only [outlook, Space.outlook, Exact.zero_eq, Exact.finite_le]

variable [IsStrictOrderedRing K]

theorem sees_outlook (h : ∀ f ∈ F, f.eval p ≠ 0) : (cells gauge F).Sees (outlook gauge p) p := by
  intro C s hs
  have hp : s.form.eval p ≠ 0 := h _ hs.1
  change 0 < (s.form.toward (outlook gauge p s.form)).eval p
  rw [outlook_eq, AffineForm.eval_toward]
  by_cases hn : s.form.eval p ≤ 0
  case pos => rw [if_pos hn]; exact neg_pos.mpr <| lt_of_le_of_ne hn hp
  case neg => rw [if_neg hn]; exact not_le.mp hn

omit [IsStrictOrderedRing K] in
-- Which hyperplanes may cut is of no matter beyond those that do.
theorem fitted_congr {G : Set (AffineForm K n)} {C : Set (Fin n → K)} {ι α : Type}
    {t : Node (affine gauge) ι α} (h : ∀ s ∈ t.cuts, Slice.form s ∈ G)
    (ht : (cells gauge F).Fitted C t) : (cells gauge G).Fitted C t := by
  refine ht.imp Eq (fun he => he ▸ rfl) (fun {D _ s} hs he hf => ?_) rfl
  subst he
  exact ⟨h s hs, hf.2⟩

end Affine

namespace Region

-- Whether every cut is what its hyperplane shares with the open cell that it cuts.
def Fitted (r : Region (affine gauge)) : Prop :=
  (Affine.cells gauge .univ).Fitted .univ r.tree.root

-- Whether no cut hyperplane passes through a point.
def Avoids (r : Region (affine gauge)) (p : Fin n → K) : Prop :=
  ∀ s ∈ r.tree.root.cuts, (Slice.form s).eval p ≠ 0

variable {a b : Region (affine gauge)} {h : AffineForm K n} {tolerance : Exact K} {p : Fin n → K}

theorem avoids_halfSpace :
    (halfSpace (S := affine gauge) h tolerance).Avoids p ↔ h.eval p ≠ 0 :=
  List.forall_mem_singleton

variable [IsStrictOrderedRing K]

theorem covers_affine (r : Region (affine gauge)) (p : Fin n → K) :
    r.covers p = r.tree.root.holds (Affine.outlook gauge p) :=
  covers_eq Exact.not_abs_lt_zero r p

theorem fitted_halfSpace :
    (halfSpace (S := affine gauge) h tolerance).Fitted := by
  have ⟨x, hx⟩ := h.exists_eval_eq_zero
  refine ⟨⟨trivial, ?_, x, hx⟩, trivial, trivial⟩
  ext y
  exact (and_iff_right trivial).symm

theorem covers_halfSpace :
    (halfSpace (S := affine gauge) h tolerance).covers p = decide (h.eval p ≤ 0) := by
  rw [covers_affine]
  change (Node.fork ..).holds _ = _
  rw [Node.holds_fork]
  change ((Affine.outlook gauge p h).pick (Node.leaf ..) (Node.leaf ..)).holds _ = _
  rw [Affine.outlook_eq]
  by_cases hn : h.eval p ≤ 0 <;> simp [hn, Branch.pick, Node.holds_leaf]

-- The merge of the trees has one result under all handlers of forks without cut, so that none is
-- called, and every cut that is split has both its parts.
theorem covers_apply [Measured (affine gauge)] (op : Operation) (ht : a.tolerance == b.tolerance)
    (ha : a.Fitted) (hb : b.Fitted) :
    ∃ (t : Tree (affine gauge) Bool) (r : Region (affine gauge)),
      (∀ (m : Type → Type) [Monad m] [LawfulMonad m]
        (vanish : Encounter (affine gauge) Nat Bool → Handler (affine gauge) Nat Bool m),
        a.tree.merge (op.merger vanish) b.tree = pure t) ∧
      a.tree.root.MergeKeepsParts (a.follower b) ∧
      op.apply a b = .ok r ∧ r.tree = .ofNode t.root.clearForks.simplify ∧ r.Fitted ∧
      ∀ p, a.Avoids p → b.Avoids p → r.covers p = op.holds (a.covers p) (b.covers p) := by
  let F : Set (AffineForm K n) := {f | ∃ s ∈ a.tree.root.cuts ++ b.tree.root.cuts, Slice.form s = f}
  have fa : (Affine.cells gauge F).Fitted .univ a.tree.root :=
    Affine.fitted_congr (fun s hs => ⟨s, List.mem_append_left _ hs, rfl⟩) ha
  have fb : (Affine.cells gauge F).Fitted .univ b.tree.root :=
    Affine.fitted_congr (fun s hs => ⟨s, List.mem_append_right _ hs, rfl⟩) hb
  have ⟨t, hm, ho, hr⟩ := fa.apply Affine.cells_separating Affine.cells_tight fb ht op
  refine ⟨t, _, hm, ?parts, ho, rfl, ?fitted, fun p hpa hpb => ?covers⟩
  case parts  => exact fa.mergeKeepsParts Affine.cells_separating .univ fb.follower
  case fitted => exact Affine.fitted_congr (fun _ _ => trivial) hr.fitted.normalize
  case covers =>
    have hx : (Affine.cells gauge F).Sees (Affine.outlook gauge p) p := by
      refine Affine.sees_outlook ?_
      rintro _ ⟨s, hs, rfl⟩
      exact (List.mem_append.mp hs).elim (hpa s) (hpb s)
    rw [covers_affine, covers_affine, covers_affine, Node.holds_normalize]
    exact hr.holds hx trivial

-- Two half-planes whose bounds cross: their difference of sides is a pair of opposite quadrants.
theorem covers_apply_of_crossing_half_planes :
    let a : Region (affine (.unbounded ℚ 2)) :=
      halfSpace ⟨![1, 0], 0, by decide +kernel⟩ (.finite 1)
    let b : Region (affine (.unbounded ℚ 2)) :=
      halfSpace ⟨![0, 1], 0, by decide +kernel⟩ (.finite 1)
    ((a.tolerance == b.tolerance) = true ∧ a.Fitted ∧ b.Fitted) ∧
    ∃ r, Operation.xor.apply a b = .ok r ∧ r.Fitted ∧
      r.covers ![1, 1] = false ∧ r.covers ![1, -1] = true ∧
      r.covers ![-1, 1] = true ∧ r.covers ![-1, -1] = false := by
  intro a b
  have ht : (a.tolerance == b.tolerance) = true := Exact.finite_beq_self
  refine ⟨⟨ht, fitted_halfSpace, fitted_halfSpace⟩, ?_⟩
  have ⟨_, r, _, _, hr, _, hf, hc⟩ := covers_apply .xor ht fitted_halfSpace fitted_halfSpace
  simp only [a, b, avoids_halfSpace, covers_halfSpace] at hc
  refine ⟨r, hr, hf, ?_, ?_, ?_, ?_⟩ <;> rw [hc] <;> decide +kernel

end Region
end SpacePartition
