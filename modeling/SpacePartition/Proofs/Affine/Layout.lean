import Mathlib.Tactic.Linarith
import Mathlib.Tactic.FieldSimp
import SpacePartition.Proofs.Affine.Space
import SpacePartition.Proofs.Node.Layout

/-!
The cells of exact geometry. They are convex and have room around each of their points. Two
hyperplanes that do not cross in such a cell leave one side of each beyond the other.
-/

namespace SpacePartition

variable {K : Type} [Field K] {n : Nat}

namespace AffineForm

variable {f g : AffineForm K n} {b : Branch} {x y v : Fin n → K} {C : Set (Fin n → K)}

theorem eval_add_smul {r : K} : f.eval (x + r • v) = f.eval x + r * (f.normal ⬝ᵥ v) := by
  rw [eval, eval, dotProduct_add, dotProduct_smul, smul_eq_mul]
  ring

theorem dotProduct_sub_eq : f.normal ⬝ᵥ (y - x) = f.eval y - f.eval x := by
  rw [eval, eval, dotProduct_sub]
  ring

theorem eval_segment {r : K} : f.eval (x + r • (y - x)) = f.eval x + r * (f.eval y - f.eval x) := by
  rw [eval_add_smul, dotProduct_sub_eq]

theorem eval_reversed : f.reversed.eval x = -f.eval x := by
  rw [eval, reversed, neg_dotProduct, eval]
  ring

theorem eval_toward : (f.toward b).eval x = b.pick (f.eval x) (-f.eval x) := by
  cases b
  case plus  => rfl
  case minus => exact eval_reversed

theorem eval_toward_flip : (f.toward b.flip).eval x = -(f.toward b).eval x := by
  cases b <;> simp [eval_toward, Branch.flip, Branch.pick]

theorem eval_toward_eq_zero : (f.toward b).eval x = 0 ↔ f.eval x = 0 := by
  cases b <;> simp [eval_toward, Branch.pick]

variable [LinearOrder K] [IsStrictOrderedRing K]

theorem normal_self_pos (f : AffineForm K n) : 0 < f.normal ⬝ᵥ f.normal :=
  lt_of_le_of_ne (Finset.sum_nonneg fun _ _ => mul_self_nonneg _)
    fun h => f.normal_ne <| dotProduct_self_eq_zero.mp h.symm

theorem exists_eval_eq_zero (f : AffineForm K n) : ∃ x, f.eval x = 0 := by
  refine ⟨-(f.constant / f.normal ⬝ᵥ f.normal) • f.normal, ?_⟩
  rw [eval, dotProduct_smul, smul_eq_mul, neg_mul, div_mul_cancel₀ _ f.normal_self_pos.ne',
    neg_add_cancel]

theorem exists_toward_pos (h : f.eval x ≠ 0) : ∃ b, 0 < (f.toward b).eval x := by
  cases h.lt_or_gt
  case inl h => exact ⟨.minus, by rw [eval_toward]; exact neg_pos.mpr h⟩
  case inr h => exact ⟨.plus, h⟩

-- Proportional forms have the same sides, in an order that depends on the sign of the factor.
theorem toward_pos_iff {r : K} (hr : r ≠ 0) (h : g.eval x = r * f.eval x) :
    0 < (f.toward b).eval x ↔ 0 < (g.toward (if 0 < r then b else b.flip)).eval x := by
  have ht : (g.toward b).eval x = r * (f.toward b).eval x := by
    cases b <;> simp [eval_toward, Branch.pick, h]
  by_cases hp : 0 < r
  case pos => rw [if_pos hp, ht, mul_pos_iff_of_pos_left hp]
  case neg =>
    have hn := lt_of_le_of_ne (not_lt.mp hp) hr
    rw [if_neg hp, eval_toward_flip, ht, ← neg_mul, mul_pos_iff_of_pos_left (neg_pos.mpr hn)]

-- The points of a set leave room to move some way in any direction.
def Roomy (C : Set (Fin n → K)) : Prop :=
  ∀ x ∈ C, ∀ v, ∃ r : K, 0 < r ∧ ∀ s : K, |s| ≤ r → x + s • v ∈ C

theorem roomy_inter (hr : Roomy C) : Roomy (C ∩ {x | 0 < f.eval x}) := by
  intro x ⟨hx, hf⟩ v
  have ⟨r, hr, hm⟩ := hr x hx v
  have hv : 0 < |f.normal ⬝ᵥ v| + 1 := by positivity
  refine ⟨min r (f.eval x / (|f.normal ⬝ᵥ v| + 1)), lt_min hr (div_pos hf hv), fun s hs => ?_⟩
  have ⟨hs₁, hs₂⟩ := le_min_iff.mp hs
  refine ⟨hm s hs₁, ?_⟩
  rw [le_div_iff₀ hv] at hs₂
  have ha := neg_abs_le (s * (f.normal ⬝ᵥ v))
  rw [abs_mul] at ha
  change 0 < f.eval (x + s • v)
  rw [eval_add_smul]
  rcases eq_or_ne s 0 with rfl | h
  case inl => simpa using hf
  case inr => linarith [abs_pos.mpr h]

theorem convex_pos : Convex K {x | 0 < f.eval x} := by
  intro x hx y hy r s hr hs h
  have he : f.eval (r • x + s • y) = r * f.eval x + s * f.eval y := by
    rw [eval, dotProduct_add, dotProduct_smul, dotProduct_smul, eval, eval,
      smul_eq_mul, smul_eq_mul]
    linear_combination (-f.constant) * h
  change 0 < f.eval (r • x + s • y)
  rw [he]
  rcases hr.eq_or_lt with rfl | hr
  case inl => rw [zero_add] at h; simpa [h] using hy
  case inr => exact add_pos_of_pos_of_nonneg (mul_pos hr hx) (mul_nonneg hs hy.le)

-- Between points on both sides of a hyperplane there is one on the hyperplane.
theorem exists_zero (hC : Convex K C) (hx : x ∈ C) (hy : y ∈ C) (hfx : f.eval x < 0)
    (hfy : 0 < f.eval y) : ∃ r : K, 0 < r ∧ r < 1 ∧ x + r • (y - x) ∈ C ∧
      f.eval (x + r • (y - x)) = 0 := by
  have hd : 0 < f.eval y - f.eval x := by linarith
  have h₀ : 0 < -f.eval x / (f.eval y - f.eval x) := div_pos (by linarith) hd
  have h₁ : -f.eval x / (f.eval y - f.eval x) < 1 := (div_lt_one hd).mpr (by linarith)
  refine ⟨_, h₀, h₁, hC.add_smul_sub_mem hx hy ⟨h₀.le, h₁.le⟩, ?_⟩
  rw [eval_segment]
  field_simp
  ring

-- A hyperplane that reaches one side of another one and not the other side does not touch it.
theorem pos_of_nonneg (hr : Roomy C) (hf : ∀ x ∈ C, f.eval x = 0 → 0 ≤ g.eval x)
    (hfy : f.eval y = 0) (hgy : 0 < g.eval y) : ∀ x ∈ C, f.eval x = 0 → 0 < g.eval x := by
  intro x hx hfx
  refine lt_of_le_of_ne (hf x hx hfx) fun hgx => ?_
  have ⟨r, hr, hm⟩ := hr x hx (y - x)
  have hz := hm (-r) (by rw [abs_neg, abs_of_pos hr])
  have hg := hf _ hz (by rw [eval_segment, hfx, hfy]; ring)
  rw [eval_segment, ← hgx] at hg
  nlinarith

-- If a hyperplane lies on the plus side of another one, no point beyond the other one is separated
-- by it from such points on its plus side.
theorem pos_of_beyond (hC : Convex K C) (hg : ∀ x ∈ C, f.eval x = 0 → 0 < g.eval x) (hy : y ∈ C)
    (hgy : g.eval y ≤ 0) (hfy : 0 < f.eval y) : ∀ x ∈ C, g.eval x ≤ 0 → 0 < f.eval x := by
  intro x hx hgx
  rcases lt_trichotomy (f.eval x) 0 with h | h | h
  case inl =>
    have ⟨r, h₀, h₁, hz, hfz⟩ := exists_zero hC hx hy h hfy
    have hgz := hg _ hz hfz
    rw [eval_segment] at hgz
    nlinarith
  case inr.inl => exact absurd (hg x hx h) (not_lt.mpr hgx)
  case inr.inr => exact h

-- What is beyond the other one then lies on one side of the hyperplane.
theorem exists_side_of_beyond (hC : Convex K C) (hg : ∀ x ∈ C, f.eval x = 0 → 0 < g.eval x)
    (hy : y ∈ C) (hgy : g.eval y = 0) :
    ∃ b, ∀ x ∈ C, g.eval x ≤ 0 → 0 < (f.toward b).eval x := by
  have ⟨b, hb⟩ := exists_toward_pos fun h => (hg y hy h).ne' hgy
  exact ⟨b, pos_of_beyond hC (fun x hx h => hg x hx <| eval_toward_eq_zero.mp h) hy hgy.le hb⟩

-- A hyperplane that has points of a cell on both sides of another one, and so crosses it, is
-- crossed by it.
theorem exists_of_cross (hC : Convex K C) (hr : Roomy C) (hx : x ∈ C) (hy : y ∈ C)
    (hfx : f.eval x = 0) (hfy : f.eval y = 0) (hgx : g.eval x < 0) (hgy : 0 < g.eval y)
    (b : Branch) :
    ∃ z ∈ C, g.eval z = 0 ∧ 0 < (f.toward b).eval z := by
  have ⟨r, _, _, hz, hgz⟩ := exists_zero hC hx hy hgx hgy
  have hfz : f.eval (x + r • (y - x)) = 0 := by rw [eval_segment, hfx, hfy]; ring
  generalize x + r • (y - x) = z at hz hgz hfz
  have hfd : f.normal ⬝ᵥ (y - x) = 0 := by rw [dotProduct_sub_eq, hfx, hfy, sub_zero]
  have hgd : g.normal ⬝ᵥ (y - x) ≠ 0 := by rw [dotProduct_sub_eq]; linarith
  -- A direction along the other hyperplane that leaves this one.
  let v := f.normal - (g.normal ⬝ᵥ f.normal / g.normal ⬝ᵥ (y - x)) • (y - x)
  have hgv : g.normal ⬝ᵥ v = 0 := by
    rw [dotProduct_sub, dotProduct_smul, smul_eq_mul, div_mul_cancel₀ _ hgd, sub_self]
  have hfv : 0 < f.normal ⬝ᵥ v := by
    rw [dotProduct_sub, dotProduct_smul, hfd, smul_zero, sub_zero]
    exact f.normal_self_pos
  have ⟨s, hs, hm⟩ := hr z hz v
  cases b
  case plus =>
    refine ⟨_, hm s (abs_of_pos hs).le, by rw [eval_add_smul, hgz, hgv]; ring, ?_⟩
    rw [eval_toward, eval_add_smul, hfz, zero_add]
    exact mul_pos hs hfv
  case minus =>
    refine ⟨_, hm (-s) (by rw [abs_neg, abs_of_pos hs]), by rw [eval_add_smul, hgz, hgv]; ring, ?_⟩
    rw [eval_toward, eval_add_smul, hfz, zero_add]
    change 0 < -(-s * _)
    rw [neg_mul, neg_neg]
    exact mul_pos hs hfv

-- Hyperplanes of which one lies within the other have proportional forms.
theorem exists_factor (hr : Roomy C) (hf : ∀ x ∈ C, f.eval x = 0 → g.eval x = 0) (hx : x ∈ C)
    (hfx : f.eval x = 0) :
    ∃ r : K, (0 < r ↔ 0 < g.normal ⬝ᵥ f.normal) ∧ r ≠ 0 ∧ ∀ y, g.eval y = r * f.eval y := by
  have along (v) (hv : f.normal ⬝ᵥ v = 0) : g.normal ⬝ᵥ v = 0 := by
    have ⟨r, hr, hm⟩ := hr x hx v
    have hg := hf _ (hm r (abs_of_pos hr).le) (by rw [eval_add_smul, hfx, hv]; ring)
    rw [eval_add_smul, hf x hx hfx, zero_add] at hg
    exact (mul_eq_zero.mp hg).resolve_left hr.ne'
  have hp := f.normal_self_pos
  let r := g.normal ⬝ᵥ f.normal / f.normal ⬝ᵥ f.normal
  have hn : g.normal = r • f.normal := by
    have hv : f.normal ⬝ᵥ (g.normal - r • f.normal) = 0 := by
      rw [dotProduct_sub, dotProduct_smul, smul_eq_mul, div_mul_cancel₀ _ hp.ne', dotProduct_comm,
        sub_self]
    have hv' := along _ hv
    have h : (g.normal - r • f.normal) ⬝ᵥ (g.normal - r • f.normal) = 0 := by
      rw [sub_dotProduct, smul_dotProduct, hv, hv', smul_zero, sub_zero]
    exact sub_eq_zero.mp <| dotProduct_self_eq_zero.mp h
  refine ⟨r, div_pos_iff_of_pos_right hp,
    fun h => g.normal_ne (by rw [hn, h, zero_smul]), fun y => ?_⟩
  have h := dotProduct_sub_eq (f := g) (x := x) (y := y)
  rw [hn, smul_dotProduct, dotProduct_sub_eq, hfx, hf x hx hfx, sub_zero, sub_zero] at h
  exact h.symm

end AffineForm

namespace Slice

variable [LinearOrder K] {s p : Slice K n} {h : AffineForm K n} {b : Branch}

theorem split_on : (s.split h).on b = s.part h b := by
  cases b <;> rfl

theorem part_eq_some : s.part h b = some p ↔ s.side h b = p ∧ (s.side h b).points.Nonempty := by
  rw [part]
  split <;> simp_all

theorem part_eq_none : s.part h b = none ↔ ∀ x ∈ s.points, (h.toward b).eval x ≤ 0 := by
  rw [part]
  split <;> simp_all [Set.Nonempty, side]

-- The side of a slice, by the points that it has there.
theorem split_side : (s.split h).side = b.side ↔
    (∃ x ∈ s.points, 0 < (h.toward b).eval x) ∧ ∀ x ∈ s.points, (h.toward b.flip).eval x ≤ 0 := by
  rw [Parts.side_eq, split_on, split_on, part_eq_none]
  refine and_congr_left fun _ => ⟨?mp, ?mpr⟩
  case mp  => rintro ⟨p, hp⟩; exact (part_eq_some.mp hp).2
  case mpr => exact fun h => ⟨_, part_eq_some.mpr ⟨rfl, h⟩⟩

theorem split_side_both :
    (s.split h).side = .both ↔ ∀ b, ∃ x ∈ s.points, 0 < (h.toward b).eval x := by
  rw [Parts.side_eq_both]
  constructor
  case mp  => exact fun ⟨f, hf⟩ b => (part_eq_some.mp (split_on.symm.trans (hf b))).2
  case mpr => exact fun h => ⟨_, fun b => split_on.trans <| part_eq_some.mpr ⟨rfl, h b⟩⟩

variable [IsStrictOrderedRing K]

theorem split_side_within :
    (s.split h).side = .within ↔ ∀ x ∈ s.points, h.eval x = 0 := by
  simp only [Parts.side_eq_within, split_on, part_eq_none, AffineForm.eval_toward]
  constructor
  case mp  => exact fun hb x hx => le_antisymm (hb .plus x hx) (neg_nonpos.mp (hb .minus x hx))
  case mpr => exact fun h b x hx => by cases b <;> simp [Branch.pick, h x hx]

end Slice

namespace Affine

variable [LinearOrder K] {gauge : Gauge K n} {F : Set (AffineForm K n)} {C : Set (Fin n → K)}

-- Open cells, cut along the hyperplanes of a set. A cut is all of its hyperplane in the cell.
def cells (gauge : Gauge K n) (F : Set (AffineForm K n)) : Layout (affine gauge) (Fin n → K) where
  half h b  := {x | 0 < (h.toward b).eval x}
  Spans C s := s.form ∈ F ∧ s.points = {x ∈ C | s.form.eval x = 0} ∧ s.points.Nonempty

variable [IsStrictOrderedRing K]

theorem convex_and_roomy (hC : (cells gauge F).IsCell C) : Convex K C ∧ AffineForm.Roomy C := by
  induction hC
  case univ     => exact ⟨convex_univ, fun _ _ _ => ⟨1, one_pos, fun _ _ => trivial⟩⟩
  case inter hi => exact ⟨hi.1.inter AffineForm.convex_pos, AffineForm.roomy_inter hi.2⟩

theorem cells_lawful : (cells gauge F).Lawful where
  disjoint := by
    intro h x b b' hb hb'
    rcases b.eq_or_eq_flip b' with rfl | rfl
    case inl => rfl
    case inr =>
      change 0 < (h.toward b.flip).eval x at hb'
      rw [AffineForm.eval_toward_flip, neg_pos] at hb'
      exact absurd hb hb'.asymm
  hyperplane_whole _ := rfl
  hyperplane_part hp := (Slice.part_eq_some.mp (Slice.split_on.symm.trans hp)).1 ▸ rfl
  spans_part := by
    intro C D s w b part ⟨hF, hs, _⟩ _ hp
    obtain ⟨rfl, hn⟩ := Slice.part_eq_some.mp (Slice.split_on.symm.trans hp)
    refine ⟨hF, ?_, hn⟩
    change {x ∈ s.points | _} = _
    rw [hs]
    ext x
    exact and_right_comm

theorem cells_tight : (cells gauge F).Tight where
  toLawful := cells_lawful
  spans_whole := by
    intro C s ⟨hF, hs, x, hx⟩
    refine ⟨hF, ?_, x, s.on_form x hx⟩
    ext x
    exact (and_iff_right trivial).symm
  part_of_smaller := by
    intro C D E s c w b ⟨_, hs, _⟩ _ ⟨_, hc, x, hx⟩ he hE
    refine ⟨_, Slice.split_on.trans <| Slice.part_eq_some.mpr ⟨rfl, x, ?_⟩⟩
    rw [hc] at hx
    have ⟨hxC, hxb⟩ := hE hx.1
    have hx0 : s.form.eval x = 0 := by
      have he : c.form = s.form := he
      rw [← he]
      exact hx.2
    exact ⟨hs ▸ ⟨hxC, hx0⟩, hxb⟩

theorem cells_beside {sub cut : Slice K n} {b : Branch} (hC : (cells gauge F).IsCell C)
    (hs : (cells gauge F).Spans C sub) (hc : (cells gauge F).Spans C cut)
    (h : (sub.split cut.form).side = b.side) :
    (cells gauge F).Spans (C ∩ (cells gauge F).half cut.form b) sub ∧
      ∃ b', (cells gauge F).Beside C sub cut b b' := by
  have ⟨hcv, hr⟩ := convex_and_roomy hC
  have ⟨hsF, hsC, hsn⟩ := hs
  have ⟨hcF, hcC, y, hy⟩ := hc
  have ⟨⟨x, hx, hgx⟩, hsb⟩ := Slice.split_side.mp h
  have hg : ∀ x ∈ C, sub.form.eval x = 0 → 0 < (cut.form.toward b).eval x := by
    refine AffineForm.pos_of_nonneg hr (fun x hx hfx => ?_) (sub.on_form x hx) hgx
    have hn := hsb x (hsC ▸ ⟨hx, hfx⟩)
    rwa [AffineForm.eval_toward_flip, neg_nonpos] at hn
  have hcut {y} (hy : y ∈ cut.points) : y ∈ C ∧ (cut.form.toward b).eval y = 0 :=
    ⟨(hcC ▸ hy : y ∈ {x ∈ C | _}).1, AffineForm.eval_toward_eq_zero.mpr <| cut.on_form y hy⟩
  have ⟨b', hf⟩ := AffineForm.exists_side_of_beyond hcv hg (hcut hy).1 (hcut hy).2
  have hfc {y} (hy : y ∈ cut.points) := hf y (hcut hy).1 (hcut hy).2.le
  refine ⟨⟨hsF, ?sub_points, hsn⟩, b', ?side, ⟨hcF, ?cut_points, y, hy⟩, ?beyond, ?near⟩
  case sub_points =>
    rw [hsC]
    ext x
    exact ⟨fun h => ⟨⟨h.1, hg x h.1 h.2⟩, h.2⟩, fun h => ⟨h.1.1, h.2⟩⟩
  case cut_points =>
    ext z
    exact ⟨fun hz => ⟨⟨(hcut hz).1, hfc hz⟩, cut.on_form z hz⟩, fun hz => hcC ▸ ⟨hz.1.1, hz.2⟩⟩
  case side =>
    refine Slice.split_side.mpr ⟨⟨y, hy, hfc hy⟩, fun z hz => ?_⟩
    rw [AffineForm.eval_toward_flip, neg_nonpos]
    exact (hfc hz).le
  case beyond =>
    intro z ⟨hz, hzb⟩
    change 0 < (cut.form.toward b.flip).eval z at hzb
    rw [AffineForm.eval_toward_flip, neg_pos] at hzb
    exact hf z hz hzb.le
  case near =>
    intro z ⟨hz, hzb⟩
    change 0 < (sub.form.toward b'.flip).eval z at hzb
    rw [AffineForm.eval_toward_flip, neg_pos] at hzb
    exact not_le.mp fun hg => hzb.asymm <| hf z hz hg

theorem cells_separating : (cells gauge F).Separating where
  toLawful := cells_lawful
  beside := cells_beside
  cross := by
    intro C sub cut hC ⟨_, hsC, _⟩ ⟨_, hcC, _⟩ h
    have ⟨hcv, hr⟩ := convex_and_roomy hC
    have hb := Slice.split_side_both.mp h
    have ⟨x, hx, hgx⟩ := hb .minus
    have ⟨y, hy, hgy⟩ := hb .plus
    rw [AffineForm.eval_toward] at hgx
    refine Slice.split_side_both.mpr fun b => ?_
    have ⟨z, hz, hgz, hfz⟩ := AffineForm.exists_of_cross hcv hr (hsC ▸ hx : x ∈ {x ∈ C | _}).1
      (hsC ▸ hy : y ∈ {x ∈ C | _}).1 (sub.on_form x hx) (sub.on_form y hy) (neg_pos.mp hgx) hgy b
    exact ⟨z, hcC ▸ ⟨hz, hgz⟩, hfz⟩
  coincide := by
    intro C sub cut b hC ⟨_, hsC, x, hx⟩ _ h
    have ⟨_, hr⟩ := convex_and_roomy hC
    have hg : ∀ x ∈ C, sub.form.eval x = 0 → cut.form.eval x = 0 := fun x hx hf =>
      Slice.split_side_within.mp h x (hsC ▸ ⟨hx, hf⟩)
    have ⟨r, hp, hr, he⟩ :=
      AffineForm.exists_factor hr hg (hsC ▸ hx : x ∈ {x ∈ C | _}).1 (sub.on_form x hx)
    refine congrArg (C ∩ ·) <| Set.ext fun z => ?_
    have ht := AffineForm.toward_pos_iff (b := b) hr (he z)
    simp only [hp] at ht
    simp only [decide_eq_true_eq]
    exact ht

end Affine
end SpacePartition
