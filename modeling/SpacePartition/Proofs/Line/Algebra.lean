import Mathlib.Algebra.Order.Field.Rat
import SpacePartition.Proofs.Line.Fitted
import SpacePartition.Proofs.Region.Fitted
import SpacePartition.Proofs.Region.Reach

/-!
Boolean operations on regions of the line whose cuts are equal or well apart. They are right
everywhere: off the cuts the result says what the operation says of the operands, and at a cut it
says whether the two sides differ.
-/

namespace SpacePartition

variable {K : Type} [Field K] [LinearOrder K] {ι : Type}

namespace Line

def outlook (p : K) : Outlook (line (Exact K)) :=
  (line (Exact K)).outlook (Exact.finite p)

variable {c d p q t : K} {L C : Set K} {dir : Bool} {tol : Exact K}

theorem outlook_eq : outlook p (⟨.finite c, dir, tol⟩ : OrientedPoint (Exact K)) =
    if (if dir then p - c else -(p - c)) ≤ 0 then .minus else .plus := by
  simp only [outlook, Space.outlook, OrientedPoint.offset_finite, Exact.zero_eq,
    Exact.finite_le]

theorem isNaN_offset :
    Scalar.isNaN
      ((⟨.finite c, dir, tol⟩ : OrientedPoint (Exact K)).offset (.finite p)) = false := by
  rw [OrientedPoint.offset_finite, Exact.isNaN_finite]

theorem abs_offset :
    Scalar.abs ((⟨.finite c, dir, tol⟩ : OrientedPoint (Exact K)).offset (.finite p)) =
      .finite |p - c| := by
  rw [OrientedPoint.offset_finite, Exact.abs_finite]
  cases dir
  case false => exact congrArg Exact.finite (abs_neg _)
  case true  => rfl

theorem le_abs_offset : Exact.finite t ≤
    Scalar.abs ((⟨.finite c, dir, tol⟩ : OrientedPoint (Exact K)).offset (.finite p)) ↔
      t ≤ |p - c| := by
  rw [abs_offset, Exact.finite_le]

variable [IsStrictOrderedRing K]

theorem ne_of_clear (ht : 0 < t) (h : t ≤ |p - c|) : p ≠ c := by
  rintro rfl
  simpa using ht.trans_le h

theorem beyond_outlook (h : p ≠ c) : OrientedPoint.Beyond 0 ⟨.finite c, dir, tol⟩
    (outlook p (⟨.finite c, dir, tol⟩ : OrientedPoint (Exact K))) p := by
  rw [outlook_eq, OrientedPoint.beyond_iff_lt]
  have he : (if dir then p - c else -(p - c)) ≠ 0 := by
    cases dir <;> simpa [sub_eq_zero, eq_comm] using h
  generalize (if dir then p - c else -(p - c)) = e at he
  by_cases hn : e ≤ 0
  case pos => rw [if_pos hn]; exact neg_pos.mpr <| lt_of_le_of_ne hn he
  case neg => rw [if_neg hn]; exact not_le.mp hn

theorem sees_outlook (hp : p ∉ L) : (cells 0 L t).Sees (outlook p) p := by
  intro C s hs
  obtain ⟨c, dir, rfl, -, hl⟩ := cells_spans.mp hs
  exact beyond_outlook fun h => hp (h ▸ hl)

-- Points on the same side of a cut have the same outlook on it.
theorem outlook_congr (h : p < c ∧ q < c ∨ c < p ∧ c < q) :
    outlook p (⟨.finite c, dir, tol⟩ : OrientedPoint (Exact K)) =
      outlook q (⟨.finite c, dir, tol⟩ : OrientedPoint (Exact K)) := by
  rw [outlook_eq, outlook_eq]
  cases dir <;> grind

end Line

namespace Node

open Line

variable {i : ι} {a : Option Bool} {c p q t : K} {dir : Bool} {tol : Exact K} {L C : Set K}
variable {plus minus n : Node (line (Exact K)) ι Bool}

theorem check_fork :
    (fork i a (⟨.finite c, dir, tol⟩ : OrientedPoint (Exact K)) plus minus).check
        (Exact.finite t) (Exact.finite p) =
      if t ≤ |p - c| then
        ((outlook p (⟨.finite c, dir, tol⟩ : OrientedPoint (Exact K))).pick plus minus).check
          (Exact.finite t) (Exact.finite p)
      else (minus.check (Exact.finite t) (Exact.finite p)).join
        (plus.check (Exact.finite t) (Exact.finite p)) := by
  by_cases ht : t ≤ |p - c|
  case pos => rw [check_beyond isNaN_offset (le_abs_offset.mpr ht), if_pos ht]; rfl
  case neg => rw [check_near isNaN_offset (le_abs_offset.not.mpr ht), if_neg ht]

variable [IsStrictOrderedRing K]

theorem check_clear (h : ∀ s ∈ n.cuts, ∃ c, s.location = .finite c ∧ t ≤ |p - c| ∧
    (p < c ∧ q < c ∨ c < p ∧ c < q)) :
    n.check (Exact.finite t) (Exact.finite p) = .ofInside (n.holds (outlook q)) := by
  have hq : n.holds (outlook p) = n.holds (outlook q) := by
    refine holds_congr fun ⟨location, dir, tol⟩ hs => ?_
    obtain ⟨c, rfl, -, hs⟩ := h _ hs
    exact outlook_congr hs
  rw [← hq]
  refine check_of_clear fun ⟨location, dir, tol⟩ hs => ?_
  obtain ⟨c, rfl, hd, -⟩ := h _ hs
  exact ⟨isNaN_offset, le_abs_offset.mpr hd⟩

theorem check_of_cuts (ht : 0 < t) (hn : ∀ s ∈ n.cuts, ∃ c ∈ L, s.location = .finite c)
    (hp : ∀ c ∈ L, t ≤ |p - c|) :
    n.check (Exact.finite t) (Exact.finite p) = .ofInside (n.holds (outlook p)) := by
  refine check_clear fun s hs => ?_
  have ⟨c, hc, hl⟩ := hn s hs
  have hne := lt_or_gt_of_ne <| ne_of_clear ht (hp c hc)
  exact ⟨c, hl, hp c hc, hne.imp (fun h => ⟨h, h⟩) fun h => ⟨h, h⟩⟩

-- At a cut that is close to a point, the sides of the cut are looked up on both of its sides.
theorem check_fork_close {l r : K} (hp : |p - c| < t) (hl : l < c) (hr : c < r)
    (h : ∀ b : Branch, ∀ q ∈ ({l, r} : Set K),
      (b.pick plus minus).check (Exact.finite t) (Exact.finite p) =
        .ofInside ((b.pick plus minus).holds (outlook q))) :
    let n := fork i a (⟨.finite c, dir, tol⟩ : OrientedPoint (Exact K)) plus minus
    n.check (Exact.finite t) (Exact.finite p) =
      .between (n.holds (outlook l)) (n.holds (outlook r)) := by
  intro n
  have hp' {q} := h .plus q
  have hm' {q} := h .minus q
  rw [check_fork, if_neg (not_le.mpr hp), holds_fork, holds_fork, outlook_eq, outlook_eq]
  cases dir
  case false =>
    have hol : ¬-(l - c) ≤ 0 := by linarith
    have hor : -(r - c) ≤ 0 := by linarith
    simp only [hol, hor, if_false, if_true, Branch.pick, Bool.false_eq_true] at hp' hm' ⊢
    rw [hm' (.inr rfl), hp' (.inl rfl), Location.join_ofInside, Location.between_comm]
  case true =>
    have hol : l - c ≤ 0 := by linarith
    have hor : ¬r - c ≤ 0 := by linarith
    simp only [hol, hor, if_true, if_false, Branch.pick] at hp' hm' ⊢
    rw [hm' (.inl rfl), hp' (.inr rfl), Location.join_ofInside]

-- A point close to a cut is located by the leaves on both sides of the cut. There is one such cut
-- on the way to the leaves at most.
theorem check_close {l r : K} (hn : (cells 0 L t).Fitted C n) (hL : Apart L t) (hc : c ∈ L)
    (hp : |p - c| < t) (hl : l < c) (hr : c < r) (h : ∀ d ∈ L, l ≤ d → d ≤ r → d = c) :
    n.check (Exact.finite t) (Exact.finite p) =
      .between (n.holds (outlook l)) (n.holds (outlook r)) := by
  have far {d q} (hd : d ∈ L) (hdc : d ≠ c) (hq : q ∈ ({l, r} : Set K)) :
      t ≤ |p - d| ∧ (p < d ∧ q < d ∨ d < p ∧ d < q) := by
    have ha := (hL d hd c hc).resolve_left hdc
    have hd (h₁ : l ≤ d) : ¬d ≤ r := fun h₂ => hdc <| h d hd h₁ h₂
    have hq : q = l ∨ q = r := hq
    rw [abs_lt] at hp
    rw [lt_abs] at ha
    rw [le_abs]
    grind
  induction n generalizing C
  case leaf a => rcases a with _ | _ | _ <;> rfl
  case fork cut plus minus ip im =>
    have ⟨hs, hf⟩ := Layout.fitted_fork.mp hn
    obtain ⟨d, dir, rfl, -, hd⟩ := cells_spans.mp hs
    by_cases hdc : d = c
    case neg =>
      have ⟨ht, ho⟩ := far hd hdc (.inl rfl)
      have ⟨_, ho'⟩ := far hd hdc (.inr rfl)
      rw [check_fork, if_pos ht, holds_fork, holds_fork, ← outlook_congr ho, ← outlook_congr ho']
      cases outlook p (⟨.finite d, dir, .finite t⟩ : OrientedPoint (Exact K))
      case plus  => exact ip (hf .plus)
      case minus => exact im (hf .minus)
    case pos =>
      subst hdc
      refine check_fork_close hp hl hr fun b q hq => check_clear fun s hs => ?_
      have ⟨e, he, hl⟩ := cells_cuts (hf b) hs
      exact ⟨e, hl, far he.2 (fun hed => OrientedPoint.not_beyond_self (hed ▸ he.1.2)) hq⟩

end Node

namespace Region

variable {a b : Region (line (Exact K))} {t : K}

theorem check_finite (r : Region (line (Exact K))) (h : r.tolerance = .finite t) (p : K) :
    r.check (Exact.finite p) = r.tree.root.check (Exact.finite t) (Exact.finite p) := by
  simp [check, h, Coordinates.isNaN, Coordinates.toList]

variable [IsStrictOrderedRing K]

theorem covers_finite (r : Region (line (Exact K))) (p : K) :
    r.covers (Exact.finite p) = r.tree.root.holds (Line.outlook p) :=
  covers_eq Exact.not_abs_lt_zero r _

-- The sides of a cut are what lies around `c` up to other cuts: `x` and `y` are any points there.
theorem check_apply (op : Operation) (ht : 0 < t) (ha : a.FittedAt t) (hb : b.FittedAt t)
    (hL : Line.Apart (a.locations ∪ b.locations) t) :
    ∃ r, op.apply a b = .ok r ∧
      (∀ p, (∀ c ∈ a.locations ∪ b.locations, t ≤ |p - c|) →
        r.check (Exact.finite p) =
          .ofInside (op.holds (a.covers (Exact.finite p)) (b.covers (Exact.finite p)))) ∧
      (∀ p, ∀ c ∈ a.locations ∪ b.locations, |p - c| < t → ∀ x y, x < c → c < y →
        (∀ d ∈ a.locations ∪ b.locations, x ≤ d → d ≤ y → d = c) →
        r.check (Exact.finite p) = .between
          (op.holds (a.covers (Exact.finite x)) (b.covers (Exact.finite x)))
          (op.holds (a.covers (Exact.finite y)) (b.covers (Exact.finite y)))) := by
  have fa := ha.cells ht.le (Set.subset_union_left (t := b.locations))
  have fb := hb.cells ht.le (Set.subset_union_right (s := a.locations))
  have ⟨r, ho, hr, hn⟩ :=
    fa.apply_ok (hL.separating ht) (hL.tight ht.le) fb (ha.tolerance_beq hb) op
  have hh {q : K} (hq : q ∉ a.locations ∪ b.locations) := hn.holds (Line.sees_outlook hq) trivial
  simp only [covers_finite]
  refine ⟨r, ho, fun p hp => ?far, fun p c hc hp x y hx hy h => ?near⟩ <;>
    rw [check_finite r (hr.trans ha.tolerance)]
  case far =>
    rw [← hh fun h => Line.ne_of_clear ht (hp p h) rfl]
    refine Node.check_of_cuts ht (fun s hs => ?_) hp
    have ⟨c, hc, hl⟩ := Line.cells_cuts hn.fitted hs
    exact ⟨c, hc.2, hl⟩
  case near =>
    have hx' : x ∉ a.locations ∪ b.locations := fun hm =>
      hx.ne <| h x hm le_rfl (hx.trans hy).le
    have hy' : y ∉ a.locations ∪ b.locations := fun hm =>
      hy.ne' <| h y hm (hx.trans hy).le le_rfl
    rw [← hh hx', ← hh hy']
    exact Node.check_close hn.fitted hL hc hp hx hy h

-- At the bound that two intervals share, their union is inside.
theorem check_apply_of_adjacent_intervals :
    let a : Region (line (Exact ℚ)) := interval (.finite 0) (.finite 10) (.finite 1)
    let b : Region (line (Exact ℚ)) := interval (.finite 10) (.finite 20) (.finite 1)
    ((0 : ℚ) < 1 ∧ a.FittedAt 1 ∧ b.FittedAt 1 ∧ Line.Apart (a.locations ∪ b.locations) 1) ∧
    ∃ r, Operation.union.apply a b = .ok r ∧ r.check (Exact.finite 5) = .inside ∧
      r.check (Exact.finite 10) = .inside ∧ r.check (Exact.finite 20) = .boundary := by
  intro a b
  have ha : a.FittedAt 1 := fittedAt_interval (by norm_num)
  have hb : b.FittedAt 1 := fittedAt_interval (by norm_num)
  have hL : a.locations ∪ b.locations = {0, 10, 20} := by
    rw [locations_interval, locations_interval]
    ext x
    simp only [Set.mem_union, Set.mem_insert_iff, Set.mem_singleton_iff]
    grind
  have hs : Line.Apart (a.locations ∪ b.locations) 1 := by
    rw [hL]
    simp only [Line.Apart, Set.mem_insert_iff, Set.mem_singleton_iff]
    rintro x (rfl | rfl | rfl) y (rfl | rfl | rfl) <;> norm_num
  refine ⟨⟨by norm_num, ha, hb, hs⟩, ?_⟩
  have ⟨r, hr, far, near⟩ := check_apply .union (by norm_num) ha hb hs
  rw [hL] at far near
  refine ⟨r, hr, ?at_five, ?at_ten, ?at_twenty⟩
  case at_five =>
    rw [far 5 (by rintro c (rfl | rfl | rfl) <;> norm_num)]
    decide +kernel
  case at_ten =>
    rw [near 10 10 (by simp) (by norm_num) 5 15 (by norm_num) (by norm_num)
      (by rintro d (rfl | rfl | rfl) <;> norm_num)]
    decide +kernel
  case at_twenty =>
    rw [near 20 20 (by simp) (by norm_num) 15 25 (by norm_num) (by norm_num)
      (by rintro d (rfl | rfl | rfl) <;> norm_num)]
    decide +kernel

end Region
end SpacePartition
