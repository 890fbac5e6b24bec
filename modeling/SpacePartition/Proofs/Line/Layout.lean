import Mathlib.Tactic.Linarith
import SpacePartition.Line.Basic
import SpacePartition.Proofs.Node.Layout
import SpacePartition.Proofs.Scalar.Exact

/-!
The line in exact arithmetic. Its cells are open intervals, and a cut fills its cell if it lies in
it. Splitting tells two cuts apart only beyond the tolerance, so that the laws of a layout hold for
cuts that are equal or well apart.
-/

namespace SpacePartition

variable {K : Type} [Field K] [LinearOrder K]

namespace OrientedPoint

-- Whether a point lies farther than `d` on the side `b` of a cut.
def Beyond (d : K) (h : OrientedPoint (Exact K)) (b : Branch) (x : K) : Prop :=
  .finite d < b.pick (h.offset (.finite x)) (-h.offset (.finite x))

variable {c d d' t x : K} {tol : Exact K} {dir : Bool} {b b' : Branch}

theorem offset_finite :
    (⟨.finite c, dir, tol⟩ : OrientedPoint (Exact K)).offset (.finite x) =
      .finite (if dir then x - c else -(x - c)) := by
  cases dir <;> simp [offset]

theorem beyond_iff_lt : Beyond d ⟨.finite c, dir, tol⟩ b x ↔
    d < b.pick (if dir then x - c else -(x - c)) (-if dir then x - c else -(x - c)) := by
  rw [Beyond, offset_finite]
  cases b <;> exact Exact.finite_lt

theorem Beyond.mono {h : OrientedPoint (Exact K)} (hd : d' ≤ d) (hb : Beyond d h b x) :
    Beyond d' h b x := by
  rw [Beyond] at hb ⊢
  generalize b.pick (h.offset (.finite x)) (-h.offset (.finite x)) = e at hb ⊢
  cases e
  case finite           => exact Exact.finite_lt.mpr <| hd.trans_lt (Exact.finite_lt.mp hb)
  case infinite         => exact hb
  case undefined        => exact hb

-- A cut is kept as it is, if at all.
theorem part_eq {R : Type} [Scalar R] {s h part : OrientedPoint R}
    (hp : (s.split h).on b = some part) : part = s := by
  rw [split] at hp
  split at hp
  case isTrue => cases b <;> cases hp; rfl
  case isFalse =>
    split at hp
    case isTrue  => cases b <;> cases hp; rfl
    case isFalse => cases b <;> cases hp

variable [IsStrictOrderedRing K]

theorem beyond_iff : Beyond d ⟨.finite c, dir, tol⟩ b x ↔
    if b.pick dir !dir then c + d < x else x + d < c := by
  rw [beyond_iff_lt]
  cases b <;> cases dir <;> simp [Branch.pick] <;> constructor <;> intro <;> linarith

theorem beyond_disjoint {h : OrientedPoint (Exact K)} (hb : Beyond 0 h b x)
    (hb' : Beyond 0 h b' x) : b = b' := by
  have hn := Exact.not_pos_and_neg_pos (h.offset (.finite x))
  cases b <;> cases b'
  case plus.minus => exact absurd ⟨hb, hb'⟩ hn
  case minus.plus => exact absurd ⟨hb', hb⟩ hn
  all_goals rfl

section Split

variable {s : OrientedPoint (Exact K)} (hs : s.location = .finite x) (ht : 0 ≤ t)

include hs ht

theorem split_on :
    (s.split ⟨.finite c, dir, .finite t⟩).on b = some s ↔
      Beyond t ⟨.finite c, dir, .finite t⟩ b x := by
  rw [beyond_iff_lt, split, hs, offset_finite]
  generalize (if dir then x - c else -(x - c)) = e
  simp only [Exact.neg_finite, Exact.finite_lt]
  by_cases hm : e < -t
  case pos =>
    have hp : ¬t < e := by linarith
    have hm' : t < -e := by linarith
    cases b <;> simp [hm, hm', hp, Parts.on, Branch.pick]
  case neg =>
    have hm' : ¬t < -e := by linarith
    by_cases hp : t < e <;> cases b <;> simp [hm, hm', hp, Parts.on, Branch.pick]

theorem split_side :
    (s.split ⟨.finite c, dir, .finite t⟩).side = b.side ↔
      Beyond t ⟨.finite c, dir, .finite t⟩ b x := by
  rw [Parts.side_eq, ← split_on hs ht]
  constructor
  case mp =>
    rintro ⟨⟨part, hp⟩, -⟩
    exact part_eq hp ▸ hp
  case mpr =>
    refine fun h => ⟨⟨s, h⟩, Option.eq_none_iff_forall_ne_some.mpr fun part hp => ?_⟩
    rw [part_eq hp, split_on hs ht] at hp
    exact Branch.flip_ne <| beyond_disjoint (hp.mono ht) ((split_on hs ht |>.mp h).mono ht)

theorem split_side_ne_both : (s.split ⟨.finite c, dir, .finite t⟩).side ≠ .both := by
  intro h
  have ⟨f, hf⟩ := Parts.side_eq_both.mp h
  have hb (b) : Beyond 0 ⟨.finite c, dir, .finite t⟩ b x := by
    have hp := hf b
    rw [part_eq hp, split_on hs ht] at hp
    exact hp.mono ht
  cases beyond_disjoint (hb .plus) (hb .minus)

theorem split_side_within :
    (s.split ⟨.finite c, dir, .finite t⟩).side = .within ↔ |x - c| ≤ t := by
  have hp : _ ↔ Beyond t ⟨.finite c, dir, .finite t⟩ .plus x := split_side hs ht
  have hm : _ ↔ Beyond t ⟨.finite c, dir, .finite t⟩ .minus x := split_side hs ht
  have hb : (s.split ⟨.finite c, dir, .finite t⟩).side ≠ .both := split_side_ne_both hs ht
  rw [beyond_iff] at hp hm
  rw [abs_le]
  constructor
  case mp =>
    intro h
    rw [h] at hp hm
    have hp := hp.not.mp nofun
    have hm := hm.not.mp nofun
    cases dir <;> simp [Branch.pick] at hp hm <;> constructor <;> linarith
  case mpr =>
    rintro ⟨h, h'⟩
    cases hs : (s.split ⟨.finite c, dir, .finite t⟩).side
    case plus   => have := hp.mp hs; cases dir <;> simp [Branch.pick] at this <;> linarith
    case minus  => have := hm.mp hs; cases dir <;> simp [Branch.pick] at this <;> linarith
    case both   => exact absurd hs hb
    case within => rfl

end Split

theorem not_beyond_self : ¬Beyond 0 ⟨.finite c, dir, tol⟩ b c := by
  rw [beyond_iff]
  cases b <;> cases dir <;> simp [Branch.pick]

-- What is well beyond a cut is far from all that is not beyond it.
theorem Beyond.apart {y : K} (hx : Beyond t ⟨.finite c, dir, tol⟩ b x)
    (hy : ¬Beyond 0 ⟨.finite c, dir, tol⟩ b y) : t < |x - y| := by
  rw [beyond_iff] at hx hy
  rw [lt_abs]
  generalize b.pick dir (!dir) = above at hx hy
  cases above
  case false => simp at hx hy; exact .inr (by linarith)
  case true  => simp at hx hy; exact .inl (by linarith)

-- Of two cuts well apart, each sees the other on a side of its own. What is beyond the one is then
-- beyond the other too.
theorem beside {tol' : Exact K} {dir' : Bool} (ht : 0 ≤ t)
    (h : Beyond t ⟨.finite c, dir, tol⟩ b x) :
    ∃ b', Beyond t ⟨.finite x, dir', tol'⟩ b' c ∧
      (∀ d p, Beyond d ⟨.finite c, dir, tol⟩ b.flip p → Beyond d ⟨.finite x, dir', tol'⟩ b' p) ∧
      (∀ d p, Beyond d ⟨.finite x, dir', tol'⟩ b'.flip p → Beyond d ⟨.finite c, dir, tol⟩ b p) := by
  refine ⟨if dir = dir' then b.flip else b, ?_⟩
  simp only [beyond_iff] at h ⊢
  cases b <;> cases dir <;> cases dir' <;> simp [Branch.flip, Branch.pick] at h ⊢ <;>
    refine ⟨by linarith, fun d p hp => ?_, fun d p hp => ?_⟩ <;> linarith

-- Cuts at one place differ by their directions alone.
theorem beyond_turn {tol' : Exact K} {dir' : Bool} : Beyond d ⟨.finite c, dir, tol⟩ b x ↔
    Beyond d ⟨.finite c, dir', tol'⟩ (if dir' == dir then b else b.flip) x := by
  rw [beyond_iff, beyond_iff]
  cases b <;> cases dir <;> cases dir' <;> rfl

-- A point that is no closer to two cuts than they are to each other does not tell them apart.
theorem beyond_near {c' : K} (h : |c - c'| ≤ t) (ht : 0 ≤ t) (hx : t ≤ |x - c|)
    (hx' : t ≤ |x - c'|) :
    Beyond 0 ⟨.finite c, dir, tol⟩ b x ↔ Beyond 0 ⟨.finite c', dir, tol⟩ b x := by
  rcases ht.eq_or_lt with rfl | ht
  case inl => rw [sub_eq_zero.mp <| abs_nonpos_iff.mp h]
  case inr =>
    rw [beyond_iff, beyond_iff]
    rw [abs_le] at h
    rw [le_abs] at hx hx'
    cases b <;> cases dir <;> simp [Branch.pick] <;> constructor <;> intro <;>
      rcases hx with hx | hx <;> rcases hx' with hx' | hx' <;> linarith

-- What is beyond a cut but not close to another one nearby is beyond that one too.
theorem Beyond.shift {c' : K} (hb : Beyond t ⟨.finite c, dir, tol⟩ b x) (h : |c' - c| ≤ t)
    (hx : ¬|c' - x| ≤ t) : Beyond t ⟨.finite c', dir, tol⟩ b x := by
  rw [beyond_iff] at hb ⊢
  rw [abs_le] at h
  rw [not_le, lt_abs] at hx
  cases b <;> cases dir <;> simp [Branch.pick] at hb ⊢ <;> rcases hx with hx | hx <;> linarith

-- A cut lies within itself.
theorem split_self (ht : 0 ≤ t) (dir : Bool) :
    let s : OrientedPoint (Exact K) := ⟨.finite c, dir, .finite t⟩
    s.split s = ⟨none, none⟩ := by
  intro s
  have hd : s.offset s.location = .finite 0 := by
    cases dir <;> simp [s, offset]
  simp only [split, hd, s, Exact.neg_finite, Exact.finite_lt]
  rw [if_neg (by simpa using ht), if_neg (not_lt.mpr ht)]

end OrientedPoint

theorem Space.grounded_line (R : Type) [Scalar R] : (line R).Grounded :=
  ⟨fun _ => rfl, OrientedPoint.part_eq⟩

namespace Line

variable {d t : K} {L C : Set K}

-- Cells that keep a distance from their walls, and are cut at the places of a set.
def cells (d : K) (L : Set K) (t : K) : Layout (line (Exact K)) K where
  half h b  := {x | OrientedPoint.Beyond d h b x}
  Spans C s := s.tolerance = .finite t ∧ ∃ c ∈ C ∩ L, s.location = .finite c

-- Whether cuts are equal or farther apart than the tolerance.
def Spaced (L : Set K) (t : K) : Prop :=
  ∀ x ∈ L, ∀ y ∈ L, x = y ∨ t < |x - y|

-- Whether cuts are equal or so far apart that no point is close to two of them.
def Apart (L : Set K) (t : K) : Prop :=
  ∀ x ∈ L, ∀ y ∈ L, x = y ∨ t + t < |x - y|

theorem cells_spans {s : OrientedPoint (Exact K)} : (cells d L t).Spans C s ↔
    ∃ c dir, s = ⟨.finite c, dir, .finite t⟩ ∧ c ∈ C ∧ c ∈ L := by
  have ⟨location, dir, tol⟩ := s
  constructor
  case mp  => rintro ⟨rfl, c, ⟨hc, hl⟩, rfl⟩; exact ⟨c, dir, rfl, hc, hl⟩
  case mpr => rintro ⟨c, dir, ⟨⟩, hc, hl⟩; exact ⟨rfl, c, ⟨hc, hl⟩, rfl⟩

theorem cells_cuts {ι α : Type} {n : Node (line (Exact K)) ι α} (hn : (cells d L t).Fitted C n)
    {s : OrientedPoint (Exact K)} (hs : s ∈ n.cuts) : ∃ c ∈ C ∩ L, s.location = .finite c := by
  have ⟨D, hD, _, c, hc, hl⟩ := hn.exists_spans hs
  exact ⟨c, ⟨hD hc.1, hc.2⟩, hl⟩

variable [IsStrictOrderedRing K]

theorem Apart.spaced (ht : 0 ≤ t) (hL : Apart L t) : Spaced L t :=
  fun x hx y hy => (hL x hx y hy).imp_right (lt_of_le_of_lt (le_add_of_nonneg_left ht))

-- Cuts that are told apart at all lie on one side of each other.
theorem Spaced.beyond (hL : Spaced L t) {c x : K} (hc : c ∈ L) (hx : x ∈ L) {dir b} {tol : Exact K}
    (h : OrientedPoint.Beyond 0 ⟨.finite c, dir, tol⟩ b x) :
    OrientedPoint.Beyond t ⟨.finite c, dir, tol⟩ b x := by
  rw [OrientedPoint.beyond_iff] at h ⊢
  rcases hL c hc x hx with rfl | ha
  case inl => cases b <;> cases dir <;> simp [Branch.pick] at h
  case inr =>
    rw [lt_abs] at ha
    cases b <;> cases dir <;> simp [Branch.pick] at h ⊢ <;> rcases ha with ha | ha <;> linarith

theorem cells_lawful (hd : 0 ≤ d) (ht : d ≤ t) : (cells d L t).Lawful where
  disjoint h h' := OrientedPoint.beyond_disjoint (h.mono hd) (h'.mono hd)
  hyperplane_whole _ := rfl
  hyperplane_part := OrientedPoint.part_eq
  spans_part := by
    intro C D s w b part hs hw hp
    obtain ⟨x, dir, rfl, hx, hl⟩ := cells_spans.mp hs
    obtain ⟨c, dir', rfl, hc, hl'⟩ := cells_spans.mp hw
    cases OrientedPoint.part_eq hp
    have hb := OrientedPoint.split_on rfl (hd.trans ht) |>.mp hp
    exact cells_spans.mpr ⟨x, dir, rfl, ⟨hx, hb.mono ht⟩, hl⟩

-- Being beyond a wall within the layout has to mean being beyond it for a split.
theorem cells_rigid (hd : 0 ≤ d) (ht : d ≤ t)
    (h : ∀ c ∈ L, ∀ x ∈ L, ∀ dir b, OrientedPoint.Beyond d ⟨.finite c, dir, .finite t⟩ b x →
      OrientedPoint.Beyond t ⟨.finite c, dir, .finite t⟩ b x) : (cells d L t).Rigid where
  toLawful := cells_lawful hd ht
  spans_whole hs := ⟨hs.1, hs.2.imp fun c h => ⟨⟨trivial, h.1.2⟩, h.2⟩⟩
  unique _ _ h := h
  part_of_smaller := by
    intro C D E s c w b hs hw hc he hE
    obtain ⟨x, dir, rfl, hx, hl⟩ := cells_spans.mp hc
    obtain ⟨c, dir', rfl, -, hl'⟩ := cells_spans.mp hw
    cases he
    exact ⟨_, OrientedPoint.split_on rfl (hd.trans ht) |>.mpr <| h c hl' x hl dir' b (hE hx).2⟩

theorem cells_beside {C : Set K} (ht : 0 ≤ t) (hd : d ≤ t)
    {sub cut : OrientedPoint (Exact K)} {x : K} {b : Branch}
    (hs : sub.location = .finite x) (hs' : sub.tolerance = .finite t)
    (hc : (cells d L t).Spans C cut) (h : (sub.split cut).side = b.side) :
    ∃ b', (cells d L t).Beside C sub cut b b' := by
  have ⟨_, dir, _⟩ := sub
  cases hs
  cases hs'
  obtain ⟨c, dir', rfl, hc, hl⟩ := cells_spans.mp hc
  obtain ⟨b', hb, h₁, h₂⟩ := OrientedPoint.beside ht <| OrientedPoint.split_side rfl ht |>.mp h
  refine ⟨b', ?side, ?cut, ?beyond, ?near⟩
  case side   => exact OrientedPoint.split_side rfl ht |>.mpr hb
  case cut    => exact cells_spans.mpr ⟨c, dir', rfl, ⟨hc, hb.mono hd⟩, hl⟩
  case beyond => exact fun p hp => h₁ d p hp.2
  case near   => exact fun p hp => h₂ d p hp.2

theorem Spaced.tight (ht : 0 ≤ t) (hL : Spaced L t) : (cells 0 L t).Tight :=
  (cells_rigid le_rfl ht fun _ hc _ hx _ _ => hL.beyond hc hx).toTight

theorem Spaced.separating (ht : 0 ≤ t) (hL : Spaced L t) : (cells 0 L t).Separating where
  toLawful := cells_lawful le_rfl ht
  beside := by
    intro C sub cut b _ hs hc h
    refine ⟨?spans, ?beside⟩
    case spans =>
      obtain ⟨x, dir, rfl, hx, hl⟩ := cells_spans.mp hs
      obtain ⟨c, dir', rfl, -⟩ := cells_spans.mp hc
      have hb := OrientedPoint.split_side rfl ht |>.mp h
      exact cells_spans.mpr ⟨x, dir, rfl, ⟨hx, hb.mono ht⟩, hl⟩
    case beside =>
      have ⟨hs', x, _, hx⟩ := hs
      exact cells_beside ht ht hx hs' hc h
  cross := by
    intro C sub cut _ hs hc h
    obtain ⟨x, dir, rfl, -⟩ := cells_spans.mp hs
    obtain ⟨c, dir', rfl, -⟩ := cells_spans.mp hc
    exact absurd h <| OrientedPoint.split_side_ne_both rfl ht
  coincide := by
    intro C sub cut b _ hs hc h
    obtain ⟨x, dir, rfl, -, hl⟩ := cells_spans.mp hs
    obtain ⟨c, dir', rfl, -, hl'⟩ := cells_spans.mp hc
    have hd := OrientedPoint.split_side_within rfl ht |>.mp h
    rcases hL x hl c hl' with rfl | ha
    case inl => exact congrArg (C ∩ ·) <| Set.ext fun _ => OrientedPoint.beyond_turn
    case inr => exact absurd hd (not_le.mpr ha)

theorem Apart.tight (ht : 0 ≤ t) (hL : Apart L t) : (cells 0 L t).Tight :=
  (hL.spaced ht).tight ht

theorem Apart.separating (ht : 0 < t) (hL : Apart L t) : (cells 0 L t).Separating :=
  (hL.spaced ht.le).separating ht.le

-- Cells of the points that keep a distance from all cuts. A cut fills any cell.
def clear (L : Set K) (t : K) : Layout (line (Exact K)) K where
  half h b  := {x | OrientedPoint.Beyond 0 h b x ∧ ∀ c ∈ L, t ≤ |x - c|}
  Spans _ s := s.tolerance = .finite t ∧ ∃ c ∈ L, s.location = .finite c

omit [IsStrictOrderedRing K] in
theorem clear_spans {s : OrientedPoint (Exact K)} : (clear L t).Spans C s ↔
    ∃ c dir, s = ⟨.finite c, dir, .finite t⟩ ∧ c ∈ L := by
  have ⟨location, dir, tol⟩ := s
  constructor
  case mp  => rintro ⟨rfl, c, hl, rfl⟩; exact ⟨c, dir, rfl, hl⟩
  case mpr => rintro ⟨c, dir, ⟨⟩, hl⟩; exact ⟨rfl, c, hl, rfl⟩

theorem clear_separating (ht : 0 ≤ t) : (clear L t).Separating where
  disjoint h h' := OrientedPoint.beyond_disjoint h.1 h'.1
  hyperplane_whole _ := rfl
  hyperplane_part := OrientedPoint.part_eq
  spans_part hs _ hp := OrientedPoint.part_eq hp ▸ hs
  beside := by
    intro C sub cut b _ hs hc h
    obtain ⟨x, dir, rfl, -⟩ := clear_spans.mp hs
    obtain ⟨c, dir', rfl, -⟩ := clear_spans.mp hc
    have hb := OrientedPoint.split_side rfl ht |>.mp h
    obtain ⟨b', hb', h₁, h₂⟩ := OrientedPoint.beside ht hb
    refine ⟨hs, b', OrientedPoint.split_side rfl ht |>.mpr hb', hc, ?beyond, ?near⟩
    case beyond => exact fun p hp => ⟨h₁ 0 p hp.2.1, hp.2.2⟩
    case near   => exact fun p hp => ⟨h₂ 0 p hp.2.1, hp.2.2⟩
  cross := by
    intro C sub cut _ hs hc h
    obtain ⟨x, dir, rfl, -⟩ := clear_spans.mp hs
    obtain ⟨c, dir', rfl, -⟩ := clear_spans.mp hc
    exact absurd h <| OrientedPoint.split_side_ne_both rfl ht
  coincide := by
    intro C sub cut b _ hs hc h
    obtain ⟨x, dir, rfl, hl⟩ := clear_spans.mp hs
    obtain ⟨c, dir', rfl, hl'⟩ := clear_spans.mp hc
    have hd := OrientedPoint.split_side_within rfl ht |>.mp h
    refine congrArg (C ∩ ·) <| Set.ext fun p => and_congr_left fun hp => ?_
    exact (OrientedPoint.beyond_near hd ht (hp x hl) (hp c hl')).trans OrientedPoint.beyond_turn

end Line
end SpacePartition
