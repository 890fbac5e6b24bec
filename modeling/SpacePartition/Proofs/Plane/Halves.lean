import SpacePartition.Proofs.Line.Boundary
import SpacePartition.Proofs.Line.Halves
import SpacePartition.Proofs.Plane.Layout
import SpacePartition.Proofs.Plane.Trace

/-!
The parts of a part of a line on the two sides of a line that crosses it, whatever their directions
are. Where the crossing keeps the tolerance from the bounds that it is not at, each has what the
intervals have on its side.
-/

namespace SpacePartition

variable {K : Type} [Field K] [LinearOrder K] [IsStrictOrderedRing K]

namespace UnitLine

variable {l m : UnitLine K} {t a : K} {tol tol' : Exact K} {q : OrientedPoint (Exact K)}
variable {b : Branch}

-- Lines cross only if they turn from each other by more than the tolerance.
theorem eq_of_trace_crossing (ht : 0 < t)
    (h : (l.line (.finite t)).trace (m.line tol) = .crossing q) :
    l.turn m ≠ 0 ∧ q = ⟨.finite (l.crossing m), l.turn m < 0, .finite t⟩ := by
  by_cases hd : t ≤ |l.turn m|
  case pos =>
    rw [trace_crossing ht hd] at h
    cases h
    exact ⟨abs_pos.mp (ht.trans_le hd), rfl⟩
  case neg =>
    rw [OrientedLine.trace, intersection_of_lt (not_le.mp hd)] at h
    cases h

-- The trace parts a line as the other line does.
theorem pos_offset_iff (h : l.turn m ≠ 0) :
    0 < b.pick ((m.line tol).offset ((l.line tol').pointAt (.finite a)))
      (-(m.line tol).offset ((l.line tol').pointAt (.finite a))) ↔
        OrientedPoint.Beyond 0 ⟨.finite (l.crossing m), l.turn m < 0, .finite t⟩ b a := by
  have hd : 0 < |l.turn m| := abs_pos.mpr h
  rw [offset_pointAt, along_eq_abs_mul h, OrientedPoint.beyond_iff_lt]
  simp only [decide_eq_true_eq]
  generalize (if l.turn m < 0 then a - l.crossing m else -(a - l.crossing m)) = e
  cases b
  case plus  => exact Exact.finite_lt.trans <| mul_pos_iff_of_pos_left hd
  case minus =>
    change Exact.finite 0 < .finite (-(|l.turn m| * e)) ↔ 0 < -e
    rw [Exact.finite_lt, ← mul_neg, mul_pos_iff_of_pos_left hd]

end UnitLine

namespace Embedded

-- The size of a part, which may be lost.
def sizeOf {R : Type} [Scalar R] {E : Embedding R} : Option (Embedded E) → Except (Violation R) R
  | none   => .ok 0
  | some s => s.size

open Line

section Crossing

variable {s p p' : SubLine (Exact K)} {h : OrientedLine (Exact K)} {M : Set K} {c t : K}
variable {dir : Bool} {b : Branch}

variable (hq : OrientedLine.trace s.hyperplane h = .crossing ⟨.finite c, dir, .finite t⟩)
  (hc : c ∈ M)
  (hr : Region.Occupies M t s.remaining (Interval.union (Region.intervals s.remaining)))
  (ht : 0 ≤ t) (hM : Spaced M t) (hf : M.Finite)

include hq hc hr ht hM hf

theorem part_of_crossing : (s.split h).on b =
    if Interval.partsOn (.finite c) (b.pick dir !dir) (Region.intervals s.remaining) = []
    then none else some ⟨s.hyperplane, Region.beyond s.remaining ⟨.finite c, dir, .finite t⟩ b⟩ :=
  (split_on_of_crossing hq).trans <| if_congr (Region.isEmpty_half_iff hc hr ht hM hf) rfl rfl

theorem part_eq_none_iff : (s.split h).on b = none ↔
    Interval.partsOn (.finite c) (b.pick dir !dir) (Region.intervals s.remaining) = [] := by
  rw [part_of_crossing hq hc hr ht hM hf]
  exact ite_eq_left_iff.trans <| by simp

theorem eq_of_part (hp : (s.split h).on b = some p) :
    p = ⟨s.hyperplane, Region.beyond s.remaining ⟨.finite c, dir, .finite t⟩ b⟩ := by
  rw [part_of_crossing hq hc hr ht hM hf] at hp
  split at hp
  case isTrue  => cases hp
  case isFalse => exact (Option.some.inj hp).symm

theorem intervals_part (hp : (s.split h).on b = some p) : Region.intervals p.remaining =
    Interval.partsOn (.finite c) (b.pick dir !dir) (Region.intervals s.remaining) := by
  rw [eq_of_part hq hc hr ht hM hf hp]
  exact Region.intervals_beyond hc hr ht hM hf

-- Nothing is lost with a part that is lost.
theorem sizeOf_part : sizeOf ((s.split h).on b) = .ok (Scalar.sum <| List.map Interval.size <|
    Interval.partsOn (.finite c) (b.pick dir !dir) (Region.intervals s.remaining)) := by
  cases hp : (s.split h).on b
  case none =>
    rw [(part_eq_none_iff hq hc hr ht hM hf).mp hp, List.map_nil, Exact.sum_nil]
    rfl
  case some p =>
    rw [← intervals_part hq hc hr ht hM hf hp]
    exact Region.size_eq_sum p.remaining

theorem size_of_parts : ∃ y z, sizeOf ((s.split h).on .plus) = .ok y ∧
    sizeOf ((s.split h).on .minus) = .ok z ∧ s.size = .ok (y + z) := by
  have part (b) := sizeOf_part (b := b) hq hc hr ht hM hf
  refine ⟨_, _, part .plus, part .minus, (Region.size_eq_sum s.remaining).trans <| congrArg _ ?_⟩
  have hp := (Region.separated_intervals hr.fitted).proper
  cases dir
  case false => exact (Interval.sum_size_partsOn hp).symm
  case true  =>
    exact (Interval.sum_size_partsOn hp).symm.trans <| Exact.add_comm ..

theorem reunite_parts (hp : (s.split h).on b = some p) (hp' : (s.split h).on b.flip = some p') :
    ∃ u, p.reunite p' = .ok u ∧ u.hyperplane = s.hyperplane ∧
      Region.intervals u.remaining = Region.intervals s.remaining := by
  have ⟨u, hu, hi⟩ := Region.union_beyond hc hr ht hM hf dir b
  rw [eq_of_part hq hc hr ht hM hf hp, eq_of_part hq hc hr ht hM hf hp']
  exact ⟨⟨s.hyperplane, u⟩, Except.map_eq_ok.mpr ⟨u, hu, rfl⟩, rfl, hi⟩

end Crossing

-- Splitting a part of a line at a crossing parts its intervals there, and the parts make it up
-- again.
theorem intervals_split {s : SubLine (Exact K)} {l m : UnitLine K} {t x : K} {tol : Exact K}
    {q : OrientedPoint (Exact K)} (ht : 0 < t) (hs : s.hyperplane = l.line (.finite t))
    (hr : Region.FittedAt s.remaining t)
    (hq : OrientedLine.trace s.hyperplane (m.line tol) = .crossing q) (hx : q.location = .finite x)
    (hc : ∀ c ∈ Region.locations s.remaining, c = x ∨ t < |c - x|) :
    let offset (a : K) := (m.line tol).offset (OrientedLine.pointAt s.hyperplane (.finite a))
    let is := Region.intervals s.remaining
    let part (b : Branch) := (s.split (m.line tol)).on b
    ∃ above : Branch → Bool,
      (∀ b a, 0 < b.pick (offset a) (-offset a) ↔ if above b then x < a else a < x) ∧
      (∀ b, (part b = none ↔ Interval.partsOn (.finite x) (above b) is = []) ∧
        ∀ p, part b = some p → p.hyperplane = s.hyperplane ∧
          Region.intervals p.remaining = Interval.partsOn (.finite x) (above b) is) ∧
      (∃ y z, sizeOf (part .plus) = .ok y ∧ sizeOf (part .minus) = .ok z ∧ s.size = .ok (y + z)) ∧
      ∀ b p p', part b = some p → part b.flip = some p' → ∃ u, p.reunite p' = .ok u ∧
        u.hyperplane = s.hyperplane ∧ Region.intervals u.remaining = is := by
  intro offset is part
  obtain ⟨hd, rfl⟩ := UnitLine.eq_of_trace_crossing ht (hs ▸ hq)
  cases hx
  let M : Set K := insert (l.crossing m) (Region.locations s.remaining)
  have hM : Spaced M t := by
    rintro y (rfl | hy) z (rfl | hz)
    case inl.inl => exact .inl rfl
    case inl.inr => exact (hc z hz).imp Eq.symm (abs_sub_comm z _ ▸ ·)
    case inr.inl => exact hc y hy
    case inr.inr => exact hr.spaced ht.le y hy z hz
  have hf : M.Finite := (Region.finite_locations s.remaining).insert _
  have ho := hr.occupies ht.le (Set.subset_insert (l.crossing m) _)
  have hx : l.crossing m ∈ M := Set.mem_insert ..
  refine ⟨fun b => b.pick (l.turn m < 0) !(l.turn m < 0), fun b a => ?side,
    fun b => ⟨?lost, fun p hp => ?kept⟩, ?size, fun b p p' hp hp' => ?reunite⟩
  case side =>
    have ho : offset a = (m.line tol).offset ((l.line (.finite t)).pointAt (.finite a)) :=
      hs ▸ rfl
    rw [ho, UnitLine.pos_offset_iff hd (t := t), OrientedPoint.beyond_iff, add_zero, add_zero]
  case lost    => exact part_eq_none_iff hq hx ho ht.le hM hf
  case kept    => exact ⟨hyperplane_part hp, intervals_part hq hx ho ht.le hM hf hp⟩
  case size    => exact size_of_parts hq hx ho ht.le hM hf
  case reunite => exact reunite_parts hq hx ho ht.le hM hf hp hp'

-- An interval of a slanted line, cut by an upright one.
theorem intervals_split_of_slanted :
    let l : UnitLine ℚ := ⟨4 / 5, 3 / 5, 2, by norm_num⟩
    let m : UnitLine ℚ := ⟨0, 1, -2, by norm_num⟩
    let t : Exact ℚ := .finite (1 / 2)
    let s : SubLine (Exact ℚ) := ⟨l.line t, Region.interval (.finite 0) (.finite 10) t⟩
    let q : OrientedPoint (Exact ℚ) := ⟨.finite 4, true, t⟩
    ((0 : ℚ) < 1 / 2 ∧ Region.FittedAt s.remaining (1 / 2) ∧
      OrientedLine.trace s.hyperplane (m.line t) = .crossing q ∧
      ∀ c ∈ Region.locations s.remaining, c = 4 ∨ 1 / 2 < |c - 4|) ∧
    ∃ p p', (s.split (m.line t)).on .plus = some p ∧ (s.split (m.line t)).on .minus = some p' ∧
      Region.intervals p.remaining =
        Interval.partsOn (.finite 4) true (Region.intervals s.remaining) ∧
      ∃ u, p.reunite p' = .ok u ∧ Region.intervals u.remaining = Region.intervals s.remaining := by
  intro l m t s q
  have ht : (0 : ℚ) < 1 / 2 := by norm_num
  have hr : Region.FittedAt s.remaining (1 / 2) := Region.fittedAt_interval (by norm_num)
  have hq : OrientedLine.trace s.hyperplane (m.line t) = .crossing q := by
    have hd : l.turn m = -4 / 5 := by norm_num [l, m, UnitLine.turn]
    have hx : l.crossing m = 4 := by norm_num [l, m, UnitLine.crossing, UnitLine.align, hd]
    rw [(UnitLine.trace_crossing ht (by norm_num [hd]) : OrientedLine.trace s.hyperplane _ = _),
      hx, hd]
    norm_num
    rfl
  have hc : ∀ c ∈ Region.locations s.remaining, c = 4 ∨ 1 / 2 < |c - 4| := by
    intro c hc
    have hc : c ∈ ({0, 10} : Set ℚ) := Region.locations_interval (K := ℚ) ▸ hc
    rcases hc with rfl | rfl <;> norm_num
  refine ⟨⟨ht, hr, hq, hc⟩, ?_⟩
  obtain ⟨above, hs, hi, -, hu⟩ := intervals_split ht rfl hr hq rfl hc
  obtain ⟨p, hp⟩ := Option.isSome_iff_exists.mp
    (by decide +kernel : ((s.split (m.line t)).on .plus).isSome = true)
  obtain ⟨p', hp'⟩ := Option.isSome_iff_exists.mp
    (by decide +kernel : ((s.split (m.line t)).on .minus).isSome = true)
  have ha : above .plus = true := by
    by_contra ha
    have h := (hs .plus 5).mp (by decide +kernel)
    rw [if_neg ha] at h
    norm_num at h
  obtain ⟨u, h, -, hu⟩ := hu .plus p p' hp hp'
  exact ⟨p, p', hp, hp', ha ▸ ((hi .plus).2 p hp).2, u, h, hu⟩

end Embedded
end SpacePartition
