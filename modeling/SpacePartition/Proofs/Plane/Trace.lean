import Mathlib.Algebra.Order.Field.Rat
import Mathlib.Tactic.LinearCombination
import Mathlib.Tactic.Ring
import SpacePartition.Plane.Basic
import SpacePartition.Proofs.Line.Layout

/-!
Where a line of the plane meets another one, in exact arithmetic. Along a line, the offset from
another line changes at a constant rate, which is how far the lines turn from each other. It
vanishes at the trace of a line that crosses, and it is the same everywhere for a parallel one.
-/

namespace SpacePartition

-- A line by its direction, which is a unit vector, and its signed distance from the origin.
structure UnitLine (K : Type) [Field K] where
  cos          : K
  sin          : K
  originOffset : K
  unit         : cos * cos + sin * sin = 1

namespace UnitLine

variable {K : Type} [Field K]

def line (l : UnitLine K) (tol : Exact K) : OrientedLine (Exact K) :=
  ⟨.finite l.cos, .finite l.sin, .finite l.originOffset, tol⟩

-- The sine of the angle from another line to a line.
def turn (l m : UnitLine K) : K :=
  l.sin * m.cos - m.sin * l.cos

def align (l m : UnitLine K) : K :=
  l.cos * m.cos + l.sin * m.sin

-- The offset from `m` of the point of `l` with an abscissa.
def along (l m : UnitLine K) (a : K) : K :=
  m.originOffset - l.align m * l.originOffset - l.turn m * a

-- The abscissa at which `l` crosses `m`.
def crossing (l m : UnitLine K) : K :=
  (m.originOffset - l.align m * l.originOffset) / l.turn m

variable {l m : UnitLine K} {a t : K} {tol tol' : Exact K} {q : OrientedPoint (Exact K)}

theorem turn_sq_add_align_sq : l.turn m ^ 2 + l.align m ^ 2 = 1 := by
  have h : (l.cos * l.cos + l.sin * l.sin) * (m.cos * m.cos + m.sin * m.sin) = 1 := by
    rw [l.unit, m.unit, one_mul]
  rw [← h, turn, align]
  ring

theorem along_eq_mul (h : l.turn m ≠ 0) : l.along m a = -l.turn m * (a - l.crossing m) := by
  rw [along, crossing, mul_sub, neg_mul, neg_mul, mul_div_cancel₀ _ h]
  ring

variable [LinearOrder K]

theorem along_eq_abs_mul [IsStrictOrderedRing K] (h : l.turn m ≠ 0) : l.along m a =
    |l.turn m| * if l.turn m < 0 then a - l.crossing m else -(a - l.crossing m) := by
  rw [along_eq_mul h]
  split
  case isTrue hn  => rw [abs_of_neg hn]
  case isFalse hn => rw [abs_of_nonneg (not_lt.mp hn), mul_neg, neg_mul]

theorem offset_pointAt : (m.line tol).offset ((l.line tol').pointAt (.finite a)) =
    .finite (l.along m a) := by
  simp only [line, OrientedLine.offset, OrientedLine.pointAt, Exact.finite_mul, Exact.finite_sub,
    Exact.finite_add, along, align, turn]
  exact congrArg _ (by ring)

theorem intersection_of_lt (h : |l.turn m| < t) :
    (l.line (.finite t)).intersection (m.line tol) = none := by
  simp only [line, OrientedLine.intersection, Exact.finite_mul, Exact.finite_sub, Exact.abs_finite,
    Exact.finite_lt]
  exact if_pos h

variable [IsStrictOrderedRing K]

theorem trace_crossing (ht : 0 < t) (h : t ≤ |l.turn m|) :
    (l.line (.finite t)).trace (m.line tol) =
      .crossing ⟨.finite (l.crossing m), l.turn m < 0, .finite t⟩ := by
  have hd : l.turn m ≠ 0 := abs_pos.mp (ht.trans_le h)
  have hn : ¬|l.sin * m.cos - m.sin * l.cos| < t := not_lt.mpr h
  have hx : l.cos * ((l.cos * m.originOffset - m.cos * l.originOffset) / l.turn m) +
      l.sin * ((l.sin * m.originOffset - m.sin * l.originOffset) / l.turn m) = l.crossing m := by
    rw [crossing, align, mul_div_assoc', mul_div_assoc', ← add_div]
    congr 1
    linear_combination m.originOffset * l.unit
  rw [turn] at hd hx
  simp only [line, OrientedLine.trace, OrientedLine.intersection, Exact.finite_mul,
    Exact.finite_sub, Exact.abs_finite, Exact.finite_lt, hn, if_false, Exact.finite_div hd,
    OrientedLine.abscissa, Exact.finite_add, hx, Exact.zero_eq, turn, mul_comm l.cos m.sin]
  congr

theorem trace_parallel (ht : 0 < t) (h : l.turn m = 0) :
    (l.line (.finite t)).trace (m.line tol) = .parallel (.finite (l.along m a)) := by
  have hi : (l.line (.finite t)).intersection (m.line tol) = none :=
    intersection_of_lt <| by rwa [h, abs_zero]
  have ha : l.along m a = m.originOffset - l.align m * l.originOffset := by
    rw [along, h, zero_mul, sub_zero]
  have hc : m.cos * l.cos + m.sin * l.sin = l.align m := by
    rw [align, mul_comm m.cos, mul_comm m.sin]
  -- Parallel unit vectors are equal or opposite.
  have hs : l.align m ^ 2 = 1 := by
    rw [← turn_sq_add_align_sq (l := l) (m := m), h, zero_pow two_ne_zero, zero_add]
  rw [OrientedLine.trace, hi, ha]
  simp only [line, OrientedLine.offsetOf, Exact.finite_mul, Exact.finite_add, Exact.zero_eq,
    Exact.finite_lt, hc]
  rcases sq_eq_one_iff.mp hs with hs | hs
  case inl => simp [hs, sub_eq_add_neg]
  case inr => simp [hs, zero_le_one.not_gt]

-- Whether a line crosses another one or is parallel to it, its trace tells the offsets of its
-- points from the other line. The minus side of the trace is the part of the line on the minus side
-- of the other one. The tolerance has to be positive for parallel lines too.
theorem trace_tells_offsets (l m : UnitLine K) (ht : 0 < t) (tol : Exact K) :
    let offset (a : K) := (m.line tol).offset ((l.line (.finite t)).pointAt (.finite a))
    (t ≤ |l.turn m| → ∃ q : OrientedPoint (Exact K),
      (l.line (.finite t)).trace (m.line tol) = .crossing q ∧
      ∀ a, offset a = .finite |l.turn m| * q.offset (.finite a) ∧
        (offset a < 0 ↔ q.offset (.finite a) < 0)) ∧
    (l.turn m = 0 → ∃ k, (l.line (.finite t)).trace (m.line tol) = .parallel k ∧
      ∀ a, offset a = k) := by
  intro offset
  refine ⟨fun h => ?crossing, fun h => ?parallel⟩
  case crossing =>
    refine ⟨_, trace_crossing ht h, fun a => ?_⟩
    have hd : 0 < |l.turn m| := ht.trans_le h
    have ho : offset a = .finite (l.along m a) := offset_pointAt
    rw [ho, along_eq_abs_mul (abs_pos.mp hd), OrientedPoint.offset_finite]
    simp only [decide_eq_true_eq, Exact.finite_mul, Exact.zero_eq, Exact.finite_lt, true_and]
    simp only [mul_neg_iff, hd, hd.not_gt, true_and, false_and, or_false]
  case parallel =>
    refine ⟨_, trace_parallel (a := 0) ht h, fun a => ?_⟩
    rw [along, h, zero_mul, ← zero_mul a, ← h]
    exact offset_pointAt

-- A line that turns clockwise from the one it crosses, and one that runs against it.
theorem trace_tells_offsets_of_opposite :
    let l : UnitLine ℚ := ⟨4 / 5, 3 / 5, 2, by norm_num⟩
    let m : UnitLine ℚ := ⟨3 / 5, 4 / 5, 1, by norm_num⟩
    let opposite : UnitLine ℚ := ⟨-4 / 5, -3 / 5, 1, by norm_num⟩
    let t : ℚ := 1 / 10
    (0 < t ∧ t ≤ |l.turn m| ∧ l.turn opposite = 0) ∧
    (∃ q : OrientedPoint (Exact ℚ), (l.line (.finite t)).trace (m.line 0) = .crossing q ∧
      q.offset (.finite 0) < 0) ∧
    (l.line (.finite t)).trace (opposite.line 0) = .parallel (.finite 3) := by
  intro l m opposite t
  have ht : 0 < t := by norm_num [t]
  have hm : t ≤ |l.turn m| := by norm_num [t, turn, l, m]
  have ho : l.turn opposite = 0 := by norm_num [turn, l, opposite]
  obtain ⟨q, hq, h⟩ := (l.trace_tells_offsets m ht 0).1 hm
  obtain ⟨k, hk, h'⟩ := (l.trace_tells_offsets opposite ht 0).2 ho
  refine ⟨⟨ht, hm, ho⟩, ⟨q, hq, (h 0).2.mp (by decide +kernel)⟩, ?_⟩
  rw [hk]
  exact congrArg Trace.parallel <| (h' 0).symm.trans (by decide +kernel)

-- Without a tolerance even parallel lines count as crossing ones.
theorem not_trace_parallel :
    let l : UnitLine ℚ := ⟨1, 0, 0, by norm_num⟩
    let m : UnitLine ℚ := ⟨1, 0, 1, by norm_num⟩
    l.turn m = 0 ∧ ¬∃ k, (l.line (.finite 0)).trace (m.line (.finite 0)) = .parallel k ∧
      ∀ a, (m.line (.finite 0)).offset ((l.line (.finite 0)).pointAt (.finite a)) = k := by
  intro l m
  refine ⟨by norm_num [turn, l, m], ?_⟩
  rintro ⟨k, hk, -⟩
  have hi : ((l.line (.finite 0)).intersection (m.line (.finite 0))).isSome = true := by
    decide +kernel
  obtain ⟨p, hp⟩ := Option.isSome_iff_exists.mp hi
  rw [OrientedLine.trace, hp] at hk
  cases hk

end UnitLine
end SpacePartition
