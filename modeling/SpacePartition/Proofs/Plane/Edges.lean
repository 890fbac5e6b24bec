import SpacePartition.Proofs.Plane.Sides
import SpacePartition.Proofs.Region.Flow

/-!
The sides of a rectangle. Each of them is what its line has between the lines of the two sides
across, so that it has the length of a side and lies with its middle where the side does.
-/

namespace SpacePartition

variable {K : Type} [Field K]

namespace Axis

def other : Axis → Axis
  | x => y
  | y => x

theorem other_ne (axis : Axis) : axis.other ≠ axis := by
  cases axis <;> nofun

end Axis

namespace AxisLine

variable {l : AxisLine K} {t a : K} {p : Axis → K}

-- The distance of a point, positive on the plus side of the line.
def distance (l : AxisLine K) (p : Axis → K) : K :=
  if l.direct then p l.axis - l.place else l.place - p l.axis

variable [LinearOrder K]

theorem offset_eq_distance : (l.line t).offset (planePoint p) = .finite (l.distance p) := by
  rw [offset_line, point, distance]
  cases l.direct <;> simp [OrientedPoint.offset]

theorem pointAt_finite : (l.line t).pointAt (.finite a) = planePoint (l.pointAt a) := by
  obtain ⟨_ | _, c, _ | _⟩ := l <;>
    simp [line, planePoint, pointAt, OrientedLine.pointAt, sign, sense]

end AxisLine

variable [LinearOrder K]

namespace Plane

open AxisLine

variable {L : Axis → Set K} {min max p : Axis → K} {l w : AxisLine K} {a t : K}

-- The places of the sides of a rectangle.
def bounds (min max : Axis → K) (axis : Axis) : Set K :=
  {min axis, max axis}

omit [Field K] [LinearOrder K] in
theorem place_mem_bounds (hl : l ∈ Region.edges min max) : l.place ∈ bounds min max l.axis := by
  rw [Region.mem_edges.mp hl]
  cases l.direct
  case false => exact .inl rfl
  case true  => exact .inr rfl

-- A side is known by its axis and its direction.
omit [Field K] [LinearOrder K] in
theorem eq_of_mem_edges (hl : l ∈ Region.edges min max) (hw : w ∈ Region.edges min max)
    (ha : w.axis = l.axis) (hd : w.direct = l.direct) : w = l := by
  have hp := Region.mem_edges.mp hw
  rw [ha, hd, ← Region.mem_edges.mp hl] at hp
  cases w
  cases l
  simp_all

omit [Field K] [LinearOrder K] in
theorem nodup_edges : (Region.edges min max).Nodup := by
  simp [Region.edges]

theorem grid_bounds (ht : 0 < t) (ht' : t ≤ 1) (h : ∀ axis, t < max axis - min axis) :
    Grid (bounds min max) t where
  finite _ := Set.toFinite {_, _}
  pos      := ht
  le_one   := ht'
  spaced   := by
    intro axis
    have hd : t < |max axis - min axis| := (h axis).trans_le (le_abs_self _)
    rintro x (rfl | rfl) y (rfl | rfl)
    case inl.inl => exact .inl rfl
    case inl.inr => exact .inr <| abs_sub_comm (max axis) (min axis) ▸ hd
    case inr.inl => exact .inr hd
    case inr.inr => exact .inl rfl

-- What a side adds to the boundary if its barycenter is at `b`.
def sideExtent (min max : Axis → K) (l : AxisLine K) (b : Axis → K) : Extent (plane (Exact K)) :=
  ⟨max l.axis.other - min l.axis.other, sign l.direct * l.place, planePoint b⟩

-- Whether a place on a side is in the middle of it, unless the side is too short to count.
structure Bisects (min max : Axis → K) (l : AxisLine K) (b : Axis → K) : Prop where
  place  : b l.axis = l.place
  middle : (2 ^ 1022)⁻¹ ≤ max l.axis.other - min l.axis.other →
    b l.axis.other = (min l.axis.other + max l.axis.other) / 2

variable [IsStrictOrderedRing K]

theorem mem_half_edge (hl : l ∈ Region.edges min max) :
    p ∈ (cells L t).half (l.line t) .minus ↔
      if l.direct then p l.axis < max l.axis else min l.axis < p l.axis := by
  rw [mem_half, point, OrientedPoint.beyond_iff, Region.mem_edges.mp hl]
  cases l.direct <;> simp [Branch.pick]

variable (h : ∀ axis, min axis < max axis)

include h

-- The points of a side on the minus sides of all other sides.
theorem pointAt_mem_inner (hl : l ∈ Region.edges min max) :
    l.pointAt a ∈ inner L t ((Region.edges min max).erase l) ↔
      min l.axis.other < l.pointAt a l.axis.other ∧
        l.pointAt a l.axis.other < max l.axis.other := by
  simp only [inner, Set.mem_ofPred_eq, nodup_edges.mem_erase_iff]
  constructor
  case mp =>
    intro hi
    have side (direct : Bool) : if direct then l.pointAt a l.axis.other < max l.axis.other
        else min l.axis.other < l.pointAt a l.axis.other := by
      have hw : ⟨l.axis.other, if direct then max l.axis.other else min l.axis.other, direct⟩ ∈
          Region.edges min max := Region.mem_edges.mpr rfl
      exact (mem_half_edge hw).mp <| hi _ ⟨fun he => l.axis.other_ne (congrArg axis he), hw⟩
    exact ⟨side false, side true⟩
  case mpr =>
    rintro ⟨hmin, hmax⟩ w ⟨hne, hw⟩
    rw [mem_half_edge hw]
    by_cases ha : w.axis = l.axis
    case pos =>
      have hd : w.direct = !l.direct :=
        Bool.eq_not_of_ne fun hd => hne <| eq_of_mem_edges hl hw ha hd
      rw [ha, hd, pointAt_axis, Region.mem_edges.mp hl]
      cases l.direct <;> exact h l.axis
    case neg =>
      rw [Axis.eq_of_ne l.axis.other_ne.symm ha]
      cases w.direct
      case false => exact hmin
      case true  => exact hmax

theorem exists_middle (hl : l ∈ Region.edges min max) :
    ∃ a ∉ l.marks (bounds min max), l.pointAt a ∈ inner L t ((Region.edges min max).erase l) := by
  let middle := (min l.axis.other + max l.axis.other) / 2
  have hlt := h l.axis.other
  have hm : min l.axis.other < middle ∧ middle < max l.axis.other :=
    ⟨left_lt_add_div_two.mpr hlt, add_div_two_lt_right.mpr hlt⟩
  refine ⟨sign l.sense * middle, ?off_marks, ?inner⟩
  case off_marks =>
    rw [mem_marks l.axis.other_ne, sign_mul_cancel]
    rintro (he | he)
    case inl => exact hm.1.ne' he
    case inr => exact hm.2.ne he
  case inner =>
    rwa [pointAt_mem_inner h hl, pointAt_of_ne l.axis.other_ne, sign_mul_cancel]

-- The abscissas of a side count with the coordinate or against it.
theorem exists_abscissas (hl : l ∈ Region.edges min max) :
    let o := l.axis.other
    ∃ lower upper,
      {a | l.pointAt a ∈ inner L t ((Region.edges min max).erase l)} = Set.Ioo lower upper ∧
      lower ∈ l.marks (bounds min max) ∧ upper ∈ l.marks (bounds min max) ∧ lower < upper ∧
      upper - lower = max o - min o ∧
      sign l.sense * ((lower + upper) / 2) = (min o + max o) / 2 := by
  intro o
  have hm {a : K} : a ∈ l.marks (bounds min max) ↔
      sign l.sense * a = min o ∨ sign l.sense * a = max o :=
    mem_marks l.axis.other_ne
  have hi {a : K} : l.pointAt a ∈ inner L t ((Region.edges min max).erase l) ↔
      min o < sign l.sense * a ∧ sign l.sense * a < max o := by
    rw [pointAt_mem_inner h hl, pointAt_of_ne l.axis.other_ne]
  cases hs : l.sense <;>
    simp only [hs, sign, if_true, if_false, Bool.false_eq_true, one_mul, neg_mul] at hm hi ⊢
  case true =>
    exact ⟨min o, max o, Set.ext fun a => hi, hm.mpr (.inl rfl), hm.mpr (.inr rfl), h o, rfl, rfl⟩
  case false =>
    refine ⟨-max o, -min o, Set.ext fun a => hi.trans ?_, hm.mpr (.inr (neg_neg _)),
      hm.mpr (.inl (neg_neg _)), neg_lt_neg (h o), by ring, by ring⟩
    rw [lt_neg, neg_lt, and_comm]
    rfl

theorem exists_extent (g : Grid (bounds min max) t) (hl : l ∈ Region.edges min max)
    {f : Facet (plane (Exact K))} (hs : IsSide (bounds min max) t (Region.edges min max) l f) :
    ∃ b, f.Has (sideExtent min max l b) ∧ Bisects min max l b := by
  have ⟨lower, upper, hi, hlm, hum, hlu, hd, hmid⟩ :=
    exists_abscissas (L := bounds min max) (t := t) h hl
  have ho := hs.fills.occupies
  rw [hi] at ho
  have hline : (plane (Exact K)).hyperplane f.sub = l.line t := hs.fills.line
  have hf := finite_marks g.finite l
  have ⟨q, hq, hq'⟩ := ho.barycenter_Ioo hf hlm hum hlu
  refine ⟨l.pointAt q, ⟨?area, ?height, ?barycenter⟩, pointAt_axis, fun hlen => ?middle⟩
  case area => exact (ho.size_Ioo hf hlm hum hlu).trans (congrArg _ <| congrArg _ hd)
  case height =>
    have ho :
        (plane (Exact K)).offset (l.line t) Coordinates.origin = .finite (l.distance fun _ => 0) :=
      offset_eq_distance (p := fun _ => 0)
    rw [hs.facing, hline, ho, distance, sideExtent]
    cases l.direct <;> simp [sign]
  case barycenter =>
    have hp : OrientedLine.pointAt (Embedded.hyperplane f.sub) (.finite q) =
        planePoint (l.pointAt q) := by
      rw [hs.fills.line, pointAt_finite]
    exact (congrArg (OrientedLine.pointAt _ <$> ·) hq).trans (congrArg Except.ok hp)
  case middle =>
    rw [pointAt_of_ne l.axis.other_ne, hq' (hd ▸ hlen), hmid]

end Plane
end SpacePartition
