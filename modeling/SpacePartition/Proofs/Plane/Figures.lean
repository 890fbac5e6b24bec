import Mathlib.Algebra.Order.Field.Rat
import Mathlib.Data.Rat.Sqrt
import SpacePartition.Proofs.Plane.Rectangle
import SpacePartition.Proofs.Region.Fitted

/-!
Boolean combinations of half-planes and rectangles with sides along the axes. As long as the lines
on each axis are equal or farther apart than the tolerance, the region that is built of a
combination has the points that the combination has.
-/

namespace SpacePartition

variable {K : Type} [Field K] [LinearOrder K]

-- The roots of the rational numbers that are squares. Figures ask for no other function.
def Exact.Functions.rational : Functions ℚ where
  sqrt
    | .finite x => .finite (Rat.sqrt x)
    | x         => x
  hypot _ _ := .undefined
  sin _     := .undefined
  cos _     := .undefined
  atan2 _ _ := .undefined

theorem Exact.Functions.hasRoots_rational : rational.HasRoots :=
  fun x => congrArg Exact.finite x.sqrt_eq

-- A figure with sides across the axes.
inductive Figure (K : Type)
  | whole
  | empty
  | halfPlane (l : AxisLine K)
  | rectangle (min max : Axis → K)
  | complement (f : Figure K)
  | combine (op : Operation) (f g : Figure K)

namespace Figure

-- The region of a figure, as the constructors and operations of regions make it.
def build (f : Exact.Functions K) (t : K) :
    Figure K → Except (Violation (Exact K)) (Region (plane (Exact K)))
  | whole             => .ok (.whole (.finite t))
  | empty             => .ok (.empty (.finite t))
  | halfPlane l       => .ok (.halfSpace (l.line t) (.finite t))
  | rectangle min max =>
    letI := f.metric
    Region.rectangle (planePoint min) (planePoint max) (.finite t)
  | complement a      => Region.complement <$> a.build f t
  | combine op a b    => do op.apply (← a.build f t) (← b.build f t)

-- Whether a point lies in a figure.
def Has (p : Axis → K) : Figure K → Prop
  | whole             => True
  | empty             => False
  | halfPlane l       => if l.direct then p l.axis ≤ l.place else l.place ≤ p l.axis
  | rectangle min max => ∀ axis, min axis < p axis ∧ p axis < max axis
  | complement a      => ¬a.Has p
  | combine op a b    =>
    match op with
    | .union        => a.Has p ∨ b.Has p
    | .intersection => a.Has p ∧ b.Has p
    | .xor          => ¬(a.Has p ↔ b.Has p)
    | .difference   => a.Has p ∧ ¬b.Has p

-- The places of the lines on each axis. An empty rectangle has no lines.
def places : Figure K → Axis → Set K
  | whole             => fun _ => ∅
  | empty             => fun _ => ∅
  | halfPlane l       => fun axis => {c | axis = l.axis ∧ c = l.place}
  | rectangle min max => fun axis =>
    {c | (∀ axis, min axis < max axis) ∧ (c = min axis ∨ c = max axis)}
  | complement a      => a.places
  | combine _ a b     => fun axis => a.places axis ∪ b.places axis

omit [Field K] in
theorem finite_places (f : Figure K) (axis : Axis) : (f.places axis).Finite := by
  induction f
  case whole             => exact Set.finite_empty
  case empty             => exact Set.finite_empty
  case halfPlane l       => exact (Set.finite_singleton l.place).subset fun _ h => h.2
  case rectangle min max => exact (Set.toFinite {min axis, max axis}).subset fun _ h => h.2
  case complement h      => exact h
  case combine h h'      => exact h.union h'

end Figure

namespace Plane

def outlook (p : Axis → K) : Outlook (plane (Exact K)) :=
  (plane (Exact K)).outlook (planePoint p)

variable {l : AxisLine K} {L : Axis → Set K} {t : K} {p : Axis → K} {ι : Type}

theorem outlook_line : outlook p (l.line t) = Line.outlook (p l.axis) (l.point t) := by
  change (if (l.line t).offset (planePoint p) ≤ 0 then _ else _) = _
  rw [AxisLine.offset_line]
  rfl

-- Every cut of a fitted partition lies on a line through a place of its axis.
theorem cuts_place {C : Set (Axis → K)} {n : Node (plane (Exact K)) ι Bool}
    (hn : (cells L t).Fitted C n) {s : SubLine (Exact K)} (hs : s ∈ n.cuts) :
    ∃ l : AxisLine K, s.hyperplane = l.line t ∧ l.place ∈ L l.axis := by
  have ⟨_, _, l, hf⟩ := hn.exists_spans hs
  exact ⟨l, hf.line, hf.place⟩

theorem check_planePoint {r : Region (plane (Exact K))} (h : r.tolerance = .finite t) :
    r.check (planePoint p) = r.tree.root.check (Exact.finite t) (planePoint p) := by
  have hn : Coordinates.isNaN (P := Vec2 (Exact K)) (planePoint p) = false := by
    simp [planePoint, Coordinates.isNaN, Coordinates.toList, Vec2.toList]
  rw [← h]
  exact if_neg <| Bool.eq_false_iff.mp hn

-- A point that no cut is close to is located by the leaf of its cell.
theorem check_of_far {n : Node (plane (Exact K)) ι Bool} (h : ∀ s ∈ n.cuts, ∃ l : AxisLine K,
    (plane (Exact K)).hyperplane s = l.line t ∧ t ≤ |p l.axis - l.place|) :
    n.check (Exact.finite t) (planePoint p) = .ofInside (n.holds (outlook p)) := by
  refine Node.check_of_clear fun s hs => ?_
  obtain ⟨l, hl, hd⟩ := h s hs
  have ho :
      (plane (Exact K)).offset (l.line t) (planePoint p) =
        (l.point t).offset (.finite (p l.axis)) :=
    AxisLine.offset_line
  rw [hl, ho]
  exact ⟨Line.isNaN_offset, Line.le_abs_offset.mpr hd⟩

variable [IsStrictOrderedRing K]

theorem sees_outlook (hp : ∀ axis, p axis ∉ L axis) : (cells L t).Sees (outlook p) p := by
  intro C s ⟨l, hs⟩
  have hl : (plane (Exact K)).hyperplane s = l.line t := hs.line
  rw [hl, mem_half, outlook_line]
  exact Line.beyond_outlook fun h => hp l.axis (h ▸ hs.place)

theorem fitted_halfPlane (g : Grid L t) (hl : l.place ∈ L l.axis) {tolerance : Exact K} :
    (cells L t).Fitted .univ
      (Region.halfSpace (S := plane (Exact K)) (l.line t) tolerance).tree.root :=
  ⟨⟨l, fills_whole g hl⟩, trivial, trivial⟩

theorem outlook_eq_minus : outlook p (l.line t) = .minus ↔ (Figure.halfPlane l).Has p := by
  rw [outlook_line, AxisLine.point, Line.outlook_eq, Figure.Has]
  cases l.direct <;> simp

theorem holds_halfPlane {tolerance : Exact K} :
    (Region.halfSpace (S := plane (Exact K)) (l.line t) tolerance).tree.root.holds
      (outlook p) = true ↔ (Figure.halfPlane l).Has p := by
  have hc : (Region.halfSpace (S := plane (Exact K)) (l.line t) tolerance).tree.root.holds
      (outlook p) = ((outlook p (l.line t)).pick (Node.leaf (S := plane (Exact K)) 0 (some false))
        (.leaf 1 (some true))).holds (outlook p) :=
    Node.holds_fork
  rw [hc, ← outlook_eq_minus]
  cases outlook p (l.line t) <;> simp [Branch.pick, Node.holds_leaf]

-- Off the lines it does not matter which side they belong to.
theorem outlook_edges {min max : Axis → K} (h : ∀ axis, p axis ≠ min axis ∧ p axis ≠ max axis) :
    (∀ l ∈ Region.edges min max, outlook p (l.line t) = .minus) ↔
      (Figure.rectangle min max).Has p := by
  simp only [outlook_eq_minus, Figure.Has, Region.mem_edges]
  constructor
  case mp =>
    intro hl axis
    have hmin := hl ⟨axis, min axis, false⟩ rfl
    have hmax := hl ⟨axis, max axis, true⟩ rfl
    exact ⟨lt_of_le_of_ne hmin (h axis).1.symm, lt_of_le_of_ne hmax (h axis).2⟩
  case mpr =>
    intro hp l hl
    cases hd : l.direct <;>
      simp only [hd, if_true, if_false, Bool.false_eq_true] at hl ⊢ <;> rw [hl]
    case false => exact (hp l.axis).1.le
    case true  => exact (hp l.axis).2.le

end Plane

namespace Figure

open Plane

variable {L : Axis → Set K} {t : K} {f : Exact.Functions K} {a b : Figure K}

-- Whether a region is fitted to lines across the axes and has the points of a figure off these
-- lines.
structure Shows (L : Axis → Set K) (t : K) (r : Region (plane (Exact K))) (a : Figure K) :
    Prop where
  tolerance : r.tolerance = .finite t
  fitted    : (cells L t).Fitted .univ r.tree.root
  holds {p : Axis → K} : (∀ axis, p axis ∉ L axis) →
    (r.tree.root.holds (outlook p) = true ↔ a.Has p)

theorem Shows.complement {r : Region (plane (Exact K))} (h : Shows L t r a) :
    Shows L t r.complement a.complement where
  tolerance := h.tolerance
  fitted    := Layout.fitted_complement.mpr h.fitted
  holds hp  := by
    have hc : r.complement.tree.root = r.tree.root.complement := rfl
    rw [hc, Node.holds_complement, Bool.not_eq_true', ← Bool.not_eq_true]
    exact (h.holds hp).not

variable [IsStrictOrderedRing K]

theorem Shows.apply (g : Grid L t) (op : Operation) {r s : Region (plane (Exact K))}
    (hr : Shows L t r a) (hs : Shows L t s b) :
    ∃ u, op.apply r s = .ok u ∧ Shows L t u (combine op a b) := by
  have ht : r.tolerance == s.tolerance := by
    rw [hr.tolerance, hs.tolerance]
    exact Exact.finite_beq_self
  have ⟨u, hu, hut, hm⟩ :=
    hr.fitted.apply_ok (cells_separating g) (cells_tight g) hs.fitted ht op
  refine ⟨u, hu, hut.trans hr.tolerance, hm.fitted, fun hp => ?_⟩
  have ha := hr.holds hp
  have hb := hs.holds hp
  rw [hm.holds (sees_outlook hp) trivial]
  cases op <;> simp only [Operation.holds, Has, ← ha, ← hb] <;>
    cases r.tree.root.holds (outlook _) <;> cases s.tree.root.holds (outlook _) <;> decide

theorem build_shows (g : Grid L t) (hf : f.HasRoots) (hL : ∀ axis, a.places axis ⊆ L axis) :
    ∃ r, a.build f t = .ok r ∧ Shows L t r a := by
  induction a
  case whole => exact ⟨_, rfl, rfl, trivial, fun _ => iff_of_true rfl trivial⟩
  case empty => exact ⟨_, rfl, rfl, trivial, fun _ => iff_of_false nofun id⟩
  case halfPlane l =>
    have hl : l.place ∈ L l.axis := hL l.axis ⟨rfl, rfl⟩
    exact ⟨_, rfl, rfl, fitted_halfPlane g hl, fun _ => holds_halfPlane⟩
  case rectangle min max =>
    by_cases h : ∀ axis, min axis < max axis
    case pos =>
      have hl axis : min axis ∈ L axis ∧ max axis ∈ L axis :=
        ⟨hL axis ⟨h, .inl rfl⟩, hL axis ⟨h, .inr rfl⟩⟩
      have ⟨r, hr, ht, hn, hh⟩ := Region.rectangle_ok g hf h hl
      refine ⟨r, hr, ht, hn, fun hp => (hh (sees_outlook hp)).trans <| outlook_edges fun axis => ?_⟩
      exact ⟨fun he => hp axis (he ▸ (hl axis).1), fun he => hp axis (he ▸ (hl axis).2)⟩
    case neg =>
      refine ⟨_, Region.rectangle_of_not h, rfl, trivial, fun _ => iff_of_false nofun fun hp => ?_⟩
      exact h fun axis => (hp axis).1.trans (hp axis).2
  case complement a hi =>
    have ⟨r, hr, hs⟩ := hi hL
    exact ⟨r.complement, by rw [build, hr]; rfl, hs.complement⟩
  case combine op a b ha hb =>
    have ⟨r, hr, hs⟩ := ha fun axis => Set.subset_union_left.trans (hL axis)
    have ⟨r', hr', hs'⟩ := hb fun axis => Set.subset_union_right.trans (hL axis)
    have ⟨u, hu, hs⟩ := hs.apply g op hs'
    exact ⟨u, by rw [build, hr, hr']; exact hu, hs⟩

theorem check_build (hf : f.HasRoots) (ht : 0 < t) (ht' : t ≤ 1)
    (hs : ∀ axis, Line.Spaced (a.places axis) t) :
    ∃ r, a.build f t = .ok r ∧ ∀ p : Axis → K, (∀ axis, ∀ c ∈ a.places axis, t < |p axis - c|) →
      (a.Has p → r.check (planePoint p) = .inside) ∧
        (¬a.Has p → r.check (planePoint p) = .outside) := by
  have g : Grid a.places t := ⟨a.finite_places, hs, ht, ht'⟩
  have ⟨r, hr, h⟩ := build_shows g hf fun _ => subset_rfl
  refine ⟨r, hr, fun p hp => ?_⟩
  have hoff axis : p axis ∉ a.places axis := fun hm => by
    have hd := hp axis _ hm
    rw [sub_self, abs_zero] at hd
    exact hd.not_gt ht
  have hc : r.check (planePoint p) = .ofInside (r.tree.root.holds (outlook p)) := by
    rw [check_planePoint h.tolerance]
    refine check_of_far fun s hs => ?_
    have ⟨l, hl, hm⟩ := cuts_place h.fitted hs
    exact ⟨l, hl, (hp l.axis l.place hm).le⟩
  rw [hc]
  constructor
  case left  => exact fun ha => by rw [(h.holds hoff).mpr ha]; rfl
  case right =>
    intro ha
    rw [Bool.eq_false_iff.mpr <| (h.holds hoff).not.mpr ha]
    rfl

-- Two squares with a common edge, on whose line they are cut off by a half-plane.
theorem check_build_of_common_edge :
    let f : Exact.Functions ℚ := .rational
    let square : Figure ℚ := rectangle (fun _ => 0) (fun _ => 10)
    let next : Figure ℚ := rectangle (fun axis => if axis = .x then 10 else 0)
      (fun axis => if axis = .x then 20 else 10)
    let a : Figure ℚ := combine .difference (combine .union square next)
      (complement (halfPlane ⟨.x, 10, true⟩))
    (f.HasRoots ∧ (0 : ℚ) < 1 ∧ (1 : ℚ) ≤ 1 ∧ ∀ axis, Line.Spaced (a.places axis) 1) ∧
    ∃ r, a.build f 1 = .ok r ∧ r.check (planePoint fun _ => (5 : ℚ)) = .inside ∧
      r.check (planePoint fun axis => if axis = .x then (15 : ℚ) else 5) = .outside := by
  intro f square next a
  have hf : f.HasRoots := Exact.Functions.hasRoots_rational
  have hp axis : a.places axis ⊆ {0, 10, 20} := by
    intro c hc
    cases axis <;> simp [a, square, next, places] at hc ⊢ <;> grind
  have hs axis : Line.Spaced (a.places axis) 1 := by
    intro x hx y hy
    rcases hp axis hx with rfl | rfl | rfl <;> rcases hp axis hy with rfl | rfl | rfl <;> norm_num
  refine ⟨⟨hf, by norm_num, le_rfl, hs⟩, ?_⟩
  have ⟨r, hr, hc⟩ := check_build hf (by norm_num) le_rfl hs
  refine ⟨r, hr, (hc _ fun axis c hc => ?clear_inside).1 ?inside,
    (hc _ fun axis c hc => ?clear_outside).2 ?outside⟩
  case clear_inside  => rcases hp axis hc with rfl | rfl | rfl <;> norm_num
  case inside        => exact ⟨.inl fun _ => by norm_num, by simp [Has]; norm_num⟩
  case clear_outside => cases axis <;> rcases hp _ hc with rfl | rfl | rfl <;> simp <;> norm_num
  case outside       => exact fun h => h.2 <| by simp [Has]; norm_num

end Figure
end SpacePartition
