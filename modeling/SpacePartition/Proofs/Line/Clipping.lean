import SpacePartition.Proofs.Line.Vicinity

/-!
The intervals of any region of the line, wherever its cuts lie. A cut beyond its cell leaves nothing
on its far side, and cells may be single points. What the cells of the inside leaves are joined to
are still intervals in increasing order with gaps between them, which have the points whose leaves
are inside.
-/

namespace SpacePartition

namespace Scalar

variable {R : Type} [Scalar R] {x y : R} {B : Set R}

theorem min_mem (hx : x ∈ B) (hy : y ∈ B) : min x y ∈ B := by
  rw [min]
  split_ifs <;> assumption

theorem max_mem (hx : x ∈ B) (hy : y ∈ B) : max x y ∈ B := by
  rw [max]
  split_ifs <;> assumption

end Scalar

namespace Interval

section Clip

variable {R : Type} [Scalar R]

-- The part of an interval on a side of a place, which may lie outside of it.
def clip (i : Interval R) (x : R) (above : Bool) : Interval R :=
  if above then ⟨Scalar.max x i.lower, i.upper⟩ else ⟨i.lower, Scalar.min x i.upper⟩

-- Whether an interval reaches a place from the far side of it.
def Meets (i : Interval R) (x : R) (above : Bool) : Prop :=
  if above then x ≤ i.upper else i.lower ≤ x

instance (i : Interval R) (x : R) : (above : Bool) → Decidable (i.Meets x above)
  | true  => inferInstanceAs (Decidable (x ≤ i.upper))
  | false => inferInstanceAs (Decidable (i.lower ≤ x))

end Clip

section Bounds

variable {R : Type} [Scalar R] {i : Interval R} {is js : List (Interval R)} {x : R} {above : Bool}

-- Whether the bounds of intervals are among some numbers.
def Within (B : Set R) (is : List (Interval R)) : Prop :=
  ∀ i ∈ is, i.lower ∈ B ∧ i.upper ∈ B

variable {B : Set R}

theorem within_clip (hi : Within B [i]) (hx : x ∈ B) : Within B [i.clip x above] := by
  have ⟨hl, hu⟩ := hi i List.mem_cons_self
  refine List.forall_mem_singleton.mpr ?_
  cases above
  case false => exact ⟨hl, Scalar.min_mem hx hu⟩
  case true  => exact ⟨Scalar.max_mem hx hl, hu⟩

theorem within_joinFrom (h : Within B (i :: js)) : Within B (joinFrom i js) := by
  fun_induction joinFrom i js
  case case1 => exact h
  case case2 i j js _ ih =>
    obtain ⟨hi, hj, hjs⟩ := List.forall_mem_cons.mp h |>.imp_right List.forall_mem_cons.mp
    exact ih <| List.forall_mem_cons.mpr ⟨⟨hi.1, Scalar.max_mem hi.2 hj.2⟩, hjs⟩
  case case3 ih =>
    obtain ⟨hi, hjs⟩ := List.forall_mem_cons.mp h
    exact List.forall_mem_cons.mpr ⟨hi, ih hjs⟩

-- Joining makes no new bounds.
theorem within_normalize (h : Within B is) : Within B (normalize is) := by
  have hm := List.mergeSort_perm is fun i j => Scalar.totalLE i.lower j.lower
  rw [normalize]
  generalize is.mergeSort _ = js at hm
  cases js
  case nil  => exact List.forall_mem_nil _
  case cons => exact within_joinFrom fun i hi => h i <| hm.mem_iff.mp hi

end Bounds

variable {K : Type} [Field K] [LinearOrder K] {i j : Interval (Exact K)} {c : K} {above : Bool}
variable {is : List (Interval (Exact K))}

theorem clip_le (hi : i.lower ≤ i.upper) (h : i.Meets (.finite c) above) :
    (i.clip (.finite c) above).lower ≤ (i.clip (.finite c) above).upper := by
  have hd := Exact.defined_of_le hi
  cases above
  case false => exact (Exact.le_min_iff (by simp) hd.2).mpr ⟨h, hi⟩
  case true  => exact (Exact.max_le_iff (by simp) hd.1).mpr ⟨h, hi⟩

theorem points_clip (hi : i.lower ≤ i.upper) : (i.clip (.finite c) above).points =
    i.points ∩ if above then Set.Ici c else Set.Iic c := by
  have hd := Exact.defined_of_le hi
  ext x
  cases above
  case false =>
    change _ ≤ Exact.finite x ∧ Exact.finite x ≤ Scalar.min (.finite c) i.upper ↔
      (i.lower ≤ .finite x ∧ .finite x ≤ i.upper) ∧ x ≤ c
    rw [Exact.le_min_iff (by simp) hd.2, Exact.finite_le]
    tauto
  case true =>
    change Scalar.max (.finite c) i.lower ≤ Exact.finite x ∧ Exact.finite x ≤ _ ↔
      (i.lower ≤ .finite x ∧ .finite x ≤ i.upper) ∧ c ≤ x
    rw [Exact.max_le_iff (by simp) hd.1, Exact.finite_le]
    tauto

-- An interval has no points on a side of a place that it does not meet from there.
theorem meets_of_mem {x : K} (hx : x ∈ i.points) (h : if above then c ≤ x else x ≤ c) :
    i.Meets (.finite c) above := by
  cases above
  case false => exact Exact.le_trans hx.1 (Exact.finite_le.mpr h)
  case true  => exact Exact.le_trans (Exact.finite_le.mpr h) hx.2

-- A point of a cell that is not at a cut is in the share of the side that it is on.
theorem mem_clip_of_ne {x : K} (hi : i.lower ≤ i.upper) (hx : x ∈ i.points) (hc : x ≠ c) :
    i.Meets (.finite c) (decide (c < x)) ∧ x ∈ (i.clip (.finite c) (decide (c < x))).points := by
  have h : if decide (c < x) = true then c ≤ x else x ≤ c := by
    rcases hc.lt_or_gt with h | h
    case inl => rw [decide_eq_false h.not_gt]; exact h.le
    case inr => rw [decide_eq_true h]; exact h.le
  refine ⟨meets_of_mem hx h, ?_⟩
  rw [points_clip hi]
  refine ⟨hx, ?_⟩
  cases hd : decide (c < x) <;> simpa [hd] using h

theorem Ordered.head_le (h : Ordered (i :: is)) : ∀ j ∈ i :: is, i.lower ≤ j.lower := by
  have hi := h.le i List.mem_cons_self
  refine List.forall_mem_cons.mpr ⟨.inr ⟨rfl, (Exact.defined_of_le hi).1⟩, fun j hj => ?_⟩
  exact .inl <| Exact.lt_of_le_of_lt hi <| (List.pairwise_cons.mp h.gaps).1 j hj

theorem Ordered.le_last (h : Ordered (is ++ [i])) : ∀ j ∈ is ++ [i], j.upper ≤ i.upper := by
  have hi := h.le i List.mem_concat_self
  refine List.forall_mem_append.mpr ⟨fun j hj => ?init, List.forall_mem_singleton.mpr ?last⟩
  case init =>
    have hg := (List.pairwise_append.mp h.gaps).2.2 j hj i List.mem_cons_self
    exact .inl <| Exact.lt_of_lt_of_le hg hi
  case last => exact .inr ⟨rfl, (Exact.defined_of_le hi).2⟩

theorem Ordered.lower_lt (h : Ordered is) : is.Pairwise (·.lower < ·.lower) :=
  h.gaps.imp_of_mem fun hi _ hg => Exact.lt_of_le_of_lt (h.le _ hi) hg

end Interval

-- Each side of a cut has its share of the cell, if it has one.
theorem Node.insideCells_fork {R ι : Type} [Scalar R] {i : ι} {a : Option Bool}
    {cut : OrientedPoint R} {plus minus : Node (line R) ι Bool} {cell : Interval R} :
    let side (above : Bool) : List (Interval R) :=
      if cell.Meets cut.location above then
        ((cut.toward above).pick plus minus).insideCells (cell.clip cut.location above)
      else []
    (fork (S := line R) i a cut plus minus).insideCells cell = side false ++ side true := by
  obtain ⟨_, _ | _, _⟩ := cut <;> rfl

theorem Node.mem_insideCells_fork {R ι : Type} [Scalar R] {i : ι} {a : Option Bool}
    {cut : OrientedPoint R} {plus minus : Node (line R) ι Bool} {cell j : Interval R} :
    j ∈ (fork (S := line R) i a cut plus minus).insideCells cell ↔ ∃ above,
      cell.Meets cut.location above ∧
        j ∈ ((cut.toward above).pick plus minus).insideCells (cell.clip cut.location above) := by
  simp only [insideCells_fork, List.mem_append, List.mem_ite_nil_right, Bool.exists_bool]

namespace Line

section Within

variable {R ι : Type} [Scalar R] {B : Set R} {n : Node (line R) ι Bool} {cell : Interval R}

theorem within_insideCells (hc : Interval.Within B [cell])
    (hn : ∀ s ∈ n.cuts, OrientedPoint.location s ∈ B) : Interval.Within B (n.insideCells cell) := by
  induction n generalizing cell
  case leaf i a =>
    rw [Node.insideCells]
    split
    case isTrue  => exact hc
    case isFalse => exact List.forall_mem_nil _
  case fork cut plus minus hp hm =>
    obtain ⟨hx, np, nm⟩ := Node.forall_cuts_fork.mp hn
    intro j hj
    obtain ⟨above, -, hj⟩ := Node.mem_insideCells_fork.mp hj
    have hc : Interval.Within B [cell.clip cut.location above] := Interval.within_clip hc hx
    cases hb : OrientedPoint.toward cut above <;> rw [hb] at hj
    case plus  => exact hp hc np j hj
    case minus => exact hm hc nm j hj

end Within

variable {K : Type} [Field K] [LinearOrder K] {ι : Type} {cell : Interval (Exact K)}
variable {n : Node (line (Exact K)) ι Bool} {c q : K}

-- Whether the inside cells of a node lie in a cell and have the points of it whose leaves are
-- inside.
structure Clips (cell : Interval (Exact K)) (n : Node (line (Exact K)) ι Bool) : Prop where
  le      : ∀ j ∈ n.insideCells cell, j.lower ≤ j.upper
  within  : Interval.union (n.insideCells cell) ⊆ cell.points
  mem_iff : ∀ q ∈ cell.points, (∀ s ∈ n.cuts, s.location ≠ .finite q) →
    (q ∈ Interval.union (n.insideCells cell) ↔ n.holds (outlook q) = true)

theorem clips_leaf {i : ι} {a : Option Bool} (hc : cell.lower ≤ cell.upper) :
    Clips cell (.leaf i a) := by
  have hi : (Node.leaf (S := line (Exact K)) i a).insideCells cell =
    if a == some true then [cell] else [] := rfl
  have hh (look) : (Node.leaf (S := line (Exact K)) i a).holds look = (a == some true) := rfl
  cases h : a == some true <;> simp only [h] at hi hh
  case true  =>
    exact ⟨by simpa [hi] using hc, by simp [hi], fun q hq _ => by simpa [hi, hh] using hq⟩
  case false => exact ⟨by simp [hi], by simp [hi], by simp [hi, hh]⟩

section Fork

variable {i : ι} {a : Option Bool} {dir : Bool} {tol : Exact K}
variable {plus minus : Node (line (Exact K)) ι Bool}
variable (hc : cell.lower ≤ cell.upper)
variable (side : ∀ above, cell.Meets (.finite c) above → Clips (cell.clip (.finite c) above)
  ((OrientedPoint.toward (⟨.finite c, dir, tol⟩ : OrientedPoint (Exact K)) above).pick plus minus))

include hc side

-- The inside cells that have a point beside a cut are those of the side that it is on.
theorem Clips.mem_union_fork (hq : q ∈ cell.points) (hqc : q ≠ c) :
    let cut : OrientedPoint (Exact K) := ⟨.finite c, dir, tol⟩
    q ∈ Interval.union ((Node.fork i a cut plus minus).insideCells cell) ↔
      q ∈ Interval.union (((cut.toward (decide (c < q))).pick plus minus).insideCells
        (cell.clip (.finite c) (decide (c < q)))) := by
  intro cut
  constructor
  case mp =>
    rintro ⟨j, hj, hqj⟩
    obtain ⟨above, hm, hj⟩ := Node.mem_insideCells_fork.mp hj
    have hq := (side above hm).within ⟨j, hj, hqj⟩
    rw [Interval.points_clip hc] at hq
    have he : above = decide (c < q) := by
      cases above
      case false => exact (decide_eq_false (not_lt.mpr hq.2)).symm
      case true  => exact (decide_eq_true (lt_of_le_of_ne hq.2 hqc.symm)).symm
    exact ⟨j, he ▸ hj, hqj⟩
  case mpr =>
    have hm := (Interval.mem_clip_of_ne hc hq hqc).1
    exact fun ⟨j, hj, hqj⟩ => ⟨j, Node.mem_insideCells_fork.mpr ⟨_, hm, hj⟩, hqj⟩

theorem Clips.fork [IsStrictOrderedRing K] :
    Clips cell (.fork i a ⟨.finite c, dir, tol⟩ plus minus) := by
  constructor
  case le =>
    intro j hj
    have ⟨above, hm, hj⟩ := Node.mem_insideCells_fork.mp hj
    exact (side above hm).le j hj
  case within =>
    rintro q ⟨j, hj, hq⟩
    have ⟨above, hm, hj⟩ := Node.mem_insideCells_fork.mp hj
    have hq := (side above hm).within ⟨j, hj, hq⟩
    rw [Interval.points_clip hc] at hq
    exact hq.1
  case mem_iff =>
    intro q hq hqn
    have hqc : q ≠ c := fun h => hqn _ List.mem_cons_self (h ▸ rfl)
    have hqs (b : Branch) : ∀ s ∈ (b.pick plus minus).cuts, s.location ≠ .finite q := by
      refine fun s hs => hqn s <| List.mem_cons_of_mem _ <| List.mem_append.mpr ?_
      cases b
      case plus  => exact .inl hs
      case minus => exact .inr hs
    have ⟨hm, hqp⟩ := Interval.mem_clip_of_ne hc hq hqc
    rw [Node.holds_fork, outlook_toward hqc]
    exact (mem_union_fork hc side hq hqc).trans <| (side _ hm).mem_iff q hqp (hqs _)

end Fork

theorem clips [IsStrictOrderedRing K] (hc : cell.lower ≤ cell.upper)
    (hn : ∀ s ∈ n.cuts, ∃ c, s.location = .finite c) :
    Clips cell n := by
  induction n generalizing cell
  case leaf => exact clips_leaf hc
  case fork cut plus minus hp hm =>
    obtain ⟨⟨c, hl⟩, np, nm⟩ := Node.forall_cuts_fork.mp hn
    obtain ⟨location, dir, tol⟩ := cut
    cases hl
    refine .fork hc fun above h => ?_
    have hc := Interval.clip_le hc h
    cases OrientedPoint.toward ⟨.finite c, dir, tol⟩ above
    case plus  => exact hp hc np
    case minus => exact hm hc nm

end Line

namespace Region

open Line

variable {K : Type} [Field K] [LinearOrder K] {r : Region (line (Exact K))}

-- The extent of a region is that of its intervals.
theorem extent_intervals (h : Interval.Ordered r.intervals) :
    r.intervals = [] ∧ r.inf = .infinite true ∧ r.sup = .infinite false ∨
      (∃ i ∈ r.intervals, i.lower = r.inf) ∧ (∃ i ∈ r.intervals, i.upper = r.sup) ∧
      ∀ i ∈ r.intervals, r.inf ≤ i.lower ∧ i.upper ≤ r.sup := by
  rw [inf, sup]
  rcases hr : r.intervals with _ | ⟨i, is⟩
  case nil => exact .inl ⟨rfl, rfl, rfl⟩
  case cons =>
    obtain ⟨js, j, hj⟩ : ∃ js j, i :: is = js ++ [j] :=
      ⟨_, _, (List.dropLast_append_getLast (List.cons_ne_nil i is)).symm⟩
    have hl : ∀ k ∈ i :: is, i.lower ≤ k.lower := (hr ▸ h).head_le
    have hu : ∀ k ∈ js ++ [j], k.upper ≤ j.upper := (hj ▸ hr ▸ h).le_last
    have he : (i :: is).getLast? = some j := by rw [hj, List.getLast?_concat]
    rw [he]
    exact .inr ⟨⟨i, List.mem_cons_self, rfl⟩, ⟨j, hj ▸ List.mem_concat_self, rfl⟩,
      fun k hk => ⟨hl k hk, hu k (hj ▸ hk)⟩⟩

variable [IsStrictOrderedRing K]

theorem clips (hr : ∀ s ∈ r.tree.root.cuts, ∃ c : K, s.location = .finite c) :
    Clips ⟨.infinite false, .infinite true⟩ r.tree.root :=
  Line.clips (by simp [Exact.le_iff]) hr

-- A point off the cuts lies in the intervals of a region if its leaf is inside.
theorem mem_union_intervals (hr : ∀ s ∈ r.tree.root.cuts, ∃ c : K, s.location = .finite c) {x : K}
    (hx : x ∉ r.locations) :
    x ∈ Interval.union r.intervals ↔ r.tree.root.holds (outlook x) = true := by
  have hu : Interval.union r.intervals = _ := (Interval.ordered_normalize (clips hr).le).2
  rw [hu]
  exact (clips hr).mem_iff x (by simp [Interval.points, Exact.le_iff]) fun s hs hl => hx ⟨s, hs, hl⟩

-- The intervals of a region are in normal form, whatever its tree is, though some may be single
-- points.
theorem intervals_normal (hr : ∀ s ∈ r.tree.root.cuts, ∃ c : K, s.location = .finite c) :
    r.intervals.Pairwise (·.lower < ·.lower) ∧ (∀ i ∈ r.intervals, i.lower ≤ i.upper) ∧
    r.intervals.Pairwise (·.upper < ·.lower) ∧ Interval.ends r.intervals ⊆ r.locations ∧
    (∀ x ∉ r.locations, x ∈ Interval.union r.intervals ↔ r.covers (Exact.finite x) = true) ∧
    (r.intervals = [] ∧ r.inf = .infinite true ∧ r.sup = .infinite false ∨
      (∃ i ∈ r.intervals, i.lower = r.inf) ∧ (∃ i ∈ r.intervals, i.upper = r.sup) ∧
      ∀ i ∈ r.intervals, r.inf ≤ i.lower ∧ i.upper ≤ r.sup) := by
  have ho : Interval.Ordered r.intervals := (Interval.ordered_normalize (clips hr).le).1
  refine ⟨ho.lower_lt, ho.le, ho.gaps, ?ends, fun x hx => ?points, extent_intervals ho⟩
  case ends =>
    let B : Set (Exact K) := {y | ∀ x, y = .finite x → x ∈ r.locations}
    have hB : Interval.Within B r.intervals := by
      refine Interval.within_normalize <| within_insideCells ?_ fun s hs x hx => ⟨s, hs, hx⟩
      exact List.forall_mem_singleton.mpr ⟨nofun, nofun⟩
    rintro x ⟨i, hi, hx⟩
    exact hx.elim ((hB i hi).1 x) ((hB i hi).2 x)
  case points => rw [mem_union_intervals hr hx, covers_finite]

-- A leaf between two cuts at one place is a single point, and one beyond its cell is nothing.
theorem intervals_normal_of_single_point :
    let inside : Tree (line (Exact ℚ)) Bool := .leaf (some true)
    let outside : Tree (line (Exact ℚ)) Bool := .leaf none
    let cut (x : ℚ) : OrientedPoint (Exact ℚ) := ⟨.finite x, true, .finite 1⟩
    let r : Region (line (Exact ℚ)) := ⟨.ofParts (cut 3) (.ofParts (cut 3) outside inside none)
      (.ofParts (cut 8) inside outside none) none, .finite 1⟩
    (∀ s ∈ r.tree.root.cuts, ∃ c : ℚ, s.location = .finite c) ∧
    (∃ i ∈ r.intervals, i.lower = .finite 3) ∧
    (∀ i ∈ r.intervals, i.lower ≤ i.upper ∧ .finite 3 ≤ i.lower ∧ i.upper ≤ .finite 3) ∧
    10 ∉ Interval.union r.intervals := by
  intro inside outside cut r
  have hr : ∀ s ∈ r.tree.root.cuts, ∃ c : ℚ, s.location = .finite c := by
    rintro s (- | ⟨_, - | ⟨_, - | ⟨_, ⟨⟩⟩⟩⟩) <;> exact ⟨_, rfl⟩
  have hl : r.inf = .finite 3 := by decide +kernel
  have hu : r.sup = .finite 3 := by decide +kernel
  obtain ⟨-, le, -, -, mem, extent⟩ := intervals_normal hr
  rw [hl, hu] at extent
  obtain ⟨-, h, -⟩ | ⟨h, -, h'⟩ := extent
  case inl => cases h
  case inr =>
    refine ⟨hr, h, fun i hi => ⟨le i hi, h' i hi⟩, fun hm => ?_⟩
    have hx : (10 : ℚ) ∉ r.locations := by
      rintro ⟨s, - | ⟨_, - | ⟨_, - | ⟨_, ⟨⟩⟩⟩⟩, hx⟩ <;> exact absurd hx (by decide +kernel)
    exact absurd ((mem 10 hx).mp hm) (by decide +kernel)

end Region
end SpacePartition
