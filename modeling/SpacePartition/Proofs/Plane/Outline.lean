import Mathlib.Data.List.Destutter
import Mathlib.Data.List.DropRight
import Mathlib.Data.Set.Card
import SpacePartition.Plane.Polygon
import SpacePartition.Proofs.Plane.Figures
import SpacePartition.Proofs.Region.Flow
import SpacePartition.Proofs.Region.Reunion

/-!
Closed outlines. What is left of an outline without repeated vertices is a loop of edges between
different points. It has as many of them as the outline has sides between different points, which
may be more than it has different vertices: an outline can go back and forth.
-/

namespace SpacePartition

namespace Outline

section Loop

variable {P : Type} [DecidableEq P] {p q x : P} {ps vs : List P}

-- The sides of a closed outline, those between equal vertices too.
def around : List P → List (P × P)
  | []      => []
  | p :: ps => (p :: ps).zip (ps ++ [p])

-- An outline without vertices that repeat the one before, around the end too.
def loop (vs : List P) : List P :=
  match vs.destutter (· ≠ ·) with
  | []      => []
  | p :: ps => p :: ps.rdropWhile (p = ·)

theorem exists_destutter' (p : P) (ps : List P) : ∃ qs, ps.destutter' (· ≠ ·) p = p :: qs := by
  induction ps
  case nil => exact ⟨[], rfl⟩
  case cons q ps hi =>
    by_cases h : p = q
    case pos => rwa [List.destutter'_cons_neg ps (not_not.mpr h)]
    case neg => exact ⟨_, List.destutter'_cons_pos ps h⟩

theorem mem_destutter' : x ∈ ps.destutter' (· ≠ ·) p ↔ x ∈ p :: ps := by
  induction ps generalizing p
  case nil => rfl
  case cons q ps hi =>
    by_cases h : p = q
    case pos => subst h; simp [List.destutter'_cons_neg, hi]
    case neg => simp [List.destutter'_cons_pos, h, hi]

-- The end of a path counts unless the path is there already.
theorem destutter'_concat (p x : P) (ps : List P) : (ps ++ [x]).destutter' (· ≠ ·) p =
    ps.destutter' (· ≠ ·) p ++ if x ∈ (ps.destutter' (· ≠ ·) p).getLast? then [] else [x] := by
  induction ps generalizing p
  case nil => by_cases h : p = x <;> simp [h]
  case cons q ps hi =>
    by_cases h : p = q
    case pos =>
      rw [List.cons_append, List.destutter'_cons_neg _ (not_not.mpr h),
        List.destutter'_cons_neg _ (not_not.mpr h), hi]
    case neg =>
      obtain ⟨qs, hq⟩ := exists_destutter' q ps
      rw [List.cons_append, List.destutter'_cons_pos _ h, List.destutter'_cons_pos _ h, hi, hq,
        List.getLast?_cons_cons]
      rfl

theorem countP_zip_concat (p x : P) (ps : List P) :
    (((p :: ps).zip (ps ++ [x])).countP fun e => e.1 ≠ e.2) + 1 =
      ((ps ++ [x]).destutter' (· ≠ ·) p).length := by
  induction ps generalizing p
  case nil => by_cases h : p = x <;> simp [h]
  case cons q ps hi =>
    rw [List.cons_append, List.zip_cons_cons, List.countP_cons]
    by_cases h : p = q
    case pos => subst h; simpa using hi p
    case neg => simpa [h, add_right_comm] using hi q

-- The closed path through a loop is the closed path through the outline, without repetitions.
theorem loop_cases (p : P) (ps : List P) :
    (loop (p :: ps) = [p] ∧ (ps ++ [p]).destutter' (· ≠ ·) p = [p]) ∨
    ∃ i, i ≠ [] ∧ loop (p :: ps) = p :: i ∧
      (ps ++ [p]).destutter' (· ≠ ·) p = p :: (i ++ [p]) := by
  obtain ⟨qs, hq⟩ := exists_destutter' p ps
  have hl : loop (p :: ps) = p :: qs.rdropWhile (p = ·) := by
    rw [loop, List.destutter_cons', hq]
  have hc : (p :: qs).IsChain (· ≠ ·) := hq ▸ List.isChain_destutter' _ ps p
  rw [hl, destutter'_concat, hq]
  obtain rfl | ⟨i, x, rfl⟩ := List.eq_nil_or_concat' qs
  case inl => exact .inl ⟨rfl, by simp⟩
  case inr =>
    rw [← List.cons_append, List.getLast?_concat]
    by_cases hx : p = x
    case neg =>
      refine .inr ⟨i ++ [x], by simp, ?_, by simp [Ne.symm hx]⟩
      rw [List.rdropWhile_concat_neg _ _ _ (by simpa using hx)]
    case pos =>
      subst hx
      rw [List.rdropWhile_concat_pos _ _ _ (by simp)]
      obtain rfl | ⟨j, y, rfl⟩ := List.eq_nil_or_concat' i
      case inl => simp at hc
      case inr =>
        have hy : p ≠ y := by
          rw [← List.cons_append, List.isChain_append] at hc
          exact (hc.2.2 y (by rw [← List.cons_append, List.getLast?_concat]; rfl) p rfl).symm
        refine .inr ⟨j ++ [y], by simp, ?_, by simp⟩
        rw [List.rdropWhile_concat_neg _ _ _ (by simpa using hy)]

omit [DecidableEq P] in
theorem mem_closed : x ∈ p :: (ps ++ [p]) ↔ x ∈ p :: ps := by
  rw [← List.cons_append, List.mem_append, List.mem_singleton]
  exact or_iff_left_of_imp fun h => h ▸ List.mem_cons_self

theorem mem_loop : x ∈ loop vs ↔ x ∈ vs := by
  cases vs
  case nil => rfl
  case cons p ps =>
    have hm : x ∈ (ps ++ [p]).destutter' (· ≠ ·) p ↔ x ∈ p :: ps := mem_destutter'.trans mem_closed
    rw [← hm]
    obtain ⟨hl, hd⟩ | ⟨i, -, hl, hd⟩ := loop_cases p ps
    case inl => rw [hl, hd]
    case inr => rw [hl, hd, mem_closed]

theorem ne_of_mem_around_loop (h : 2 ≤ (loop vs).length) :
    ∀ e ∈ around (loop vs), e.1 ≠ e.2 := by
  cases vs
  case nil => exact nofun
  case cons p ps =>
    obtain ⟨hl, -⟩ | ⟨i, -, hl, hd⟩ := loop_cases p ps
    case inl => rw [hl, List.length_singleton] at h; omega
    case inr =>
      have hc : (p :: (i ++ [p])).IsChain (· ≠ ·) := hd ▸ List.isChain_destutter' _ _ p
      rw [List.isChain_cons_iff_forall₂, List.dropLast_concat, List.forall₂_iff_zip] at hc
      rw [hl]
      exact fun e he => (hc.resolve_left (by simp)).2 he

-- An outline has a side between different points for each vertex of its loop, unless all its
-- vertices are equal.
theorem countP_around : (around vs).countP (fun e => e.1 ≠ e.2) = (loop vs).length ∨
    (around vs).countP (fun e => e.1 ≠ e.2) = 0 ∧ (loop vs).length ≤ 1 := by
  cases vs
  case nil => exact .inl rfl
  case cons p ps =>
    have hs := countP_zip_concat p p ps
    obtain ⟨hl, hd⟩ | ⟨i, -, hl, hd⟩ := loop_cases p ps
    case inl =>
      rw [hd] at hs
      exact .inr ⟨Nat.succ.inj hs, by rw [hl]; rfl⟩
    case inr =>
      rw [hd] at hs
      exact .inl <| (Nat.succ.inj hs).trans (by rw [hl]; simp)

theorem ncard_of_short (h : (loop vs).length < 3) : {p | p ∈ vs}.ncard = (loop vs).length := by
  have hv : {p | p ∈ vs} = {p | p ∈ loop vs} := Set.ext fun _ => mem_loop.symm
  have hn : 2 ≤ (loop vs).length → ∀ e ∈ around (loop vs), e.1 ≠ e.2 := ne_of_mem_around_loop
  rw [hv]
  match hl : loop vs with
  | []      => simp
  | [p]     => simp
  | [p, q]  =>
    rw [hl] at hn
    have hpq : p ≠ q := hn (by simp) (p, q) (by simp [around])
    have hs : {x | x ∈ [p, q]} = {p, q} := Set.ext fun x => by simp
    rw [hs, Set.ncard_pair hpq, List.length_cons, List.length_singleton]
  | p :: q :: r :: ps => rw [hl] at h; simp at h; omega

theorem ncard_le_loop : {p | p ∈ vs}.ncard ≤ (loop vs).length := by
  have hv : {p | p ∈ vs} = ((loop vs).toFinset : Set P) :=
    Set.ext fun x => by simp [mem_loop]
  rw [hv, Set.ncard_coe_finset]
  exact List.toFinset_card_le _

end Loop

section Vertices

variable {R : Type} [Metric R] {P : Type} [DecidableEq P] {place : P → Vec2 R}

-- The sides of a closed outline between different vertices.
def sides (vs : List (Vec2 R)) : Nat :=
  (edges vs).countP fun e => !(e.1 == e.2)

omit [Metric R] [DecidableEq P] in
theorem edges_map (vs : List P) :
    edges (vs.map place) = (around vs).map (Prod.map place place) := by
  cases vs
  case nil => rfl
  case cons p ps =>
    rw [List.map_cons, edges, around, ← List.zip_map, List.map_cons, List.map_append]
    rfl

-- Different points have to be at different places.
variable (hp : ∀ p q, (place p == place q) = decide (p = q))

include hp

theorem sides_map (vs : List P) :
    sides (vs.map place) = (around vs).countP fun e => e.1 ≠ e.2 := by
  rw [sides, edges_map, List.countP_map]
  refine List.countP_congr fun e _ => ?_
  simp [hp]

theorem dropRepeatsOf_map (p : P) (ps : List P) :
    place p :: dropRepeatsOf (place p) (ps.map place) = (ps.destutter' (· ≠ ·) p).map place := by
  induction ps generalizing p
  case nil => rfl
  case cons q qs hi =>
    rw [List.map_cons, dropRepeatsOf, hp]
    by_cases h : p = q
    case pos => simpa [h] using hi q
    case neg => simpa [h] using hi q

theorem openEnd_dropRepeats (vs : List P) :
    openEnd (dropRepeats (vs.map place)) = (loop vs).map place := by
  cases vs
  case nil => rfl
  case cons p ps =>
    obtain ⟨qs, hq⟩ := exists_destutter' p ps
    rw [List.map_cons, dropRepeats, dropRepeatsOf_map hp, loop, List.destutter_cons', hq,
      List.map_cons, openEnd, List.map_cons, List.rdropWhile, ← List.map_reverse,
      List.dropWhile_map, List.map_reverse]
    congr 4
    exact funext fun q => hp p q

end Vertices

end Outline

-- Whether no number but zero has the root zero.
def Exact.Functions.HasNonzeroRoots {K : Type} [Zero K] [LT K] (f : Functions K) : Prop :=
  ∀ x : K, 0 < x → f.sqrt (finite x) ≠ finite 0

theorem Exact.Functions.hasNonzeroRoots_rational : rational.HasNonzeroRoots := by
  intro x hx h
  have hn : 0 < Nat.sqrt x.num.toNat := Nat.sqrt_pos.mpr <| by simpa using hx
  have hd : Nat.sqrt x.den ≠ 0 := (Nat.sqrt_pos.mpr x.den_pos).ne'
  have h : mkRat (Int.sqrt x.num) (Nat.sqrt x.den) = 0 := Exact.finite.inj h
  rw [Rat.mkRat_eq_zero hd] at h
  exact hn.ne' <| Int.ofNat.inj h

namespace Region

open Outline

section Vertices

variable {R : Type} [Metric R] {P : Type} [DecidableEq P] {place : P → Vec2 R} {vs : List P}
variable {tol : R} (hp : ∀ p q, (place p == place q) = decide (p = q))

include hp

theorem polygon_of_short (h : (loop vs).length < 3) :
    polygon (vs.map place) tol = .error (.geometry (.tooFewVertices 0 (loop vs).length 3)) := by
  rw [polygon, openEnd_dropRepeats hp, List.length_map]
  exact if_pos h

-- An outline that is long enough makes a region, and all cuts of the region are made at its
-- tolerance.
theorem exists_polygon
    (hs : ∀ p q, p ≠ q → ∃ l, OrientedLine.throughPoints (place p) (place q) tol = .ok l)
    (h : 3 ≤ (loop vs).length) : ∃ r, polygon (vs.map place) tol = .ok r ∧ r.tolerance = tol ∧
      ∀ s ∈ r.tree.root.cuts, s.remaining.tolerance = tol := by
  have segment : ∀ e ∈ Outline.edges ((loop vs).map place), ∃ s : SubLine R,
      (liftM (OrientedLine.segment e.1 e.2 tol) : Except (Fault R) (SubLine R)) = .ok s ∧
      s.hyperplane.tolerance = tol := by
    rw [edges_map]
    refine List.forall_mem_map.mpr fun e he => ?_
    obtain ⟨l, hl⟩ := hs _ _ <| ne_of_mem_around_loop (by omega) e he
    have ht : l.tolerance = tol := by
      rw [OrientedLine.throughPoints] at hl
      split at hl <;> cases hl
      rfl
    exact ⟨_, by rw [OrientedLine.segment, Prod.map_fst, Prod.map_snd, hl]; rfl, ht⟩
  obtain ⟨fs, hfs, ht⟩ := Except.exists_mapM segment
  obtain ⟨r, hr, hrt, hc⟩ : ∃ r, ofBoundary (S := plane R) fs tol = .ok r ∧ r.tolerance = tol ∧
      ∀ s ∈ r.tree.root.cuts, (Embedded.remaining s).tolerance = tol :=
    exists_ofBoundary (OrientedLine.embedding R).grounded
      (fun hs hp => (Embedded.tolerance_split hp).trans hs) ht
      (fun f _ => (SubLine.measures f).size) tol
  refine ⟨r, ?_, hrt, hc⟩
  rw [polygon, openEnd_dropRepeats hp, List.length_map]
  refine (if_neg (by omega)).trans ?_
  rw [show List.mapM _ _ = _ from hfs]
  exact congrArg (Except.mapError Fault.violation) hr

end Vertices

section Exact

variable {K : Type} [Field K] [LinearOrder K] [IsStrictOrderedRing K] {f : Exact.Functions K}
variable {p q : Axis → K} {vertices : List (Axis → K)} {tolerance : Exact K}

omit [IsStrictOrderedRing K] in
theorem beq_planePoint (p q : Axis → K) [Decidable (p = q)] :
    letI := f.metric
    (planePoint p == planePoint q) = decide (p = q) := by
  have finite (x y : K) :
      (Scalar.toBEq.beq (Exact.finite x) (Exact.finite y)) = decide (x = y) := by
    change decide (Exact.finite x = .finite y ∧ _) = _
    simp
  have hx : p = q ↔ p .x = q .x ∧ p .y = q .y :=
    ⟨fun h => h ▸ ⟨rfl, rfl⟩, fun h => funext fun | .x => h.1 | .y => h.2⟩
  change (Scalar.toBEq.beq _ _ && Scalar.toBEq.beq _ _) = _
  simp only [finite, hx, Bool.decide_and]

theorem exists_throughPoints (hf : f.HasNonzeroRoots) (h : p ≠ q) :
    letI := f.metric
    ∃ l, OrientedLine.throughPoints (planePoint p) (planePoint q) tolerance = .ok l := by
  let _ := f.metric
  obtain ⟨d, hd, hn⟩ : ∃ d, 0 < d ∧
      Metric.norm ((planePoint q).sub (planePoint p)).toList = f.sqrt (.finite d) := by
    refine ⟨(q .x - p .x) * (q .x - p .x) + (q .y - p .y) * (q .y - p .y), ?positive, ?norm⟩
    case positive =>
      refine (add_nonneg (mul_self_nonneg _) (mul_self_nonneg _)).lt_of_ne' fun h0 => h ?_
      obtain ⟨hx, hy⟩ := (mul_self_add_mul_self_eq_zero ..).mp h0
      exact funext fun | .x => (sub_eq_zero.mp hx).symm | .y => (sub_eq_zero.mp hy).symm
    case norm =>
      rw [Vec2.sub, planePoint, planePoint, Exact.finite_sub, Exact.finite_sub]
      rfl
  have hb : (Scalar.toBEq.beq (f.sqrt (.finite d)) 0) = false :=
    decide_eq_false fun h => hf d hd h.1
  rw [OrientedLine.throughPoints, hn]
  exact ⟨_, if_neg (Bool.eq_false_iff.mp hb)⟩

-- An outline is refused for having fewer than three sides between different vertices, and the error
-- tells how many different vertices it has. Three different vertices are enough, but two are so too
-- where the outline goes back and forth between them.
theorem polygon_of_sides (hf : f.HasNonzeroRoots) (vertices : List (Axis → K))
    (tolerance : Exact K) :
    letI := f.metric
    let outline := vertices.map planePoint
    let distinct := {p | p ∈ vertices}.ncard
    (sides outline < 3 →
      polygon outline tolerance = .error (.geometry (.tooFewVertices 0 distinct 3))) ∧
    (3 ≤ sides outline → ∃ r, polygon outline tolerance = .ok r) ∧
    (3 ≤ distinct → 3 ≤ sides outline) := by
  classical
  let _ := f.metric
  have hp (p q : Axis → K) : (planePoint p == planePoint q) = decide (p = q) := beq_planePoint p q
  have hs := sides_map hp vertices
  have hl := @countP_around _ _ vertices
  have hn : {p | p ∈ vertices}.ncard ≤ (loop vertices).length := ncard_le_loop
  refine ⟨fun h => ?refused, fun h => ?made, fun h => by omega⟩
  case refused =>
    have h : (loop vertices).length < 3 := by omega
    rw [ncard_of_short h]
    exact polygon_of_short hp h
  case made =>
    have h : 3 ≤ (loop vertices).length := by omega
    exact (exists_polygon hp (fun _ _ => exists_throughPoints hf) h).imp fun _ h => h.1

end Exact

theorem polygon_of_sides_of_repeated_vertices :
    let f : Exact.Functions ℚ := .rational
    letI := f.metric
    let o : Axis → ℚ := fun _ => 0
    let p : Axis → ℚ := fun axis => if axis = .x then 1 else 0
    let q : Axis → ℚ := fun axis => if axis = .x then 0 else 1
    let t : Exact ℚ := .finite (1 / 10 ^ 10)
    f.HasNonzeroRoots ∧
    polygon ([o, o, p, p, o].map planePoint) t = .error (.geometry (.tooFewVertices 0 2 3)) ∧
    ∃ r, polygon ([o, o, p, q, q, o].map planePoint) t = .ok r := by
  have hs (o p : Axis → ℚ) : {x | x ∈ [o, o, p, p, o]} = {o, p} := Set.ext fun x => by simp; tauto
  intro f o p q t
  let _ := f.metric
  have hf : f.HasNonzeroRoots := Exact.Functions.hasNonzeroRoots_rational
  have ⟨refused, _⟩ := polygon_of_sides hf [o, o, p, p, o] t
  have ⟨_, made, _⟩ := polygon_of_sides hf [o, o, p, q, q, o] t
  have hn : {x | x ∈ [o, o, p, p, o]}.ncard = 2 := by
    have hop : o ≠ p := fun h => by simpa [o, p] using congrFun h .x
    rw [hs, Set.ncard_pair hop]
  refine ⟨hf, ?_, made (by decide +kernel)⟩
  rw [hn] at refused
  exact refused (by decide +kernel)

-- Two points make a half-plane.
theorem polygon_of_back_and_forth :
    let f : Exact.Functions ℚ := .rational
    letI := f.metric
    let p : Axis → ℚ := fun _ => 0
    let q : Axis → ℚ := fun axis => if axis = .x then 1 else 0
    {x | x ∈ [p, q, p, q]}.ncard = 2 ∧
    ∃ r, polygon ([p, q, p, q].map planePoint) (.finite (1 / 10 ^ 10)) = .ok r := by
  classical
  have hs (p q : Axis → ℚ) : {x | x ∈ [p, q, p, q]} = {p, q} := Set.ext fun x => by simp; tauto
  intro f p q
  let _ := f.metric
  have hpq : p ≠ q := fun h => by simpa [p, q] using congrFun h .x
  have hl : loop [p, q, p, q] = [p, q, p, q] := by
    simp [loop, List.destutter_cons', hpq, hpq.symm, List.rdropWhile]
  refine ⟨by rw [hs, Set.ncard_pair hpq], ?_⟩
  refine (exists_polygon (fun p q => beq_planePoint p q) (fun _ _ => exists_throughPoints ?roots)
    ?long).imp fun _ h => h.1
  case roots => exact Exact.Functions.hasNonzeroRoots_rational
  case long  => rw [hl]; exact Nat.le_succ 3

end Region
end SpacePartition
