import Mathlib.Algebra.BigOperators.Group.List.Basic
import Mathlib.Algebra.BigOperators.Group.Finset.Basic
import Mathlib.Algebra.BigOperators.Ring.Finset
import Mathlib.Tactic.Ring
import SpacePartition.Proofs.Line.NormalForm

/-!
Sizes and first moments of regions of the line. Both are sums over the intervals of a region, which
are sums over the places where the region ends or begins; there they add up as the insides of
regions do.
-/

namespace SpacePartition

variable {K : Type} [Field K] [LinearOrder K]

namespace Exact

variable {a b : Exact K} {xs : List (Exact K)} {z : K}

theorem isInfinite_finite (x : K) : Scalar.isInfinite (finite x) = false := by
  change (decide (finite x = infinite true ∧ _) || decide (finite x = infinite false ∧ _)) = false
  simp

theorem add_eq_finite (h : a + b = finite z) : ∃ x y, a = finite x ∧ b = finite y := by
  change add a b = _ at h
  cases a <;> cases b
  case finite.finite x y => exact ⟨x, y, rfl, rfl⟩
  case infinite.infinite =>
    rw [add] at h
    split at h <;> cases h
  all_goals cases h

theorem foldl_finite (x : K) (ys : List K) :
    (ys.map finite).foldl (· + ·) (finite x) = finite (x + ys.sum) := by
  induction ys generalizing x
  case nil          => simp
  case cons y ys hi => rw [List.map_cons, List.foldl_cons, finite_add, hi, List.sum_cons, add_assoc]

theorem sum_finite (ys : List K) : Scalar.sum (ys.map finite) = finite ys.sum := by
  rw [Scalar.sum, zero_eq, neg_finite, neg_zero, foldl_finite, zero_add]

theorem finite_of_foldl (h : xs.foldl (· + ·) a = finite z) :
    (∃ x, a = finite x) ∧ ∀ x ∈ xs, ∃ y, x = finite y := by
  induction xs generalizing a
  case nil => exact ⟨⟨z, h⟩, nofun⟩
  case cons x xs hi =>
    have ⟨⟨s, hs⟩, hxs⟩ := hi h
    have ⟨y, y', hy, hy'⟩ := add_eq_finite hs
    exact ⟨⟨y, hy⟩, List.forall_mem_cons.mpr ⟨⟨y', hy'⟩, hxs⟩⟩

end Exact

-- No operation makes something of nothing.
theorem Operation.holds_cases {op : Operation} {x y : Bool} (h : op.holds x y = true) :
    x = true ∨ y = true := by
  cases op <;> cases x <;> cases y <;> simp_all [holds]

namespace Interval

variable {is : List (Interval (Exact K))} {ps : List (K × K)} {i : Interval (Exact K)} {z : K}

def ofBounds (p : K × K) : Interval (Exact K) :=
  ⟨.finite p.1, .finite p.2⟩

-- What a function has more at upper bounds than at lower ones.
def total (F : K → K) (ps : List (K × K)) : K :=
  (ps.map fun p => F p.2 - F p.1).sum

theorem size_ofBounds (p : K × K) : (ofBounds p).size = .finite (p.2 - p.1) :=
  Exact.finite_sub

theorem barycenter_ofBounds [IsStrictOrderedRing K] (p : K × K) :
    (ofBounds p).barycenter = .finite (1 / 2 * p.1 + 1 / 2 * p.2) := by
  have hh : (Scalar.half : Exact K) = .finite (1 / 2) := Exact.finite_div two_ne_zero
  rw [barycenter, hh]
  rfl

omit [Field K] [LinearOrder K] in
theorem exists_ofBounds (h : ∀ i ∈ is, ∃ p, ofBounds p = i) :
    ∃ ps : List (K × K), is = ps.map ofBounds := by
  have hm : is ∈ Set.range (List.map ofBounds) := by
    rw [Set.range_list_map]
    exact h
  exact hm.imp fun _ => Eq.symm

-- Only intervals with two finite bounds have a finite size.
theorem exists_of_size (h : Scalar.sum (is.map (·.size)) = .finite z) :
    ∃ ps : List (K × K), is = ps.map ofBounds := by
  refine exists_ofBounds fun i hi => ?_
  have ⟨y, hy⟩ := (Exact.finite_of_foldl h).2 _ <| List.mem_map_of_mem hi
  have ⟨u, l, hu, hl⟩ := Exact.add_eq_finite hy
  have ⟨lower, upper⟩ := i
  rcases lower with l | _ | _ <;> cases hl
  cases hu
  exact ⟨(l, u), rfl⟩

theorem sum_size (ps : List (K × K)) :
    Scalar.sum ((ps.map ofBounds).map (·.size)) = .finite (total (fun x => x) ps) := by
  rw [total, ← Exact.sum_finite, List.map_map, List.map_map]
  exact congrArg _ <| List.map_congr_left fun p _ => size_ofBounds p

theorem Separated.nodup (h : Separated (ps.map ofBounds)) :
    (ps.map (·.1)).Nodup ∧ (ps.map (·.2)).Nodup := by
  have hg := List.pairwise_map.mp h.gaps
  have hp (p) (hm : p ∈ ps) : p.1 < p.2 := h.proper _ <| List.mem_map_of_mem hm
  constructor <;> refine List.pairwise_map.mpr <| hg.imp_of_mem fun hm hm' hlt => ?_
  case left  => exact ((hp _ hm).trans hlt).ne
  case right => exact (lt_trans hlt (hp _ hm')).ne

-- Finitely many intervals with finite bounds leave room on both sides.
theorem bounded_union (ps : List (K × K)) :
    ∃ l u, ∀ x ∈ union (ps.map ofBounds), l ≤ x ∧ x ≤ u := by
  induction ps
  case nil => exact ⟨0, 0, by simp⟩
  case cons p ps hi =>
    have ⟨l, u, h⟩ := hi
    refine ⟨min p.1 l, max p.2 u, fun x hx => ?_⟩
    rw [List.map_cons, union_cons] at hx
    rcases hx with ⟨hl, hu⟩ | hx
    case inl =>
      exact ⟨min_le_of_left_le <| Exact.finite_le.mp hl, le_max_of_le_left <| Exact.finite_le.mp hu⟩
    case inr => exact ⟨min_le_of_right_le (h x hx).1, le_max_of_le_right (h x hx).2⟩

variable [IsStrictOrderedRing K] {F : Set K}

-- Intervals without points far away have finite bounds.
theorem exists_of_bounded (hF : F.Finite) (hp : ∀ i ∈ is, i.lower < i.upper) {l u : K}
    (h : ∀ x ∉ F, x ∈ union is → l ≤ x ∧ x ≤ u) : ∃ ps : List (K × K), is = ps.map ofBounds := by
  refine exists_ofBounds fun i hi => ?_
  have hlu := hp i hi
  have hn {x} (hx : x ∉ F) (hl : i.lower < .finite x) (hu : .finite x < i.upper) : l ≤ x ∧ x ≤ u :=
    h x hx ⟨i, hi, .inl hl, .inl hu⟩
  obtain ⟨c | (_ | _) | _, d | (_ | _) | _⟩ := i <;> simp at hlu
  case finite.finite => exact ⟨(c, d), rfl⟩
  case finite.infinite.true =>
    have ⟨x, hx, hlx, _⟩ := Exact.exists_between hF
      (Exact.finite_lt_infinite.mpr rfl : Exact.finite (max c u) < .infinite true)
    have hx' := max_lt_iff.mp <| Exact.finite_lt.mp hlx
    exact absurd (hn hx hx'.1 rfl).2 (not_le.mpr hx'.2)
  case infinite.false.finite =>
    have ⟨x, hx, _, hxu⟩ := Exact.exists_between hF
      (Exact.infinite_lt_finite.mpr rfl : .infinite false < Exact.finite (min d l))
    have hx' := lt_min_iff.mp <| Exact.finite_lt.mp hxu
    exact absurd (hn hx rfl hx'.1).1 (not_le.mpr hx'.2)
  case infinite.false.infinite.true =>
    have ⟨x, hx, _, hxu⟩ := Exact.exists_between hF
      (Exact.infinite_lt_finite.mpr rfl : .infinite false < Exact.finite l)
    exact absurd (hn hx rfl rfl).1 (not_le.mpr <| Exact.finite_lt.mp hxu)

end Interval

namespace Line

variable {n a b r : Node (line (Exact K)) Nat Bool} {L C : Set K} {e t : K} {above : Bool}

-- How much more of a partition is inside below a place than above it.
def drop (n : Node (line (Exact K)) Nat Bool) (e : K) : K :=
  (n.holds (beside e false)).toNat - (n.holds (beside e true)).toNat

-- Beside a place without a cut both sides are the same.
theorem drop_off (hn : ∀ s ∈ n.cuts, ∃ c ∈ L, s.location = .finite c) (he : e ∉ L) :
    drop n e = 0 := by
  have hs : n.holds (beside e false) = n.holds (beside e true) := by
    refine Node.holds_congr fun s hs => ?_
    have ⟨location, dir, tol⟩ := s
    obtain ⟨c, hc, rfl⟩ := hn _ hs
    have hce : c ≠ e := fun h => he (h ▸ hc)
    change beside e false (⟨.finite c, dir, tol⟩ : OrientedPoint (Exact K)) = beside e true
      (⟨.finite c, dir, tol⟩ : OrientedPoint (Exact K))
    rw [beside_eq, beside_eq]
    simp [hce]
  rw [drop, hs, sub_self]

-- What is gained or lost at a place adds up.
theorem drop_add {r : Operation → Node (line (Exact K)) Nat Bool} (h : ∀ op above,
    (r op).holds (beside e above) =
      op.holds (a.holds (beside e above)) (b.holds (beside e above))) :
    drop (r .union) e + drop (r .intersection) e = drop a e + drop b e ∧
      drop (r .difference) e + drop (r .intersection) e = drop a e ∧
      drop (r .xor) e = drop (r .union) e - drop (r .intersection) e := by
  simp only [drop, h]
  cases a.holds (beside e false) <;> cases a.holds (beside e true) <;>
    cases b.holds (beside e false) <;> cases b.holds (beside e true) <;> simp [Operation.holds]

theorem sum_map_mem {xs : List K} {E : Finset K} (F : K → K) (hx : xs.Nodup)
    (hE : ∀ x ∈ xs, x ∈ E) :
    (xs.map F).sum = ∑ e ∈ E, if e ∈ xs then F e else 0 := by
  have hs : E ∩ xs.toFinset = xs.toFinset :=
    Finset.inter_eq_right.mpr fun x hx => hE x <| List.mem_toFinset.mp hx
  rw [← List.sum_toFinset F hx, ← hs, ← Finset.sum_ite_mem]
  simp only [List.mem_toFinset]

variable [IsStrictOrderedRing K]

-- Next to a place a merged partition says what the operation says of the sides of its parts there.
theorem holds_beside_of_merges (hL : L.Finite) {op : Operation}
    (ha : (cells 0 L t).Fitted .univ a) (hb : (cells 0 L t).Fitted .univ b)
    (hr : (cells 0 L t).Merges .univ op.holds a b r) :
    r.holds (beside e above) = op.holds (a.holds (beside e above)) (b.holds (beside e above)) := by
  have ⟨d, hd, h⟩ := outlook_vicinity hL e above
  have ⟨x, hx, _⟩ := exists_mem_vicinity e above Set.finite_empty hd
  have same {n : Node (line (Exact K)) Nat Bool} (hn : (cells 0 L t).Fitted .univ n) :
      n.holds (outlook x) = n.holds (beside e above) := by
    refine Node.holds_congr fun s hs => ?_
    have ⟨location, dir, tol⟩ := s
    obtain ⟨c, hc, rfl⟩ := cells_cuts hn hs
    exact (h x hx).2 c hc.2 dir tol
  rw [← same hr.fitted, ← same ha, ← same hb]
  exact hr.holds (sees_outlook (h x hx).1) trivial

end Line

namespace Region

open Line

variable {r : Region (line (Exact K))} {L : Set K} {t : K} {ps : List (K × K)}

-- The size is the sum of the sizes of the intervals, for a single leaf too.
theorem size_eq_sum (r : Region (line (Exact K))) :
    r.size = .ok (Scalar.sum (r.intervals.map (·.size))) := by
  have hs : r.size = .ok r.lineProperties.size := rfl
  rw [hs, lineProperties]
  split
  case h_1 i a h =>
    have hf : r.isFull = (a == some true) := by rw [isFull, h]; rfl
    have hi : r.intervals = Interval.normalize
        (if a == some true then [⟨.infinite false, .infinite true⟩] else []) := by
      rw [intervals, h]
      rfl
    rw [hf, hi]
    split
    case isTrue  => rw [Interval.normalize_singleton]; rfl
    case isFalse => simp [Scalar.sum]
  case h_2 => rfl

-- Without cuts there is nothing or everything.
theorem eq_zero_of_leaf {i : ℕ} {a : Option Bool} {z : K} (hr : r.tree.root = .leaf i a)
    (hz : r.size = .ok (.finite z)) : z = 0 := by
  have hs : r.size = .ok r.lineProperties.size := rfl
  rw [hs, lineProperties, hr] at hz
  have hz := Except.ok.inj hz
  dsimp only at hz
  split at hz
  case isTrue  => cases hz
  case isFalse => exact (Exact.finite.inj hz).symm

variable [IsStrictOrderedRing K]

-- Where bounds are finite, what an interval has more at its upper bound than at its lower one adds
-- up over the places where the region ends or begins.
theorem total_eq_sum (F : K → K) (hr : (cells 0 L t).Fitted .univ r.tree.root) (hL : L.Finite)
    (hp : r.intervals = ps.map Interval.ofBounds) :
    Interval.total F ps = ∑ e ∈ hL.toFinset, F e * drop r.tree.root e := by
  have ⟨hl, hu⟩ := (hp ▸ separated_intervals hr).nodup
  have mem_lower {e} : e ∈ ps.map (·.1) ↔ ∃ i ∈ r.intervals, i.lower = .finite e := by
    simp [hp, Interval.ofBounds]
  have mem_upper {e} : e ∈ ps.map (·.2) ↔ ∃ i ∈ r.intervals, i.upper = .finite e := by
    simp [hp, Interval.ofBounds]
  have mem_places {e} (h : drop r.tree.root e ≠ 0) : e ∈ hL.toFinset := by
    refine hL.mem_toFinset.mpr <| by_contra fun he => h <| drop_off (fun s hs => ?_) he
    have ⟨c, hc, hl⟩ := cells_cuts hr hs
    exact ⟨c, hc.2, hl⟩
  have hd := Multiset.sum_map_sub (m := (ps : Multiset (K × K))) (f := fun p => F p.2)
    (g := fun p => F p.1)
  simp only [Multiset.map_coe, Multiset.sum_coe] at hd
  have hm (f : K × K → K) : ps.map (fun p => F (f p)) = (ps.map f).map F := List.map_map.symm
  rw [hm, hm] at hd
  rw [Interval.total, hd, sum_map_mem F hu ?upper, sum_map_mem F hl ?lower,
    ← Finset.sum_sub_distrib]
  case upper =>
    intro e he
    rw [mem_upper, upper_intervals hr hL] at he
    exact mem_places <| by simp [drop, he]
  case lower =>
    intro e he
    rw [mem_lower, lower_intervals hr hL] at he
    exact mem_places <| by simp [drop, he]
  refine Finset.sum_congr rfl fun e _ => ?_
  simp only [mem_upper, mem_lower, upper_intervals hr hL, lower_intervals hr hL, drop]
  cases r.tree.root.holds (beside e false) <;> cases r.tree.root.holds (beside e true) <;> simp

-- The first moment, where the size counts.
theorem exists_barycenter {z : K} (hp : r.intervals = ps.map Interval.ofBounds)
    (hz : r.size = .ok (.finite z)) (h : (2 ^ 1022)⁻¹ ≤ z) :
    ∃ q, r.barycenter = .ok (Exact.finite q) ∧
      z * q = Interval.total (fun x => x * x / 2) ps := by
  have hpos : 0 < z := lt_of_lt_of_le (by positivity) h
  have hb : r.barycenter = .ok r.lineProperties.barycenter := rfl
  have hsum := Except.ok.inj <| r.size_eq_sum.symm.trans hz
  rw [hb, lineProperties]
  split
  case h_1 i a hr => exact absurd (eq_zero_of_leaf hr hz) hpos.ne'
  case h_2 i a cut plus minus hr =>
    have hl : Scalar.leastSize ≤ Exact.finite z := Exact.finite_le.mpr h
    have hw : r.intervals.map (fun i => i.size / Exact.finite z * i.barycenter) =
        (ps.map fun p => z⁻¹ * (p.2 * p.2 / 2 - p.1 * p.1 / 2)).map Exact.finite := by
      rw [hp, List.map_map, List.map_map]
      refine List.map_congr_left fun p _ => ?_
      change (Interval.ofBounds p).size / .finite z * (Interval.ofBounds p).barycenter = .finite _
      rw [Interval.size_ofBounds, Interval.barycenter_ofBounds, Exact.finite_div hpos.ne',
        Exact.finite_mul]
      exact congrArg _ (by ring)
    simp only [hsum, Exact.isInfinite_finite, hl, hw, Exact.sum_finite, if_true, if_false,
      Bool.false_eq_true]
    refine ⟨_, rfl, ?_⟩
    rw [List.sum_map_mul_left, mul_inv_cancel_left₀ hpos.ne', Interval.total]

variable {a b : Region (line (Exact K))} {as bs : List (K × K)}

-- A boolean operation on regions with finite bounds makes a region with finite bounds.
theorem exists_apply (ht : 0 ≤ t) (hL : L.Finite) (hs : Spaced L t)
    (fa : (cells 0 L t).Fitted .univ a.tree.root) (fb : (cells 0 L t).Fitted .univ b.tree.root)
    (htol : a.tolerance == b.tolerance) (ha : a.intervals = as.map Interval.ofBounds)
    (hb : b.intervals = bs.map Interval.ofBounds) (op : Operation) :
    ∃ (r : Region (line (Exact K))) (ps : List (K × K)), op.apply a b = .ok r ∧
      r.intervals = ps.map Interval.ofBounds ∧
      (cells 0 L t).Merges .univ op.holds a.tree.root b.tree.root r.tree.root := by
  have ⟨r, hr, _, hm⟩ := fa.apply_ok (hs.separating ht) (hs.tight ht) fb htol op
  have ⟨l, u, hau⟩ := Interval.bounded_union as
  have ⟨l', u', hbu⟩ := Interval.bounded_union bs
  have ⟨ps, hps⟩ := Interval.exists_of_bounded (l := min l l') (u := max u u') hL
    (separated_intervals hm.fitted).proper fun x hx hxr => ?bounds
  case bounds =>
    rw [mem_intervals hm.fitted hx, hm.holds (sees_outlook hx) trivial] at hxr
    rcases op.holds_cases hxr with h | h
    case inl =>
      rw [← mem_intervals fa hx, ha] at h
      exact ⟨min_le_of_left_le (hau x h).1, le_max_of_le_left (hau x h).2⟩
    case inr =>
      rw [← mem_intervals fb hx, hb] at h
      exact ⟨min_le_of_right_le (hbu x h).1, le_max_of_le_right (hbu x h).2⟩
  exact ⟨r, ps, hr, hps, hm⟩

theorem total_add (F : K → K) (hL : L.Finite) (fa : (cells 0 L t).Fitted .univ a.tree.root)
    (fb : (cells 0 L t).Fitted .univ b.tree.root) (ha : a.intervals = as.map Interval.ofBounds)
    (hb : b.intervals = bs.map Interval.ofBounds) {r : Operation → Region (line (Exact K))}
    {ps : Operation → List (K × K)} (hr : ∀ op, (r op).intervals = (ps op).map Interval.ofBounds)
    (hm : ∀ op, (cells 0 L t).Merges .univ op.holds a.tree.root b.tree.root (r op).tree.root) :
    let total := Interval.total F
    total (ps .union) + total (ps .intersection) = total as + total bs ∧
      total (ps .difference) + total (ps .intersection) = total as ∧
      total (ps .xor) = total (ps .union) - total (ps .intersection) := by
  have hr (op) := total_eq_sum F (hm op).fitted hL (hr op)
  have hd (e : K) := drop_add (e := e) fun op above =>
    holds_beside_of_merges hL fa fb (hm op)
  simp only [hr, total_eq_sum F fa hL ha, total_eq_sum F fb hL hb, ← Finset.sum_add_distrib,
    ← Finset.sum_sub_distrib, ← mul_add, ← mul_sub]
  refine ⟨?union, ?difference, ?xor⟩ <;> refine Finset.sum_congr rfl fun e _ => congrArg _ ?_
  case union      => exact (hd e).1
  case difference => exact (hd e).2.1
  case xor        => exact (hd e).2.2

-- Sizes and first moments add up: what two regions share counts twice in their sum.
theorem FittedAt.measures_add (ht : 0 ≤ t) (ha : a.FittedAt t) (hb : b.FittedAt t)
    (hL : Spaced (a.locations ∪ b.locations) t) {x y : K} (hx : a.size = .ok (.finite x))
    (hy : b.size = .ok (.finite y)) :
    ∃ (r : Operation → Region (line (Exact K))) (z : Operation → K),
      (∀ op, op.apply a b = .ok (r op) ∧ (r op).size = .ok (.finite (z op))) ∧
      z .union + z .intersection = x + y ∧ z .difference + z .intersection = x ∧
      z .xor = z .union - z .intersection ∧
      ((∀ s ∈ [x, y, z .union, z .intersection], (2 ^ 1022)⁻¹ ≤ s) → ∃ p q u v : K,
        a.barycenter = .ok (Exact.finite p) ∧ b.barycenter = .ok (Exact.finite q) ∧
        (r .union).barycenter = .ok (Exact.finite u) ∧
        (r .intersection).barycenter = .ok (Exact.finite v) ∧
        z .union * u + z .intersection * v = x * p + y * q) := by
  have fa := ha.cells ht (Set.subset_union_left (t := b.locations))
  have fb := hb.cells ht (Set.subset_union_right (s := a.locations))
  have hf := a.finite_locations.union b.finite_locations
  have size_eq {r : Region (line (Exact K))} {ps : List (K × K)}
      (h : r.intervals = ps.map Interval.ofBounds) :
      r.size = .ok (.finite (Interval.total (fun x => x) ps)) := by
    rw [size_eq_sum, h, Interval.sum_size]
  obtain ⟨as, has⟩ := Interval.exists_of_size <| Except.ok.inj <| a.size_eq_sum.symm.trans hx
  obtain ⟨bs, hbs⟩ := Interval.exists_of_size <| Except.ok.inj <| b.size_eq_sum.symm.trans hy
  cases Except.ok.inj <| (size_eq has).symm.trans hx
  cases Except.ok.inj <| (size_eq hbs).symm.trans hy
  choose r ps hr hps hm using exists_apply ht hf hL fa fb (ha.tolerance_beq hb) has hbs
  have ⟨hu, hd, hx⟩ := total_add (fun x => x) hf fa fb has hbs hps hm
  refine ⟨r, fun op => Interval.total (fun x => x) (ps op), fun op => ⟨hr op, size_eq (hps op)⟩, hu,
    hd, hx, fun hl => ?_⟩
  simp only [List.forall_mem_cons] at hl
  have ⟨p, hp, hpa⟩ := exists_barycenter has (size_eq has) hl.1
  have ⟨q, hq, hqb⟩ := exists_barycenter hbs (size_eq hbs) hl.2.1
  have ⟨u, hu, hru⟩ := exists_barycenter (hps .union) (size_eq (hps .union)) hl.2.2.1
  have ⟨v, hv, hri⟩ :=
    exists_barycenter (hps .intersection) (size_eq (hps .intersection)) hl.2.2.2.1
  refine ⟨p, q, u, v, hp, hq, hu, hv, ?_⟩
  rw [hpa, hqb, hru, hri]
  exact (total_add (fun x => x * x / 2) hf fa fb has hbs hps hm).1

-- Intervals that overlap share what lies between them.
theorem FittedAt.measures_add_of_overlap :
    let a : Region (line (Exact ℚ)) := interval (.finite 0) (.finite 6) (.finite 1)
    let b : Region (line (Exact ℚ)) := interval (.finite 2) (.finite 10) (.finite 1)
    ((0 : ℚ) ≤ 1 ∧ a.FittedAt 1 ∧ b.FittedAt 1 ∧ Spaced (a.locations ∪ b.locations) 1 ∧
      a.size = .ok (.finite 6) ∧ b.size = .ok (.finite 8)) ∧
    ∃ (r : Operation → Region (line (Exact ℚ))) (z : Operation → ℚ) (u v : ℚ),
      (∀ op, op.apply a b = .ok (r op) ∧ (r op).size = .ok (.finite (z op))) ∧
      z .union = 10 ∧ z .intersection = 4 ∧ z .difference = 2 ∧ z .xor = 6 ∧
      (r .union).barycenter = .ok (Exact.finite u) ∧
      (r .intersection).barycenter = .ok (Exact.finite v) ∧ 10 * u + 4 * v = 66 := by
  intro a b
  have ha : a.FittedAt 1 := fittedAt_interval (by norm_num)
  have hb : b.FittedAt 1 := fittedAt_interval (by norm_num)
  have hL : Spaced (a.locations ∪ b.locations) 1 := by
    rw [locations_interval, locations_interval]
    simp only [Spaced, Set.mem_union, Set.mem_insert_iff, Set.mem_singleton_iff]
    rintro x ((rfl | rfl) | (rfl | rfl)) y ((rfl | rfl) | (rfl | rfl)) <;> norm_num
  have hx : a.size = .ok (.finite 6) := by decide +kernel
  have hy : b.size = .ok (.finite 8) := by decide +kernel
  obtain ⟨r, z, hr, hu, hd, hs, hm⟩ := ha.measures_add zero_le_one hb hL hx hy
  have hz : z .intersection = 4 := by
    have h : (Operation.intersection.apply a b >>= fun r => r.size) = .ok (.finite 4) := by
      decide +kernel
    rw [(hr .intersection).1] at h
    exact Exact.finite.inj <| Except.ok.inj <| (hr .intersection).2.symm.trans h
  have hz' : z .union = 10 := by linarith
  have hl (n : ℚ) (h : 1 ≤ n) : (2 ^ 1022)⁻¹ ≤ n :=
    (inv_le_one_of_one_le₀ <| one_le_pow₀ one_le_two).trans h
  have ⟨p, q, u, v, hp, hq, hu, hv, h⟩ := hm <| by
    simp only [List.forall_mem_cons, hz, hz']
    exact ⟨hl 6 (by norm_num), hl 8 (by norm_num), hl 10 (by norm_num), hl 4 (by norm_num), nofun⟩
  have hp' : a.barycenter = .ok (Exact.finite 3) := by decide +kernel
  have hq' : b.barycenter = .ok (Exact.finite 6) := by decide +kernel
  cases Except.ok.inj <| hp'.symm.trans hp
  cases Except.ok.inj <| hq'.symm.trans hq
  refine ⟨⟨zero_le_one, ha, hb, hL, hx, hy⟩, r, z, u, v, hr, hz', hz,
    by linarith, by linarith, hu, hv, ?_⟩
  rw [hz, hz'] at h
  linarith

end Region
end SpacePartition
