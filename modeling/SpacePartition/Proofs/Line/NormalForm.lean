import Mathlib.Tactic.NormNum
import SpacePartition.Proofs.Line.Views

/-!
Regions made of intervals. They come back as the normal form of the intervals: sorted, with those
that overlap or touch joined.
-/

namespace SpacePartition

namespace Interval

variable {K : Type} {i : Interval (Exact K)} {is js : List (Interval (Exact K))}

@[simp]
theorem ends_cons : ends (i :: is) = ends [i] ∪ ends is := by
  ext x
  simp [ends]

theorem ends_perm (h : is.Perm js) : ends is = ends js := by
  ext x
  simp [ends, h.mem_iff]

theorem finite_ends (is : List (Interval (Exact K))) : (ends is).Finite := by
  have h := (is.map (·.lower) ++ is.map (·.upper)).finite_toSet
  refine (h.preimage (f := Exact.finite) fun _ _ _ _ => Exact.finite.inj).subset ?_
  rintro x ⟨i, hi, hx⟩
  refine List.mem_append.mpr <| hx.imp ?_ ?_ <;> exact fun h => List.mem_map.mpr ⟨i, hi, h⟩

end Interval

variable {K : Type} [Field K] [LinearOrder K] {i : Interval (Exact K)}
variable {is js : List (Interval (Exact K))} {L U V : Set K} {t x : K}

namespace Region

open Line

-- Whether the cuts of a region lie in their cells and what is inside of it is a set, cuts aside.
structure Occupies (L : Set K) (t : K) (r : Region (line (Exact K))) (U : Set K) : Prop where
  tolerance : r.tolerance = .finite t
  fitted    : (cells 0 L t).Fitted .univ r.tree.root
  holds     : ∀ q ∉ L, r.tree.root.holds (outlook q) = true ↔ q ∈ U

variable {r a b : Region (line (Exact K))}

theorem occupies_empty : Occupies L t (empty (.finite t)) ∅ :=
  ⟨rfl, trivial, fun _ _ => by simp [empty, Tree.leaf, Node.holds_leaf]⟩

-- The intervals without one of their bounds.
theorem tree_interval_above {x : K} {tol : Exact K} :
    (interval (.finite x) (.infinite true) tol).tree = .ofParts (⟨.finite x, false, tol⟩ :
      OrientedPoint (Exact K)) (.leaf (some false)) (.leaf (some true)) none :=
  rfl

theorem tree_interval_below {x : K} {tol : Exact K} :
    (interval (.infinite false) (.finite x) tol).tree = .ofParts (⟨.finite x, true, tol⟩ :
      OrientedPoint (Exact K)) (.leaf (some false)) (.leaf (some true)) none :=
  rfl

variable [IsStrictOrderedRing K]

-- What is outside on the plus side of a cut is inside on its minus side at most.
theorem holds_ofParts {q c : K} {dir : Bool} {tol : Exact K} {s : Tree (line (Exact K)) Bool}
    (hq : q ≠ c) : (Tree.ofParts (⟨.finite c, dir, tol⟩ : OrientedPoint (Exact K))
      (.leaf (some false)) s none).root.holds (outlook q) = true ↔
      (if dir then q ≤ c else c ≤ q) ∧ s.root.holds (outlook q) = true := by
  rw [Tree.ofParts, Node.holds_fork, outlook_toward hq, OrientedPoint.toward]
  rcases hq.lt_or_gt with h | h
  case inl =>
    cases dir <;> simp [h.not_gt, h.le, h.not_ge, Branch.pick, Tree.leaf, Node.holds_leaf]
  case inr => cases dir <;> simp [h, h.le, h.not_ge, Branch.pick, Tree.leaf, Node.holds_leaf]

theorem occupies_interval (h : i.lower < i.upper) (hL : Interval.ends [i] ⊆ L) :
    Occupies L t (interval i.lower i.upper (.finite t)) i.points := by
  obtain ⟨x | (_ | _) | _, y | (_ | _) | _⟩ := i <;> simp at h
  case infinite.false.infinite.true =>
    refine ⟨rfl, trivial, fun q _ => iff_of_true rfl ⟨?_, ?_⟩⟩ <;> simp [Exact.le_iff]
  case finite.finite =>
    have hx : x ∈ L := hL <| by simp [Interval.ends]
    have hy : y ∈ L := hL <| by simp [Interval.ends]
    have hb : OrientedPoint.Beyond 0 ⟨.finite x, false, .finite t⟩ .minus y := by
      simpa [OrientedPoint.beyond_iff, Branch.pick] using h
    constructor
    case tolerance => rfl
    case fitted =>
      rw [tree_interval]
      exact ⟨⟨rfl, x, ⟨trivial, hx⟩, rfl⟩, trivial, ⟨rfl, y, ⟨⟨trivial, hb⟩, hy⟩, rfl⟩, trivial,
        trivial⟩
    case holds =>
      intro q hq
      rw [tree_interval, holds_ofParts (ne_of_mem_of_not_mem hx hq).symm,
        holds_ofParts (ne_of_mem_of_not_mem hy hq).symm]
      simp [Interval.points, Tree.leaf, Node.holds_leaf]
  case finite.infinite.true =>
    have hx : x ∈ L := hL <| by simp [Interval.ends]
    refine ⟨rfl, ⟨⟨rfl, x, ⟨trivial, hx⟩, rfl⟩, trivial, trivial⟩, fun q hq => ?_⟩
    rw [tree_interval_above, holds_ofParts (ne_of_mem_of_not_mem hx hq).symm]
    have hi : Exact.finite q ≤ .infinite true := .inl rfl
    simp [Interval.points, Tree.leaf, Node.holds_leaf, hi]
  case infinite.false.finite =>
    have hx : y ∈ L := hL <| by simp [Interval.ends]
    refine ⟨rfl, ⟨⟨rfl, y, ⟨trivial, hx⟩, rfl⟩, trivial, trivial⟩, fun q hq => ?_⟩
    rw [tree_interval_below, holds_ofParts (ne_of_mem_of_not_mem hx hq).symm]
    have hi : Exact.infinite false ≤ .finite q := .inl rfl
    simp [Interval.points, Tree.leaf, Node.holds_leaf, hi]

theorem Occupies.union (ht : 0 ≤ t) (hL : Spaced L t) (ha : a.Occupies L t U)
    (hb : b.Occupies L t V) : ∃ r, a.union b = .ok r ∧ r.Occupies L t (U ∪ V) := by
  have htol : a.tolerance == b.tolerance := by
    rw [ha.tolerance, hb.tolerance]
    exact Exact.finite_beq_self
  have ⟨r, hr, hrt, hm⟩ :=
    ha.fitted.apply_ok (hL.separating ht) (hL.tight ht) hb.fitted htol .union
  refine ⟨r, hr, hrt.trans ha.tolerance, hm.fitted, fun q hq => ?_⟩
  rw [hm.holds (sees_outlook hq) trivial, Operation.holds, Bool.or_eq_true, ha.holds q hq,
    hb.holds q hq, Set.mem_union]

theorem Occupies.foldlM_union (ht : 0 ≤ t) (hL : Spaced L t) (hr : r.Occupies L t U)
    (hp : ∀ i ∈ is, i.lower < i.upper) (he : Interval.ends is ⊆ L) :
    ∃ s, (is.map fun i => interval i.lower i.upper (.finite t)).foldlM Region.union r = .ok s ∧
      s.Occupies L t (U ∪ Interval.union is) := by
  induction is generalizing r U
  case nil => exact ⟨r, rfl, by simpa using hr⟩
  case cons i is hi =>
    rw [Interval.ends_cons, Set.union_subset_iff] at he
    have ⟨s, hs, hs'⟩ := hr.union ht hL <| occupies_interval (hp i List.mem_cons_self) he.1
    have ⟨s', h, h'⟩ := hi hs' (fun j hj => hp j <| List.mem_cons_of_mem _ hj) he.2
    refine ⟨s', by rw [List.map_cons, List.foldlM_cons, hs]; exact h, ?_⟩
    rwa [Interval.union_cons, ← Set.union_assoc]

theorem occupies_ofIntervals (ht : 0 ≤ t) (hp : ∀ i ∈ is, i.lower < i.upper)
    (hL : Spaced (Interval.ends is) t) :
    ∃ r, ofIntervals is (.finite t) = .ok r ∧
      r.Occupies (Interval.ends is) t (Interval.union is) := by
  cases is
  case nil => exact ⟨_, rfl, by simpa using occupies_empty⟩
  case cons i is =>
    have he : Interval.ends [i] ⊆ Interval.ends (i :: is) ∧ Interval.ends is ⊆ _ :=
      Set.union_subset_iff.mp Interval.ends_cons.ge
    have hi := occupies_interval (t := t) (hp i List.mem_cons_self) he.1
    have ⟨s, hs, hs'⟩ :=
      hi.foldlM_union ht hL (fun j hj => hp j <| List.mem_cons_of_mem _ hj) he.2
    exact ⟨s, hs, by rwa [Interval.union_cons]⟩

theorem Occupies.intervals_eq (hr : r.Occupies L t (Interval.union is)) (hL : L.Finite)
    (hi : Interval.Separated is) : r.intervals = is :=
  (separated_intervals hr.fitted).ext hL hi fun q hq =>
    (mem_intervals hr.fitted hq).trans <| hr.holds q hq

-- A region made of intervals has the same intervals, sorted and joined.
theorem intervals_ofIntervals (ht : 0 ≤ t) (hp : ∀ i ∈ is, i.lower < i.upper)
    (hL : Spaced (Interval.ends is) t) :
    ∃ r, ofIntervals is (.finite t) = .ok r ∧ r.intervals = Interval.normalize is ∧
      Interval.Separated r.intervals ∧ Interval.union r.intervals = Interval.union is ∧
      (is.Pairwise (·.upper < ·.lower) → r.intervals = is) ∧
      ∀ js, js.Perm is → ∃ s, ofIntervals js (.finite t) = .ok s ∧ s.intervals = r.intervals := by
  have ⟨r, hr, ho⟩ := occupies_ofIntervals ht hp hL
  have ⟨hn, hu⟩ := Interval.separated_normalize hp
  have hi : r.intervals = Interval.normalize is :=
    Occupies.intervals_eq (hu.symm ▸ ho) (Interval.finite_ends is) hn
  refine ⟨r, hr, hi, hi ▸ hn, hi ▸ hu, fun hg => ?sorted, fun js hj => ?order⟩
  case sorted => exact ho.intervals_eq (Interval.finite_ends is) ⟨hp, hg⟩
  case order =>
    have ⟨s, hs, hos⟩ := occupies_ofIntervals ht (fun i hi => hp i <| hj.mem_iff.mp hi)
      (Interval.ends_perm hj ▸ hL)
    refine ⟨s, hs, ?_⟩
    rw [Interval.union_perm hj, ← hu, ← hi] at hos
    exact hos.intervals_eq (Interval.finite_ends js) (hi ▸ hn)

-- Intervals that touch come back as one.
theorem intervals_ofIntervals_of_touching :
    let is : List (Interval (Exact ℚ)) :=
      [⟨.finite 10, .infinite true⟩, ⟨.finite (-5), .finite 0⟩, ⟨.finite 0, .finite 4⟩]
    ((0 : ℚ) ≤ 1 ∧ (∀ i ∈ is, i.lower < i.upper) ∧ Spaced (Interval.ends is) 1) ∧
    ∃ r, ofIntervals is (.finite 1) = .ok r ∧
      r.intervals = [⟨.finite (-5), .finite 4⟩, ⟨.finite 10, .infinite true⟩] := by
  intro is
  have hp : ∀ i ∈ is, i.lower < i.upper := by simp [is]
  have he : Interval.ends is ⊆ {10, -5, 0, 4} := by
    intro x
    simp only [Interval.ends, is, Set.mem_ofPred_eq, List.mem_cons, List.not_mem_nil, or_false,
      exists_eq_or_imp, exists_eq_left, Exact.finite.injEq, reduceCtorEq, Set.mem_insert_iff,
      Set.mem_singleton_iff]
    grind
  have hs : Spaced (Interval.ends is) 1 := by
    intro x hx y hy
    have hx := he hx
    have hy := he hy
    simp only [Set.mem_insert_iff, Set.mem_singleton_iff] at hx hy
    obtain rfl | rfl | rfl | rfl := hx <;> obtain rfl | rfl | rfl | rfl := hy <;> norm_num
  obtain ⟨r, hr, hi, -⟩ := intervals_ofIntervals zero_le_one hp hs
  refine ⟨⟨zero_le_one, hp, hs⟩, r, hr, hi.trans ?_⟩
  have hn (x : ℚ) : Exact.finite x ≠ .undefined := by simp
  norm_num [is, Interval.normalize, List.mergeSort, List.cons_merge_cons, Exact.totalLE_iff, hn,
    Interval.join, Interval.joinFrom, Exact.max_eq, Exact.le_iff]

end Region
end SpacePartition
