import SpacePartition.Proofs.Line.Clipping
import SpacePartition.Proofs.Line.Segment

/-!
The parts that intervals have on the two sides of a place. Each has the points on its side, and
their sizes add up. They are the intervals of what a region has on the two sides of a cut, and the
region comes back from them.
-/

namespace SpacePartition

variable {K : Type} [Field K] [LinearOrder K]

namespace Exact

variable {a b c : Exact K} {xs : List (Exact K)}

theorem max_lt_iff (ha : a ≠ undefined) (hb : b ≠ undefined) :
    Scalar.max a b < c ↔ a < c ∧ b < c := by
  rw [max_eq ha hb]
  split
  case isTrue h  => exact ⟨fun hc => ⟨Exact.lt_trans h hc, hc⟩, And.right⟩
  case isFalse h =>
    exact ⟨fun hc => ⟨hc, Exact.lt_of_le_of_lt ((Exact.not_lt ha hb).mp h) hc⟩, And.left⟩

theorem lt_min_iff (ha : a ≠ undefined) (hb : b ≠ undefined) :
    c < Scalar.min a b ↔ c < a ∧ c < b := by
  rw [min_eq ha hb]
  split
  case isTrue h  => exact ⟨fun hc => ⟨Exact.lt_trans hc h, hc⟩, And.right⟩
  case isFalse h =>
    exact ⟨fun hc => ⟨hc, Exact.lt_of_lt_of_le hc ((Exact.not_lt hb ha).mp h)⟩, And.left⟩

theorem not_lt_of_lt (h : a < b) : ¬b < a :=
  fun h' => Exact.lt_irrefl <| Exact.lt_trans h h'

theorem max_eq_right (h : a ≤ b) : Scalar.max a b = b := by
  have hd := defined_of_le h
  rw [max_eq hd.1 hd.2]
  rcases h with h | ⟨rfl, -⟩
  case inl => exact if_pos h
  case inr => exact ite_self _

theorem min_eq_right (h : b ≤ a) : Scalar.min a b = b := by
  have hd := defined_of_le h
  rw [min_eq hd.2 hd.1]
  rcases h with h | ⟨rfl, -⟩
  case inl => exact if_pos h
  case inr => exact ite_self _

-- Sums do not depend on the order, even where infinities meet.
instance : Std.Associative (α := Exact K) (· + ·) where
  assoc a b c := by
    change add (add a b) c = add a (add b c)
    rcases a with x | (_ | _) | _ <;> rcases b with y | (_ | _) | _ <;>
      rcases c with z | (_ | _) | _ <;> simp [add, add_assoc]

instance : Std.Commutative (α := Exact K) (· + ·) where
  comm a b := by
    change add a b = add b a
    rcases a with x | (_ | _) | _ <;> rcases b with y | (_ | _) | _ <;> simp [add, add_comm]

protected theorem add_comm (a b : Exact K) : a + b = b + a := by
  ac_rfl

@[simp]
protected theorem zero_add (a : Exact K) : 0 + a = a := by
  cases a
  case finite x => exact congrArg finite (zero_add x)
  all_goals rfl

@[simp]
protected theorem add_zero (a : Exact K) : a + 0 = a := by
  rw [Exact.add_comm, Exact.zero_add]

theorem sum_nil : Scalar.sum ([] : List (Exact K)) = 0 :=
  congrArg finite neg_zero

theorem sum_cons (a : Exact K) (xs : List (Exact K)) :
    Scalar.sum (a :: xs) = a + Scalar.sum xs := by
  rw [Scalar.sum, List.foldl_cons, Exact.add_comm, List.foldl_assoc]
  rfl

theorem sum_singleton (a : Exact K) : Scalar.sum [a] = a := by
  rw [sum_cons, sum_nil, Exact.add_zero]

theorem sum_append (xs ys : List (Exact K)) :
    Scalar.sum (xs ++ ys) = Scalar.sum xs + Scalar.sum ys := by
  induction xs
  case nil          => rw [List.nil_append, sum_nil, Exact.zero_add]
  case cons x xs hi =>
    rw [List.cons_append, sum_cons, hi, sum_cons]
    ac_rfl

end Exact

namespace Interval

section Parts

variable {R : Type} [Scalar R] {i j : Interval R} {is : List (Interval R)} {x : R} {above : Bool}

-- What intervals have on a side of a place, without single points.
def partsOn (x : R) (above : Bool) (is : List (Interval R)) : List (Interval R) :=
  (is.map (·.clip x above)).filter fun i => i.lower < i.upper

theorem mem_partsOn : j ∈ partsOn x above is ↔
    ∃ i ∈ is, i.clip x above = j ∧ j.lower < j.upper := by
  simp only [partsOn, List.mem_filter, List.mem_map, decide_eq_true_eq]
  exact ⟨fun ⟨⟨i, hi, he⟩, h⟩ => ⟨i, hi, he, h⟩, fun ⟨i, hi, he, h⟩ => ⟨⟨i, hi, he⟩, h⟩⟩

theorem partsOn_cons : partsOn x above (i :: is) = partsOn x above [i] ++ partsOn x above is := by
  rw [partsOn, partsOn, partsOn, ← List.filter_append, ← List.map_append, List.singleton_append]

theorem partsOn_singleton : partsOn x above [i] =
    if (i.clip x above).lower < (i.clip x above).upper then [i.clip x above] else [] := by
  simp only [partsOn, List.map_cons, List.map_nil, List.filter_cons, List.filter_nil,
    decide_eq_true_eq]

end Parts

variable {i j : Interval (Exact K)} {is : List (Interval (Exact K))} {c x : K} {above : Bool}
variable {F : Set K}

theorem clip_lt (hi : i.lower < i.upper) :
    (i.clip (.finite c) above).lower < (i.clip (.finite c) above).upper ↔
      if above then .finite c < i.upper else i.lower < .finite c := by
  have hd := Exact.defined_of_lt hi
  cases above
  case false => exact (Exact.lt_min_iff (by simp) hd.2).trans (and_iff_left hi)
  case true  => exact (Exact.max_lt_iff (by simp) hd.1).trans (and_iff_left hi)

-- Clipping moves no bound outwards.
theorem le_lower_clip (hi : i.lower ≠ .undefined) : i.lower ≤ (i.clip (.finite c) above).lower := by
  cases above
  case false => exact .inr ⟨rfl, hi⟩
  case true  =>
    change _ ≤ Scalar.max (.finite c) i.lower
    rw [Exact.max_eq (by simp) hi]
    split
    case isTrue    => exact .inr ⟨rfl, hi⟩
    case isFalse h => exact (Exact.not_lt (by simp) hi).mp h

theorem upper_clip_le (hi : i.upper ≠ .undefined) : (i.clip (.finite c) above).upper ≤ i.upper := by
  cases above
  case false =>
    change Scalar.min (.finite c) i.upper ≤ _
    rw [Exact.min_eq (by simp) hi]
    split
    case isTrue    => exact .inr ⟨rfl, hi⟩
    case isFalse h => exact (Exact.not_lt hi (by simp)).mp h
  case true => exact .inr ⟨rfl, hi⟩

theorem Separated.partsOn (h : Separated is) : Separated (partsOn (.finite c) above is) where
  proper j hj := (mem_partsOn.mp hj).elim fun _ h => h.2.2
  gaps := by
    refine (List.pairwise_map.mpr <| h.gaps.imp_of_mem fun hi hj hg => ?_).filter _
    have hi := (Exact.defined_of_lt <| h.proper _ hi).2
    have hj := (Exact.defined_of_lt <| h.proper _ hj).1
    exact Exact.lt_of_le_of_lt (upper_clip_le hi) <| Exact.lt_of_lt_of_le hg (le_lower_clip hj)

-- What gets lost is at most the place itself.
theorem mem_union_partsOn (hp : ∀ i ∈ is, i.lower < i.upper) (hx : x ≠ c) :
    x ∈ union (partsOn (.finite c) above is) ↔
      x ∈ union is ∧ if above then c < x else x < c := by
  have hs : (x ∈ if above then Set.Ici c else Set.Iic c) ↔ if above then c < x else x < c := by
    cases above
    case false => exact hx.le_iff_lt
    case true  => exact hx.symm.le_iff_lt
  have hc {i} (hi : i ∈ is) : x ∈ (i.clip (.finite c) above).points ↔
      x ∈ i.points ∧ if above then c < x else x < c := by
    rw [points_clip <| Exact.le_of_lt (hp i hi), Set.mem_inter_iff, hs]
  constructor
  case mp =>
    rintro ⟨j, hj, hxj⟩
    obtain ⟨i, hi, rfl, -⟩ := mem_partsOn.mp hj
    have ⟨hxi, h⟩ := (hc hi).mp hxj
    exact ⟨⟨i, hi, hxi⟩, h⟩
  case mpr =>
    rintro ⟨⟨i, hi, hxi⟩, h⟩
    refine ⟨_, mem_partsOn.mpr ⟨i, hi, rfl, (clip_lt (hp i hi)).mpr ?_⟩, (hc hi).mpr ⟨hxi, h⟩⟩
    cases above
    case false => exact Exact.lt_of_le_of_lt hxi.1 (Exact.finite_lt.mpr h)
    case true  => exact Exact.lt_of_lt_of_le (Exact.finite_lt.mpr h) hxi.2

-- A place parts an interval that it is inside of, and leaves any other one on one of its sides.
theorem sum_size_parts (hi : i.lower < i.upper) :
    Scalar.sum ((partsOn (.finite c) false [i]).map (·.size)) +
      Scalar.sum ((partsOn (.finite c) true [i]).map (·.size)) = i.size := by
  have hd := Exact.defined_of_lt hi
  have hb : (i.clip (.finite c) false).lower < _ ↔ i.lower < .finite c := clip_lt hi
  have ha : (i.clip (.finite c) true).lower < _ ↔ .finite c < i.upper := clip_lt hi
  rw [partsOn_singleton, partsOn_singleton]
  by_cases hl : i.lower < .finite c
  case neg =>
    have hc := (Exact.not_lt hd.1 (by simp)).mp hl
    have he : i.clip (.finite c) true = i := by rw [clip, if_pos rfl, Exact.max_eq_right hc]
    rw [if_neg (hb.not.mpr hl), if_pos (ha.mpr <| Exact.lt_of_le_of_lt hc hi), he, List.map_nil,
      Exact.sum_nil, List.map_singleton, Exact.sum_singleton, Exact.zero_add]
  case pos =>
    rw [if_pos (hb.mpr hl), List.map_singleton, Exact.sum_singleton]
    by_cases hu : .finite c < i.upper
    case neg =>
      have hc := (Exact.not_lt (by simp) hd.2).mp hu
      have he : i.clip (.finite c) false = i := by
        rw [clip, if_neg Bool.false_ne_true, Exact.min_eq_right hc]
      rw [if_neg (ha.not.mpr hu), he, List.map_nil, Exact.sum_nil, Exact.add_zero]
    case pos =>
      have hm : i.clip (.finite c) false = ⟨i.lower, .finite c⟩ := by
        rw [clip, if_neg Bool.false_ne_true, Exact.min_eq (by simp) hd.2,
          if_neg (Exact.not_lt_of_lt hu)]
      have hM : i.clip (.finite c) true = ⟨.finite c, i.upper⟩ := by
        rw [clip, if_pos rfl, Exact.max_eq (by simp) hd.1, if_neg (Exact.not_lt_of_lt hl)]
      rw [if_pos (ha.mpr hu), List.map_singleton, Exact.sum_singleton, hm, hM]
      calc (Exact.finite c + -i.lower) + (i.upper + -Exact.finite c)
        _ = (i.upper + -i.lower) + (.finite c + -.finite c) := by ac_rfl
        _ = i.upper + -i.lower                              := by
          rw [Exact.neg_finite, Exact.finite_add, add_neg_cancel, ← Exact.zero_eq, Exact.add_zero]

theorem sum_size_partsOn (hp : ∀ i ∈ is, i.lower < i.upper) :
    Scalar.sum ((partsOn (.finite c) false is).map (·.size)) +
      Scalar.sum ((partsOn (.finite c) true is).map (·.size)) = Scalar.sum (is.map (·.size)) := by
  induction is
  case nil =>
    simp only [partsOn, List.map_nil, List.filter_nil, Exact.sum_nil, Exact.zero_add]
  case cons i is ih =>
    have ⟨hi, his⟩ := List.forall_mem_cons.mp hp
    have hc (above : Bool) : Scalar.sum ((partsOn (.finite c) above (i :: is)).map (·.size)) =
        Scalar.sum ((partsOn (.finite c) above [i]).map (·.size)) +
          Scalar.sum ((partsOn (.finite c) above is).map (·.size)) := by
      rw [partsOn_cons, List.map_append, Exact.sum_append]
    rw [hc false, hc true, List.map_cons, Exact.sum_cons, ← ih his, ← sum_size_parts (c := c) hi]
    ac_rfl

theorem Separated.eq_nil_iff [IsStrictOrderedRing K] (h : Separated is) (hF : F.Finite) :
    is = [] ↔ ∀ x ∉ F, x ∉ union is := by
  constructor
  case mp  => rintro rfl; simp
  case mpr =>
    refine fun hn => h.ext hF ⟨nofun, .nil⟩ fun x hx => ?_
    simpa using hn x hx

end Interval

namespace Region

open Line

variable {r p q : Region (line (Exact K))} {M : Set K} {c t : K} {dir : Bool} {b : Branch}
variable [IsStrictOrderedRing K]

theorem FittedAt.occupies (h : r.FittedAt t) (ht : 0 ≤ t) (hM : r.locations ⊆ M) :
    r.Occupies M t (Interval.union r.intervals) :=
  have hr := h.cells ht hM
  ⟨h.tolerance, hr, fun _ hq => (mem_intervals hr hq).symm⟩

section Cut

variable (hc : c ∈ M) (hr : r.Occupies M t (Interval.union r.intervals))

include hc hr

theorem mem_partsOn_intervals {x : K} (hx : x ∉ M) :
    x ∈ Interval.union (Interval.partsOn (.finite c) (b.pick dir !dir) r.intervals) ↔
      x ∈ Interval.union r.intervals ∧ OrientedPoint.Beyond 0 ⟨.finite c, dir, .finite t⟩ b x := by
  have hxc : x ≠ c := fun h => hx (h ▸ hc)
  rw [Interval.mem_union_partsOn (separated_intervals hr.fitted).proper hxc,
    OrientedPoint.beyond_iff, add_zero, add_zero]

variable (ht : 0 ≤ t) (hM : Spaced M t) (hf : M.Finite)

include ht hM hf

theorem isEmpty_half_iff : ((r.tree.root.split
    (⟨.finite c, dir, .finite t⟩ : OrientedPoint (Exact K))).on b).isEmpty = true ↔
      Interval.partsOn (.finite c) (b.pick dir !dir) r.intervals = [] := by
  rw [isEmpty_half ht hM hc hr hf, (separated_intervals hr.fitted).partsOn.eq_nil_iff hf]
  refine forall_congr' fun x => forall_congr' fun hx => ?_
  rw [mem_partsOn_intervals hc hr hx, not_and']

theorem intervals_beyond : (r.beyond ⟨.finite c, dir, .finite t⟩ b).intervals =
    Interval.partsOn (.finite c) (b.pick dir !dir) r.intervals := by
  have hs : Interval.Separated (Interval.partsOn (.finite c) (b.pick dir !dir) r.intervals) :=
    (separated_intervals hr.fitted).partsOn
  refine ((occupies_beyond ht hM hc hr).congr fun x hx => ?_).intervals_eq hf hs
  exact (mem_partsOn_intervals hc hr hx).symm

-- In either order, the parts on the two sides of a cut make up the region.
theorem union_beyond (dir : Bool) (b : Branch) :
    ∃ u, (r.beyond ⟨.finite c, dir, .finite t⟩ b).union
      (r.beyond ⟨.finite c, dir, .finite t⟩ b.flip) = .ok u ∧ u.intervals = r.intervals := by
  have part (b) : Occupies M t (r.beyond ⟨.finite c, dir, .finite t⟩ b) _ :=
    occupies_beyond ht hM hc hr
  have ⟨u, hu, ho⟩ := (part b).union ht hM (part b.flip)
  refine ⟨u, hu, (ho.congr fun x hx => ?_).intervals_eq hf <| separated_intervals hr.fitted⟩
  rw [← Set.inter_union_distrib_left, Set.mem_inter_iff, and_iff_left]
  have hb : OrientedPoint.Beyond 0 ⟨.finite c, dir, .finite t⟩ _ x :=
    beyond_outlook fun hxc => hx (hxc ▸ hc)
  rcases b.eq_or_eq_flip (outlook x _) with h | h <;> rw [h] at hb
  case inl => exact .inl hb
  case inr => exact .inr hb

end Cut

end Region
end SpacePartition
