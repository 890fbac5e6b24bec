import Mathlib.Order.Interval.Set.UnorderedInterval
import SpacePartition.Line.Interval
import SpacePartition.Proofs.Scalar.Order

/-!
Lists of intervals in exact arithmetic. Sorting and joining gives intervals in increasing order with
gaps between them, which cover the same points; there is only one such list.
-/

namespace SpacePartition.Interval

variable {K : Type} [Field K] [LinearOrder K]

-- The points of the field in an interval, bounds included.
def points (i : Interval (Exact K)) : Set K :=
  {x | i.lower ≤ .finite x ∧ .finite x ≤ i.upper}

def union (is : List (Interval (Exact K))) : Set K :=
  {x | ∃ i ∈ is, x ∈ i.points}

-- The finite bounds of intervals.
def ends (is : List (Interval (Exact K))) : Set K :=
  {x | ∃ i ∈ is, i.lower = .finite x ∨ i.upper = .finite x}

-- Whether intervals have an interior and come in increasing order, with gaps between them.
structure Separated (is : List (Interval (Exact K))) : Prop where
  proper : ∀ i ∈ is, i.lower < i.upper
  gaps   : is.Pairwise (·.upper < ·.lower)

-- The same of intervals that may be single points.
structure Ordered (is : List (Interval (Exact K))) : Prop where
  le   : ∀ i ∈ is, i.lower ≤ i.upper
  gaps : is.Pairwise (·.upper < ·.lower)

variable {i j : Interval (Exact K)} {is js : List (Interval (Exact K))} {x y e : K}

@[simp]
theorem union_nil : union ([] : List (Interval (Exact K))) = ∅ := by
  simp [union]

@[simp]
theorem union_cons : union (i :: is) = i.points ∪ union is := by
  ext x
  simp [union]

theorem union_perm (h : is.Perm js) : union is = union js := by
  ext x
  simp [union, h.mem_iff]

omit [Field K] [LinearOrder K] in
@[simp]
theorem normalize_nil {R : Type} [Scalar R] : normalize ([] : List (Interval R)) = [] := by
  simp [normalize, join]

omit [Field K] [LinearOrder K] in
@[simp]
theorem normalize_singleton {R : Type} [Scalar R] (i : Interval R) : normalize [i] = [i] := by
  simp [normalize, join, joinFrom]

section Join

-- Two intervals that overlap or touch make up one interval.
theorem points_extend (hi : i.lower ≤ i.upper) (hj : j.lower ≤ j.upper) (hij : i.lower ≤ j.lower)
    (h : j.lower ≤ i.upper) :
    points { i with upper := Scalar.max i.upper j.upper } = i.points ∪ j.points := by
  have hiu := (Exact.defined_of_le hi).2
  have hju := (Exact.defined_of_le hj).2
  have hm : Scalar.max i.upper j.upper = if i.upper < j.upper then j.upper else i.upper :=
    Exact.max_eq hiu hju
  ext x
  constructor
  case mp =>
    intro ⟨hl, hu⟩
    by_cases hx : Exact.finite x ≤ i.upper
    case pos => exact .inl ⟨hl, hx⟩
    case neg =>
      have hx := (Exact.not_le (by simp) hiu).mp hx
      rw [hm] at hu
      split at hu
      case isTrue  => exact .inr ⟨.inl <| Exact.lt_of_le_of_lt h hx, hu⟩
      case isFalse => exact absurd (Exact.lt_of_lt_of_le hx hu) Exact.lt_irrefl
  case mpr =>
    rintro (⟨hl, hu⟩ | ⟨hl, hu⟩)
    case inl =>
      refine ⟨hl, hm ▸ ?_⟩
      split
      case isTrue h' => exact .inl <| Exact.lt_of_le_of_lt hu h'
      case isFalse   => exact hu
    case inr =>
      refine ⟨Exact.le_trans hij hl, hm ▸ ?_⟩
      split
      case isTrue     => exact hu
      case isFalse h' =>
        exact Exact.le_trans hu <| (Exact.not_lt hiu hju).mp h'

theorem upper_le_max (hi : i.lower ≤ i.upper) (hj : j.lower ≤ j.upper) :
    i.upper ≤ Scalar.max i.upper j.upper := by
  have hiu := (Exact.defined_of_le hi).2
  rw [Exact.max_eq hiu (Exact.defined_of_le hj).2]
  split
  case isTrue h => exact Exact.le_of_lt h
  case isFalse  => exact .inr ⟨rfl, hiu⟩

-- What joining makes of a sorted list starts where the list does.
theorem ordered_joinFrom (hp : ∀ j ∈ i :: js, j.lower ≤ j.upper)
    (hs : (i :: js).Pairwise (·.lower ≤ ·.lower)) :
    Ordered (joinFrom i js) ∧ (∀ j ∈ joinFrom i js, i.lower ≤ j.lower) ∧
      union (joinFrom i js) = union (i :: js) := by
  induction js generalizing i
  case nil =>
    have hi := hp i List.mem_cons_self
    have hl := (Exact.defined_of_le hi).1
    refine ⟨⟨hp, List.pairwise_singleton _ _⟩, ?_, rfl⟩
    simp only [joinFrom, List.mem_singleton, forall_eq]
    exact .inr ⟨rfl, hl⟩
  case cons j js ih =>
    have hi := hp i List.mem_cons_self
    have hj := hp j (by simp)
    obtain ⟨hij, hjs⟩ := List.pairwise_cons.mp hs
    rw [joinFrom]
    split
    case isTrue h =>
      have ⟨hs', hl, hu⟩ := @ih { i with upper := Scalar.max i.upper j.upper } ?le ?sorted
      case le =>
        refine List.forall_mem_cons.mpr
          ⟨Exact.le_trans hi (upper_le_max hi hj), fun k hk => hp k ?_⟩
        exact List.mem_cons_of_mem _ <| List.mem_cons_of_mem _ hk
      case sorted =>
        exact List.pairwise_cons.mpr
          ⟨fun k hk => hij k (by simp [hk]), (List.pairwise_cons.mp hjs).2⟩
      refine ⟨hs', hl, ?_⟩
      rw [hu, union_cons, union_cons, union_cons, ← Set.union_assoc,
        points_extend hi hj (hij j List.mem_cons_self) h]
    case isFalse h =>
      have h := (Exact.not_le (Exact.defined_of_le hj).1 (Exact.defined_of_le hi).2).mp h
      have ⟨hs', hl, hu⟩ := ih (fun k hk => hp k (by simp [hk])) hjs
      refine ⟨⟨?bounds, List.pairwise_cons.mpr ⟨fun k hk => ?gap, hs'.gaps⟩⟩, ?lower, ?union⟩
      case bounds => exact List.forall_mem_cons.mpr ⟨hi, hs'.le⟩
      case gap    => exact Exact.lt_of_lt_of_le h (hl k hk)
      case lower =>
        refine List.forall_mem_cons.mpr ⟨.inr ⟨rfl, (Exact.defined_of_le hi).1⟩, fun k hk => ?_⟩
        exact Exact.le_trans (hij j List.mem_cons_self) (hl k hk)
      case union => rw [union_cons, hu, ← union_cons]

-- Joining makes no single points.
theorem proper_joinFrom (hp : ∀ j ∈ i :: js, j.lower < j.upper) :
    ∀ j ∈ joinFrom i js, j.lower < j.upper := by
  fun_induction joinFrom i js
  case case1 => exact hp
  case case2 i j js _ ih =>
    obtain ⟨hi, hj, hjs⟩ := List.forall_mem_cons.mp hp |>.imp_right List.forall_mem_cons.mp
    have hm := upper_le_max (Exact.le_of_lt hi) (Exact.le_of_lt hj)
    exact ih <| List.forall_mem_cons.mpr ⟨Exact.lt_of_lt_of_le hi hm, hjs⟩
  case case3 ih =>
    have ⟨hi, hjs⟩ := List.forall_mem_cons.mp hp
    exact List.forall_mem_cons.mpr ⟨hi, ih hjs⟩

theorem pairwise_sort (hp : ∀ i ∈ is, i.lower ≤ i.upper) :
    (is.mergeSort fun i j => Scalar.totalLE i.lower j.lower).Pairwise (·.lower ≤ ·.lower) := by
  let le (i j : Interval (Exact K)) := Scalar.totalLE i.lower j.lower
  have le_iff {i j} : le i j = true ↔ i.lower = .undefined ∨ i.lower ≤ j.lower := Exact.totalLE_iff
  have hs : (is.mergeSort le).Pairwise (le · ·) :=
    List.pairwise_mergeSort (fun i j k => ?trans) (fun i j => ?total) is
  case trans =>
    simp only [le_iff]
    rintro (h | h) (h' | h')
    case inl.inl => exact .inl h
    case inl.inr => exact .inl h
    case inr.inl => rw [h', Exact.le_iff] at h; simp_all
    case inr.inr => exact .inr <| Exact.le_trans h h'
  case total =>
    simp only [Bool.or_eq_true, le_iff, Exact.le_iff]
    by_cases hi : i.lower = .undefined
    case pos => exact .inl <| .inl hi
    case neg =>
      by_cases hj : j.lower = .undefined
      case pos => exact .inr <| .inl hj
      case neg => have := Exact.lt_trichotomy hi hj; tauto
  refine hs.imp_of_mem fun hi _ h => ?_
  have hi := hp _ <| (List.mergeSort_perm _ _).mem_iff.mp hi
  exact (le_iff.mp h).resolve_left (Exact.defined_of_le hi).1

theorem ordered_normalize (hp : ∀ i ∈ is, i.lower ≤ i.upper) :
    Ordered (normalize is) ∧ union (normalize is) = union is := by
  have hs := pairwise_sort hp
  have hm := List.mergeSort_perm is fun i j => Scalar.totalLE i.lower j.lower
  rw [← union_perm hm, normalize]
  generalize is.mergeSort _ = js at hs hm
  cases js
  case nil  => exact ⟨⟨nofun, .nil⟩, rfl⟩
  case cons =>
    have ⟨h, _, hu⟩ := ordered_joinFrom (fun i hi => hp i <| hm.mem_iff.mp hi) hs
    exact ⟨h, hu⟩

theorem proper_normalize (hp : ∀ i ∈ is, i.lower < i.upper) :
    ∀ i ∈ normalize is, i.lower < i.upper := by
  have hm := List.mergeSort_perm is fun i j => Scalar.totalLE i.lower j.lower
  rw [normalize]
  generalize is.mergeSort _ = js at hm
  cases js
  case nil  => exact nofun
  case cons => exact proper_joinFrom fun i hi => hp i <| hm.mem_iff.mp hi

theorem separated_normalize (hp : ∀ i ∈ is, i.lower < i.upper) :
    Separated (normalize is) ∧ union (normalize is) = union is := by
  have ⟨h, hu⟩ := ordered_normalize fun i hi => Exact.le_of_lt (hp i hi)
  exact ⟨⟨proper_normalize hp, h.gaps⟩, hu⟩

end Join

section Unique

theorem Separated.tail (h : Separated (i :: is)) : Separated is :=
  ⟨fun _ hi => h.proper _ <| List.mem_cons_of_mem _ hi, (List.pairwise_cons.mp h.gaps).2⟩

theorem Separated.head (h : Separated (i :: is)) : i.lower < i.upper :=
  h.proper i List.mem_cons_self

-- The points of an interval come before those of the intervals after it.
theorem Separated.not_mem_tail (h : Separated (i :: is)) (hx : .finite x ≤ i.upper) :
    x ∉ union is := by
  rintro ⟨j, hj, hl, _⟩
  exact Exact.lt_irrefl <| Exact.lt_of_le_of_lt hl <| Exact.lt_of_le_of_lt hx <|
    (List.pairwise_cons.mp h.gaps).1 j hj

theorem Separated.not_mem_of_lt (h : Separated (i :: is)) (hx : .finite x < i.lower) :
    x ∉ union (i :: is) := by
  rw [union_cons]
  rintro (hi | hi)
  case inl => exact Exact.lt_irrefl <| Exact.lt_of_lt_of_le hx hi.1
  case inr => exact h.not_mem_tail (.inl <| Exact.lt_trans hx h.head) hi

theorem Separated.mem_cons_of_upper_lt (hx : i.upper < .finite x) :
    x ∈ union (i :: is) ↔ x ∈ union is := by
  rw [union_cons]
  refine or_iff_right fun hi => ?_
  exact Exact.lt_irrefl <| Exact.lt_of_lt_of_le hx hi.2

variable [IsStrictOrderedRing K] {F : Set K}

theorem Separated.lower_le (hF : F.Finite) (hi : Separated (i :: is)) (hj : Separated (j :: js))
    (h : ∀ x ∉ F, x ∈ union (i :: is) → x ∈ union (j :: js)) : ¬i.lower < j.lower := by
  intro hl
  have ⟨x, hx, hlx, hxu, hxj⟩ := Exact.exists_between_both hF hi.head hl
  exact hj.not_mem_of_lt hxj <| h x hx ⟨i, List.mem_cons_self, .inl hlx, .inl hxu⟩

theorem Separated.upper_le (hF : F.Finite) (hi : Separated (i :: is)) (hl : j.lower < i.upper)
    (h : ∀ x ∉ F, x ∈ union (j :: js) → x ∈ union (i :: is)) : ¬i.upper < j.upper := by
  intro hu
  have ⟨x, hx, hux, hxu, hxi⟩ : ∃ x ∉ F, i.upper < .finite x ∧ .finite x < j.upper ∧
      x ∉ union is := by
    cases is
    case nil =>
      have ⟨x, hx, hux, hxu⟩ := Exact.exists_between hF hu
      exact ⟨x, hx, hux, hxu, by simp⟩
    case cons k ks =>
      have hk := (List.pairwise_cons.mp hi.gaps).1 k List.mem_cons_self
      have ⟨x, hx, hux, hxu, hxk⟩ := Exact.exists_between_both hF hu hk
      exact ⟨x, hx, hux, hxu, hi.tail.not_mem_of_lt hxk⟩
  have hxj : x ∈ union (j :: js) :=
    ⟨j, List.mem_cons_self, .inl <| Exact.lt_trans hl hux, .inl hxu⟩
  exact hxi <| (mem_cons_of_upper_lt hux).mp <| h x hx hxj

-- Finitely many points do not tell apart lists of separated intervals.
theorem Separated.ext (hF : F.Finite) (hi : Separated is) (hj : Separated js)
    (h : ∀ x ∉ F, x ∈ union is ↔ x ∈ union js) : is = js := by
  have inhabited {i is} (hi : Separated (i :: is)) : ∃ x ∉ F, x ∈ union (i :: is) := by
    have ⟨x, hx, hl, hu⟩ := Exact.exists_between hF hi.head
    exact ⟨x, hx, i, List.mem_cons_self, .inl hl, .inl hu⟩
  induction is generalizing js
  case nil =>
    cases js
    case nil  => rfl
    case cons =>
      have ⟨x, hx, hxj⟩ := inhabited hj
      exact absurd ((h x hx).mpr hxj) (by simp)
  case cons i is ih =>
    cases js
    case nil =>
      have ⟨x, hx, hxi⟩ := inhabited hi
      exact absurd ((h x hx).mp hxi) (by simp)
    case cons j js =>
      have hil := Exact.defined_of_lt hi.head
      have hjl := Exact.defined_of_lt hj.head
      have hl : i.lower = j.lower := by
        have h₁ := hi.lower_le hF hj fun x hx => (h x hx).mp
        have h₂ := hj.lower_le hF hi fun x hx => (h x hx).mpr
        exact (Exact.lt_trichotomy hil.1 hjl.1).resolve_left h₁ |>.resolve_right h₂
      have hu : i.upper = j.upper := by
        have h₁ := hi.upper_le hF (hl ▸ hi.head) fun x hx => (h x hx).mpr
        have h₂ := hj.upper_le hF (hl ▸ hj.head) fun x hx => (h x hx).mp
        exact (Exact.lt_trichotomy hil.2 hjl.2).resolve_left h₁ |>.resolve_right h₂
      have hij : i = j := by
        cases i
        cases j
        cases hl
        cases hu
        rfl
      subst hij
      refine congrArg (i :: ·) <| ih hi.tail hj.tail fun x hx => ?_
      by_cases hxu : Exact.finite x ≤ i.upper
      case pos => exact iff_of_false (hi.not_mem_tail hxu) (hj.not_mem_tail hxu)
      case neg =>
        have hxu := (Exact.not_le (by simp) hil.2).mp hxu
        have hx := h x hx
        rwa [mem_cons_of_upper_lt hxu, mem_cons_of_upper_lt hxu] at hx

end Unique

-- On the way from a point of the intervals to one that is in none of them there is a bound.
theorem exists_end_between (hx : x ∈ union is) (hy : y ∉ union is) :
    ∃ e ∈ ends is, e ∈ Set.uIcc x y := by
  have ⟨i, hi, hl, hu⟩ := hx
  by_cases hyl : i.lower ≤ .finite y
  case pos =>
    have hyu : ¬Exact.finite y ≤ i.upper := fun hyu => hy ⟨i, hi, hyl, hyu⟩
    rcases hu' : i.upper with e | (_ | _) | _ <;> rw [hu'] at hu hyu
    case finite =>
      rw [Exact.finite_le] at hu hyu
      exact ⟨e, ⟨i, hi, .inr hu'⟩, Set.mem_uIcc_of_le hu (not_le.mp hyu).le⟩
    all_goals simp [Exact.le_iff] at hu hyu
  case neg =>
    rcases hl' : i.lower with e | (_ | _) | _ <;> rw [hl'] at hl hyl
    case finite =>
      rw [Exact.finite_le] at hl hyl
      exact ⟨e, ⟨i, hi, .inl hl'⟩, Set.mem_uIcc_of_ge (not_le.mp hyl).le hl⟩
    all_goals simp [Exact.le_iff] at hl hyl

end SpacePartition.Interval
