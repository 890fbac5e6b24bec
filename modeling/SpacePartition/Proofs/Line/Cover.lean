import SpacePartition.Proofs.Line.Clipping
import SpacePartition.Proofs.Region.Uniform
import SpacePartition.Proofs.Scalar.Orderly

/-!
Full regions of the line. The cells of their leaves leave no gap, wherever the cuts lie and in
whatever order, so that they join to the whole line in rounded arithmetic too.
-/

namespace SpacePartition

open Scalar

variable {R ι : Type} [Scalar R]

namespace Interval

-- Whether the bounds of intervals are numbers, and the numbers between two bounds are in them.
structure Covers (l u : R) (is : List (Interval R)) : Prop where
  defined : ∀ i ∈ is, isNaN i.lower = false ∧ isNaN i.upper = false
  mem     : ∀ y, l ≤ y → y < u → ∃ i ∈ is, i.lower ≤ y ∧ y < i.upper

variable {i r : Interval R} {is js rest : List (Interval R)} {l u : R}

theorem lower_joinFrom : ∀ k ∈ joinFrom i js, ∃ c ∈ i :: js, k.lower = c.lower := by
  fun_induction joinFrom i js
  case case1 => simp
  case case2 hi =>
    intro k hk
    obtain ⟨c, hc, hkc⟩ := hi k hk
    cases hc
    case head    => exact ⟨_, List.mem_cons_self, hkc⟩
    case tail hc => exact ⟨c, List.mem_cons_of_mem _ <| List.mem_cons_of_mem _ hc, hkc⟩
  case case3 i j js _ hi =>
    intro k hk
    cases hk
    case head    => exact ⟨_, List.mem_cons_self, rfl⟩
    case tail hk => exact (hi k hk).imp fun _ h => ⟨List.mem_cons_of_mem _ h.1, h.2⟩

variable [Orderly R]

-- The first of the joined intervals has all that reaches it, and the others are beyond it.
theorem exists_joinFrom (hd : ∀ j ∈ i :: js, isNaN j.lower = false ∧ isNaN j.upper = false)
    (hs : (i :: js).Pairwise (·.lower ≤ ·.lower)) :
    ∃ r rest, joinFrom i js = r :: rest ∧ r.lower = i.lower ∧ i.upper ≤ r.upper ∧
      (∀ k ∈ rest, ¬k.lower ≤ r.upper) ∧ ∀ c ∈ js, c.lower ≤ r.upper → c.upper ≤ r.upper := by
  induction js generalizing i
  case nil =>
    exact ⟨i, [], rfl, rfl, le_refl (hd i List.mem_cons_self).2, nofun, nofun⟩
  case cons j js ih =>
    have ⟨hi, hdj⟩ := List.forall_mem_cons.mp hd
    have ⟨hj, hdjs⟩ := List.forall_mem_cons.mp hdj
    have ⟨hij, hjs⟩ := List.pairwise_cons.mp hs
    rw [joinFrom]
    split
    case isTrue h =>
      obtain ⟨hmi, hmj⟩ := le_max hi.2 hj.2
      obtain ⟨r, rest, he, hl, hu, hb, hr⟩ := @ih { i with upper := Scalar.max i.upper j.upper }
        (List.forall_mem_cons.mpr ⟨⟨hi.1, isNaN_max hi.2 hj.2⟩, hdjs⟩)
        (List.pairwise_cons.mpr ⟨(List.forall_mem_cons.mp hij).2, (List.pairwise_cons.mp hjs).2⟩)
      refine ⟨r, rest, he, hl, Orderly.le_trans hmi hu, hb,
        List.forall_mem_cons.mpr ⟨fun _ => ?_, hr⟩⟩
      exact Orderly.le_trans hmj hu
    case isFalse h =>
      have beyond {c} (hc : c ∈ j :: js) : ¬c.lower ≤ i.upper := by
        refine fun hn => h <| Orderly.le_trans ?_ hn
        cases hc
        case head    => exact le_refl hj.1
        case tail hc => exact (List.pairwise_cons.mp hjs).1 _ hc
      refine ⟨i, joinFrom j js, rfl, rfl, le_refl hi.2, fun k hk => ?apart, fun c hc hn => ?covered⟩
      case apart =>
        obtain ⟨c, hc, hkc⟩ := lower_joinFrom k hk
        exact hkc ▸ beyond hc
      case covered => exact absurd hn (beyond hc)

theorem pairwise_lower (hd : ∀ i ∈ is, isNaN i.lower = false ∧ isNaN i.upper = false) :
    (is.mergeSort fun i j => totalLE i.lower j.lower).Pairwise (·.lower ≤ ·.lower) := by
  have hs : (is.mergeSort fun i j => totalLE i.lower j.lower).Pairwise
      fun i j => totalLE i.lower j.lower := by
    refine List.pairwise_mergeSort ?trans ?total is
    case trans => exact fun _ _ _ => Orderly.totalLE_trans
    case total => exact fun _ _ => Orderly.totalLE_total _ _
  have hm {i} := (List.mergeSort_perm is fun i j => totalLE i.lower j.lower).mem_iff (a := i)
  exact hs.imp_of_mem fun hi hj h =>
    Orderly.le_of_totalLE (hd _ <| hm.mp hi).1 (hd _ <| hm.mp hj).1 h

-- Intervals without gaps are joined to one.
theorem Covers.normalize (h : Covers (-infinity) infinity is) :
    Interval.normalize is = [⟨-infinity, infinity⟩] := by
  have hm := List.mergeSort_perm is fun i j => totalLE i.lower j.lower
  have hs := pairwise_lower h.defined
  have hd := fun i hi => h.defined i (hm.mem_iff.mp hi)
  have hc := fun y hl hu => (h.mem y hl hu).imp fun i => And.imp_left hm.mem_iff.mpr
  rw [Interval.normalize]
  generalize is.mergeSort _ = js at hs hd hc
  obtain ⟨c, hcm, hcl, _⟩ := hc _ (le_refl Orderly.isNaN_neg_infinity) Orderly.neg_infinity_lt
  cases js
  case nil => cases hcm
  case cons i js =>
    obtain ⟨r, rest, he, hl, hu, hb, hr⟩ := exists_joinFrom hd hs
    have hil : i.lower ≤ -infinity := by
      cases hcm
      case head     => exact hcl
      case tail hcm => exact Orderly.le_trans ((List.pairwise_cons.mp hs).1 c hcm) hcl
    have hrl : r.lower = -infinity := hl.trans <| Orderly.eq_neg_infinity hil
    have hru : r.upper = infinity := by
      have hn := (Orderly.defined_of_le hu).2
      refine Orderly.eq_infinity <| by_contra fun hlt => ?_
      obtain ⟨c, hcm, hcl, hcu⟩ := hc r.upper (neg_infinity_le hn) <|
        (Orderly.not_le isNaN_infinity hn).mp hlt
      refine (Orderly.not_le (hd c hcm).2 hn).mpr hcu ?_
      cases hcm
      case head     => exact hu
      case tail hcm => exact hr c hcm hcl
    have hrest : rest = [] := by
      refine List.eq_nil_iff_forall_not_mem.mpr fun k hk => hb k hk ?_
      obtain ⟨c, hc, hkc⟩ := lower_joinFrom k (he ▸ List.mem_cons_of_mem _ hk)
      rw [hru, hkc]
      exact Orderly.le_infinity (hd c hc).1
    rw [join, he, hrest]
    cases r
    cases hrl
    cases hru
    rfl

end Interval

theorem Node.Uniform.insideCells_eq_nil {n : Node (line R) ι Bool} (hn : n.Uniform false)
    {cell : Interval R} : n.insideCells cell = [] := by
  induction n generalizing cell
  case leaf i a =>
    have hi : (a == some true) = false := hn
    simp [insideCells, hi]
  case fork hp hm => simp only [insideCells, hp hn.1, hm hn.2, ite_self, List.append_nil]

variable [Orderly R]

-- The cells of inside leaves cover the cell of their node, if there are no others.
theorem Node.Uniform.covers {n : Node (line R) ι Bool} (hn : n.Uniform true) (cell : Interval R)
    (hl : isNaN cell.lower = false) (hu : isNaN cell.upper = false)
    (hc : ∀ s ∈ n.cuts, isNaN (OrientedPoint.location s) = false) :
    Interval.Covers cell.lower cell.upper (n.insideCells cell) := by
  induction n generalizing cell
  case leaf i a =>
    have hi : (leaf (S := line R) i a).insideCells cell = [cell] := if_pos hn
    rw [hi]
    exact ⟨by simp [hl, hu], fun y hl hu => ⟨cell, List.mem_singleton_self _, hl, hu⟩⟩
  case fork i a cut plus minus hp hm =>
    obtain ⟨hx, hcp, hcm⟩ := Node.forall_cuts_fork.mp hc
    have side (above) (cell : Interval R) (hl : isNaN cell.lower = false)
        (hu : isNaN cell.upper = false) : Interval.Covers cell.lower cell.upper
          (((OrientedPoint.toward cut above).pick plus minus).insideCells cell) := by
      cases OrientedPoint.toward cut above
      case plus  => exact hp hn.1 _ hl hu hcp
      case minus => exact hm hn.2 _ hl hu hcm
    have hlower := side false (cell.clip cut.location false) hl (isNaN_min hx hu)
    have hupper := side true (cell.clip cut.location true) (isNaN_max hx hl) hu
    constructor
    case defined =>
      intro j hj
      obtain ⟨above, -, hj⟩ := Node.mem_insideCells_fork.mp hj
      cases above
      case false => exact hlower.defined j hj
      case true  => exact hupper.defined j hj
    case mem =>
      intro y hly hyu
      have hy := (Orderly.defined_of_le hly).2
      by_cases hxy : cut.location ≤ y
      case pos =>
        obtain ⟨j, hj, h⟩ := hupper.mem y (max_le hxy hly) hyu
        have hm : cut.location ≤ cell.upper := Orderly.le_trans hxy <| le_of_lt hy hu hyu
        exact ⟨j, Node.mem_insideCells_fork.mpr ⟨true, hm, hj⟩, h⟩
      case neg =>
        have hyx := (Orderly.not_le hx hy).mp hxy
        obtain ⟨j, hj, h⟩ := hlower.mem y hly (lt_min hx hu hyx hyu)
        have hm : cell.lower ≤ cut.location := Orderly.le_trans hly <| le_of_lt hy hx hyx
        exact ⟨j, Node.mem_insideCells_fork.mpr ⟨false, hm, hj⟩, h⟩

end SpacePartition
