import SpacePartition.Proofs.Line.Parts
import SpacePartition.Proofs.Plane.Lines

/-!
The plane in exact arithmetic, cut along lines across its axes. The cells are open rectangles, and a
cut spans a cell if its region is what its line has of the cell. A cut is not told apart from the
other parts of its line in the same cell: their regions may be partitioned in different ways.
-/

namespace SpacePartition

variable {K : Type} [Field K]

namespace AxisLine

variable {l w : AxisLine K} {L : Axis → Set K} {t a : K} {b : Branch}

-- The abscissas at which the lines through the places of the other axis cross a line.
def marks (l : AxisLine K) (L : Axis → Set K) : Set K :=
  {a | ∃ axis ≠ l.axis, l.pointAt a axis ∈ L axis}

theorem mem_marks {axis : Axis} (h : axis ≠ l.axis) :
    a ∈ l.marks L ↔ sign l.sense * a ∈ L axis := by
  rw [← pointAt_of_ne h]
  constructor
  case mp  => exact fun ⟨_, h', hm⟩ => Axis.eq_of_ne h.symm h' ▸ hm
  case mpr => exact fun hm => ⟨axis, h, hm⟩

theorem sign_mul_cancel (direct : Bool) : sign direct * (sign direct * a) = a := by
  rw [← mul_assoc, sign_mul_sign, one_mul]

theorem crossing_mem (h : l.axis ≠ w.axis) (hw : w.place ∈ L w.axis) :
    sign l.sense * w.place ∈ l.marks L := by
  rwa [mem_marks h.symm, sign_mul_cancel]

theorem finite_marks (h : ∀ axis, (L axis).Finite) (l : AxisLine K) : (l.marks L).Finite := by
  have ⟨axis, ha⟩ := l.axis.exists_ne
  have hi : Function.Injective (sign (K := K) l.sense * ·) := fun x y hxy => by
    have hxy : sign l.sense * x = sign l.sense * y := hxy
    rw [← sign_mul_cancel (a := x) l.sense, hxy, sign_mul_cancel]
  refine ((h axis).preimage hi.injOn).subset fun a h => ?_
  exact (mem_marks ha).mp h

variable [LinearOrder K]

theorem spaced_marks (h : ∀ axis, Line.Spaced (L axis) t) (l : AxisLine K) :
    Line.Spaced (l.marks L) t := by
  have ⟨axis, ha⟩ := l.axis.exists_ne
  intro x hx y hy
  have hxy := h axis _ ((mem_marks ha).mp hx) _ ((mem_marks ha).mp hy)
  have hd : |sign l.sense * x - sign l.sense * y| = |x - y| := by
    cases l.sense
    case false => rw [← abs_neg, sign]; simp [neg_add_eq_sub]
    case true  => simp [sign]
  rw [hd] at hxy
  refine hxy.imp_left fun he => ?_
  rw [← sign_mul_cancel (a := x) l.sense, he, sign_mul_cancel]

theorem line_injective [IsStrictOrderedRing K] (h : l.line t = w.line t) : l = w := by
  have hs : (-1 : K) ≠ 1 := (neg_lt_self one_pos).ne
  obtain ⟨_ | _, c, _ | _⟩ := l <;> obtain ⟨_ | _, c', _ | _⟩ := w <;>
    simp_all [line, sign, hs.symm]

end AxisLine

variable [LinearOrder K]

-- Whether lines through the places of the axes are parallel within the tolerance only if they are
-- parallel, and equal or farther apart than the tolerance.
structure Grid (L : Axis → Set K) (t : K) : Prop where
  finite : ∀ axis, (L axis).Finite
  spaced : ∀ axis, Line.Spaced (L axis) t
  pos    : 0 < t
  le_one : t ≤ 1

namespace Embedded

section Split

variable {R : Type} [Scalar R] {E : Embedding R} {s part : Embedded E} {h : E.Hyperplane}
variable {b : Branch}

theorem split_of_parallel {d : R} (ht : E.trace s.hyperplane h = .parallel d) :
    s.split h = if d < -E.tolerance s.hyperplane then ⟨none, some s⟩
      else if E.tolerance s.hyperplane < d then ⟨some s, none⟩
      else ⟨none, none⟩ := by
  simp only [split, ht]

theorem split_of_crossing {c : E.inner.Hyperplane} (ht : E.trace s.hyperplane h = .crossing c) :
    (s.split h).on b = s.part (b.pick (E.inner.reversed c) c)
      ((s.remaining.tree.root.split (E.inner.whole c)).on b) := by
  simp only [split, ht]
  cases b <;> rfl

-- A part is of the hyperplane that it is part of.
theorem hyperplane_part (hp : (s.split h).on b = some part) : part.hyperplane = s.hyperplane := by
  cases ht : E.trace s.hyperplane h
  case parallel d =>
    rw [split_of_parallel ht] at hp
    split at hp
    case isTrue => cases b <;> cases hp; rfl
    case isFalse =>
      split at hp
      case isTrue  => cases b <;> cases hp; rfl
      case isFalse => cases b <;> cases hp
  case crossing c =>
    rw [split_of_crossing ht, Embedded.part] at hp
    split at hp
    case isTrue  => cases hp
    case isFalse => cases hp; rfl

theorem split_on_of_crossing {s : SubLine R} {h : OrientedLine R} {q : OrientedPoint R}
    (hq : OrientedLine.trace s.hyperplane h = .crossing q) : (s.split h).on b =
      if (((s.remaining.tree.root : Node (line R) Nat Bool).split q).on b).isEmpty
      then none else some ⟨s.hyperplane, s.remaining.beyond q b⟩ := by
  have hE : (OrientedLine.embedding R).trace s.hyperplane h = _ := hq
  rw [split_of_crossing hE]
  rfl

end Split

open AxisLine

variable {s : SubLine (Exact K)} {l w : AxisLine K} {t : K} {b : Branch} [IsStrictOrderedRing K]
variable (hs : s.hyperplane = l.line t)

include hs

theorem split_parallel (h : l.axis = w.axis) (ht : 0 < t) :
    (s.split (w.line t)).on b = (((l.point t).split (w.point t)).on b).map fun _ => s := by
  have hE : (OrientedLine.embedding (Exact K)).trace s.hyperplane (w.line t) = _ :=
    hs ▸ trace_parallel h ht
  have htol : (OrientedLine.embedding (Exact K)).tolerance s.hyperplane = .finite t := by
    rw [hs]
    obtain ⟨_ | _, _, _⟩ := l <;> rfl
  rw [split_of_parallel hE, htol, OrientedPoint.split]
  have hd : (w.point t).offset (l.point t).location = (w.point t).offset (.finite l.place) := rfl
  have hw : (w.point t).tolerance = .finite t := rfl
  simp only [hd, hw, Exact.neg_finite]
  by_cases hm : (w.point t).offset (.finite l.place) < .finite (-t)
  case pos => cases b <;> simp [hm, Parts.on]
  case neg =>
    by_cases hp : Exact.finite t < (w.point t).offset (.finite l.place) <;>
      cases b <;> simp [hm, hp, Parts.on]

theorem split_crossing (h : l.axis ≠ w.axis) (ht : t ≤ 1) : (s.split (w.line t)).on b =
    if (((s.remaining.tree.root : Node (line (Exact K)) Nat Bool).split
        (l.crossing w t)).on b).isEmpty
    then none else some ⟨s.hyperplane, s.remaining.beyond (l.crossing w t) b⟩ :=
  split_on_of_crossing <| hs ▸ trace_crossing h ht

end Embedded

namespace Plane

open AxisLine Line

variable {L : Axis → Set K} {t a : K} {C : Set (Axis → K)} {p : Axis → K} {b : Branch}
variable {l w : AxisLine K} {s part cut : SubLine (Exact K)}

-- Whether a part of a line is what the line has of a cell.
structure Fills (L : Axis → Set K) (t : K) (C : Set (Axis → K)) (l : AxisLine K)
    (s : SubLine (Exact K)) : Prop where
  line     : s.hyperplane = l.line t
  place    : l.place ∈ L l.axis
  occupies : Region.Occupies (l.marks L) t s.remaining {a | l.pointAt a ∈ C}
  nonempty : ∃ a ∉ l.marks L, l.pointAt a ∈ C

theorem Fills.place_mem {A : Axis → Set K} (hs : Fills L t {p | ∀ axis, p axis ∈ A axis} l s) :
    l.place ∈ A l.axis := by
  have ⟨_, _, ha⟩ := hs.nonempty
  have ha := ha l.axis
  rwa [pointAt_axis] at ha

-- Open cells, cut along lines across the axes through places of a set.
def cells (L : Axis → Set K) (t : K) : Layout (plane (Exact K)) (Axis → K) where
  half h b := {p | (∃ l : AxisLine K, h = l.line t) ∧
    0 < b.pick (OrientedLine.offset h (planePoint p)) (-OrientedLine.offset h (planePoint p))}
  Spans C s := ∃ l, Fills L t C l s

theorem mem_half : p ∈ (cells L t).half (l.line t) b ↔
    OrientedPoint.Beyond 0 (l.point t) b (p l.axis) := by
  change _ ∧ (0 : Exact K) < b.pick ((l.line t).offset (planePoint p)) _ ↔ _
  rw [offset_line]
  exact and_iff_right ⟨l, rfl⟩

-- A line lies on one side of a parallel line, and changes sides where it crosses another one.
theorem pointAt_parallel (h : l.axis = w.axis) : l.pointAt a ∈ (cells L t).half (w.line t) b ↔
    OrientedPoint.Beyond 0 (w.point t) b l.place := by
  rw [mem_half, ← h, pointAt_axis]

variable [IsStrictOrderedRing K]

theorem pointAt_crossing (h : l.axis ≠ w.axis) : l.pointAt a ∈ (cells L t).half (w.line t) b ↔
    OrientedPoint.Beyond 0 (l.crossing w t) b a := by
  rw [mem_half, beyond_crossing h]

section Part

variable (g : Grid L t) (hs : Fills L t C l s) (hw : w.place ∈ L w.axis)

include g hs hw

theorem part_parallel (h : l.axis = w.axis) : (s.split (w.line t)).on b = some part ↔
    s = part ∧ OrientedPoint.Beyond 0 (w.point t) b l.place := by
  have hl : (l.point t).location = .finite l.place := rfl
  rw [Embedded.split_parallel hs.line h g.pos, Option.map_eq_some_iff]
  constructor
  case mp =>
    rintro ⟨q, hq, rfl⟩
    cases OrientedPoint.part_eq hq
    exact ⟨rfl, (OrientedPoint.split_on hl g.pos.le |>.mp hq).mono g.pos.le⟩
  case mpr =>
    rintro ⟨rfl, hb⟩
    have hb := (g.spaced w.axis).beyond hw (h ▸ hs.place) hb
    exact ⟨_, OrientedPoint.split_on hl g.pos.le |>.mpr hb, rfl⟩

theorem part_crossing (h : l.axis ≠ w.axis) : (s.split (w.line t)).on b = some part ↔
    ⟨s.hyperplane, s.remaining.beyond (l.crossing w t) b⟩ = part ∧
      ∃ a ∉ l.marks L, OrientedPoint.Beyond 0 (l.crossing w t) b a ∧ l.pointAt a ∈ C := by
  rw [Embedded.split_crossing hs.line h g.le_one]
  have he : _ = true ↔ ∀ a ∉ l.marks L, OrientedPoint.Beyond 0 (l.crossing w t) b a →
      a ∉ {a | l.pointAt a ∈ C} :=
    Region.isEmpty_half g.pos.le (spaced_marks g.spaced l) (crossing_mem h hw) hs.occupies
      (finite_marks g.finite l)
  split
  case isTrue hn =>
    have hn := he.mp hn
    exact ⟨nofun, fun ⟨_, a, ha, hb, hC⟩ => absurd hC (hn a ha hb)⟩
  case isFalse hn =>
    have hn := he.not.mp hn
    push Not at hn
    exact ⟨fun hp => ⟨Option.some.inj hp, hn⟩, fun hp => congrArg some hp.1⟩

-- A part has the points of the line that lie on its side, and it is lost if there are none.
theorem exists_part : (∃ part, (s.split (w.line t)).on b = some part) ↔
    ∃ a ∉ l.marks L, l.pointAt a ∈ C ∩ (cells L t).half (w.line t) b := by
  by_cases h : l.axis = w.axis
  case pos =>
    simp only [part_parallel g hs hw h, Set.mem_inter_iff, pointAt_parallel h]
    constructor
    case mp  => exact fun ⟨_, _, hb⟩ => hs.nonempty.imp fun _ h => ⟨h.1, h.2, hb⟩
    case mpr => exact fun ⟨_, _, _, hb⟩ => ⟨s, rfl, hb⟩
  case neg =>
    simp only [part_crossing g hs hw h, Set.mem_inter_iff, pointAt_crossing h]
    constructor
    case mp  => exact fun ⟨_, _, a, ha, hb, hC⟩ => ⟨a, ha, hC, hb⟩
    case mpr => exact fun ⟨a, ha, hC, hb⟩ => ⟨_, rfl, a, ha, hb, hC⟩

theorem fills_part (hp : (s.split (w.line t)).on b = some part) :
    Fills L t (C ∩ (cells L t).half (w.line t) b) l part := by
  have hn := (exists_part g hs hw).mp ⟨part, hp⟩
  by_cases h : l.axis = w.axis
  case pos =>
    obtain ⟨rfl, hb⟩ := (part_parallel g hs hw h).mp hp
    refine ⟨hs.line, hs.place, ?_, hn⟩
    have he : {a | l.pointAt a ∈ C ∩ (cells L t).half (w.line t) b} = {a | l.pointAt a ∈ C} := by
      ext a
      exact and_iff_left <| (pointAt_parallel h).mpr hb
    exact he ▸ hs.occupies
  case neg =>
    obtain ⟨rfl, -⟩ := (part_crossing g hs hw h).mp hp
    refine ⟨hs.line, hs.place, ?_, hn⟩
    have he : {a | l.pointAt a ∈ C ∩ (cells L t).half (w.line t) b} =
        {a | l.pointAt a ∈ C} ∩ {a | OrientedPoint.Beyond 0 (l.crossing w t) b a} := by
      ext a
      exact and_congr_right fun _ => pointAt_crossing h
    rw [he]
    exact Region.occupies_beyond g.pos.le (spaced_marks g.spaced l) (crossing_mem h hw) hs.occupies

end Part

variable (g : Grid L t)

include g

theorem fills_whole (hl : l.place ∈ L l.axis) : Fills L t .univ l (.whole (l.line t)) := by
  have htol : (OrientedLine.embedding (Exact K)).tolerance (l.line t) = .finite t := by
    obtain ⟨_ | _, _, _⟩ := l <;> rfl
  have ⟨a, _, ha⟩ := roomy_univ.exists_off (finite_marks g.finite l) Set.univ_nonempty
  exact ⟨rfl, hl, ⟨htol, trivial, fun _ _ => iff_of_true rfl trivial⟩, a, ha, trivial⟩

theorem cells_lawful : (cells L t).Lawful where
  disjoint {h p b b'} hb hb' := by
    have hn := Exact.not_pos_and_neg_pos (OrientedLine.offset h (planePoint p))
    cases b <;> cases b'
    case plus.minus => exact absurd ⟨hb.2, hb'.2⟩ hn
    case minus.plus => exact absurd ⟨hb'.2, hb.2⟩ hn
    all_goals rfl
  hyperplane_whole _ := rfl
  hyperplane_part := Embedded.hyperplane_part
  spans_part := by
    intro C D s w b part ⟨l, hs⟩ ⟨l', hw⟩ hp
    have hl : (plane (Exact K)).hyperplane w = l'.line t := hw.line
    rw [hl] at hp ⊢
    exact ⟨l, fills_part g hs hw.place hp⟩

theorem cells_tight : (cells L t).Tight where
  toLawful := cells_lawful g
  spans_whole := by
    intro C s ⟨l, hs⟩
    have hl : (plane (Exact K)).hyperplane s = l.line t := hs.line
    rw [hl]
    exact ⟨l, fills_whole g hs.place⟩
  part_of_smaller := by
    intro C D E s c w b ⟨l, hs⟩ ⟨l', hw⟩ ⟨l'', hc⟩ he hE
    have hl : (plane (Exact K)).hyperplane w = l'.line t := hw.line
    rw [hl] at hE ⊢
    cases line_injective <| hc.line.symm.trans <| Eq.trans he hs.line
    have ⟨a, ha, haE⟩ := hc.nonempty
    exact (exists_part g hs hw.place).mpr ⟨a, ha, hE haE⟩

-- Whether a cell is made of roomy sets of coordinates.
def Boxed (C : Set (Axis → K)) : Prop :=
  ∃ A : Axis → Set K, (∀ axis, Roomy (A axis)) ∧ C = {p | ∀ axis, p axis ∈ A axis}

omit g in
theorem boxed (hC : (cells L t).IsCell C) : Boxed C := by
  induction hC
  case univ => exact ⟨fun _ => .univ, fun _ => roomy_univ, by simp⟩
  case inter C h b _ hi =>
    obtain ⟨A, hA, rfl⟩ := hi
    by_cases hh : ∃ l : AxisLine K, h = l.line t
    case pos =>
      obtain ⟨l, rfl⟩ := hh
      refine ⟨fun axis => A axis ∩ {x | axis = l.axis → OrientedPoint.Beyond 0 (l.point t) b x},
        ?roomy, ?points⟩
      case roomy =>
        intro axis
        by_cases h : axis = l.axis
        case pos =>
          have hr : Roomy (A l.axis ∩ {x | OrientedPoint.Beyond 0 (l.point t) b x}) :=
            (hA l.axis).inter roomy_beyond
          simpa [h] using hr
        case neg => simpa [h] using hA axis
      case points =>
        ext p
        rw [Set.mem_inter_iff, mem_half]
        constructor
        case mp  => exact fun ⟨h, hb⟩ axis => ⟨h axis, fun he => he ▸ hb⟩
        case mpr => exact fun h => ⟨fun axis => (h axis).1, (h l.axis).2 rfl⟩
    case neg =>
      refine ⟨fun _ => ∅, fun _ _ h => h.elim, ?_⟩
      ext p
      exact iff_of_false (fun h => hh h.2.1) (fun h => h .x)

-- Cuts of one cell that are not parallel cross in it.
theorem exists_part_of_crossing (hC : Boxed C) (hs : Fills L t C l s) (hw : Fills L t C w cut)
    (h : l.axis ≠ w.axis) (b : Branch) : ∃ part, (s.split (w.line t)).on b = some part := by
  obtain ⟨A, hA, rfl⟩ := hC
  have hd : |w.place - w.place| < 1 := by simp
  have ⟨x, ⟨hx, hb⟩, _, hL⟩ :
      (around w.place 1 (L w.axis)
        (A w.axis ∩ {x | OrientedPoint.Beyond 0 (w.point t) b x})).Nonempty :=
    (hA w.axis).around_nonempty (g.finite w.axis) hw.place_mem hd
  have hx' : l.pointAt (sign l.sense * x) w.axis = x := by
    rw [pointAt_of_ne h.symm, sign_mul_cancel]
  refine exists_part g hs hw.place |>.mpr ⟨sign l.sense * x, ?marks, fun axis => ?inside, ?half⟩
  case marks => rwa [mem_marks h.symm, sign_mul_cancel]
  case inside =>
    by_cases ha : axis = l.axis
    case pos => rw [ha, pointAt_axis]; exact hs.place_mem
    case neg => rwa [Axis.eq_of_ne h ha, hx']
  case half => rwa [mem_half, hx']

section Side

variable (hC : Boxed C) (hs : Fills L t C l s) (hw : Fills L t C w cut)

include hC hs hw

theorem side_parallel : (s.split (w.line t)).side = b.side ↔
    l.axis = w.axis ∧ OrientedPoint.Beyond 0 (w.point t) b l.place := by
  rw [Parts.side_eq]
  constructor
  case mp =>
    rintro ⟨⟨part, hp⟩, hn⟩
    by_cases h : l.axis = w.axis
    case pos => exact ⟨h, (part_parallel g hs hw.place h).mp hp |>.2⟩
    case neg =>
      have ⟨part, hp⟩ := exists_part_of_crossing g hC hs hw h b.flip
      cases hn.symm.trans hp
  case mpr =>
    rintro ⟨h, hb⟩
    refine ⟨⟨s, part_parallel g hs hw.place h |>.mpr ⟨rfl, hb⟩⟩, ?_⟩
    refine Option.eq_none_iff_forall_ne_some.mpr fun part hp => ?_
    have ⟨_, hb'⟩ := (part_parallel g hs hw.place h).mp hp
    exact Branch.flip_ne <| OrientedPoint.beyond_disjoint hb' hb

theorem side_both : (s.split (w.line t)).side = .both ↔ l.axis ≠ w.axis := by
  rw [Parts.side_eq_both]
  constructor
  case mp =>
    intro ⟨f, hf⟩ h
    have hb b := (part_parallel g hs hw.place h).mp (hf b) |>.2
    cases OrientedPoint.beyond_disjoint (hb .plus) (hb .minus)
  case mpr =>
    intro h
    have hp := exists_part_of_crossing g hC hs hw h
    exact ⟨fun b => (hp b).choose, fun b => (hp b).choose_spec⟩

theorem side_within (h : (s.split (w.line t)).side = .within) :
    l.axis = w.axis ∧ l.place = w.place := by
  have ha : l.axis = w.axis := by
    by_contra ha
    cases h.symm.trans <| side_both g hC hs hw |>.mpr ha
  refine ⟨ha, ?_⟩
  have hb (b) : ¬OrientedPoint.Beyond 0 (w.point t) b l.place := by
    intro hb
    have hb := side_parallel g hC hs hw |>.mpr ⟨ha, hb⟩
    cases b <;> cases h.symm.trans hb
  have hp := hb .plus
  have hm := hb .minus
  rw [point, OrientedPoint.beyond_iff] at hp hm
  cases hd : w.direct <;> simp [hd, Branch.pick] at hp hm <;> exact le_antisymm ‹_› ‹_›

end Side

theorem cells_separating : (cells L t).Separating where
  toLawful := cells_lawful g
  beside := by
    intro C s cut b hC ⟨l, hs⟩ ⟨w, hw⟩ h
    have hl : (plane (Exact K)).hyperplane s = l.line t := hs.line
    have hc : (plane (Exact K)).hyperplane cut = w.line t := hw.line
    rw [hc] at h ⊢
    have hC := boxed hC
    obtain ⟨ha, hb⟩ := side_parallel g hC hs hw |>.mp h
    obtain ⟨b', hb', h₁, h₂⟩ := OrientedPoint.beside g.pos.le <|
      (g.spaced w.axis).beyond hw.place (ha ▸ hs.place) hb
    refine ⟨⟨l, ?part⟩, b', ?side, ?cut, ?beyond, ?near⟩
    case part => exact fills_part g hs hw.place <| part_parallel g hs hw.place ha |>.mpr ⟨rfl, hb⟩
    case side =>
      rw [hl]
      exact side_parallel g hC hw hs |>.mpr ⟨ha.symm, hb'.mono g.pos.le⟩
    case cut =>
      rw [hl]
      refine ⟨w, fills_part g hw hs.place <| part_parallel g hw hs.place ha.symm |>.mpr ⟨rfl, ?_⟩⟩
      exact hb'.mono g.pos.le
    case beyond =>
      rw [hl, hc]
      refine fun p hp => mem_half.mpr <| h₁ 0 _ ?_
      rw [ha]
      exact mem_half.mp hp.2
    case near =>
      rw [hl, hc]
      refine fun p hp => mem_half.mpr <| h₂ 0 _ ?_
      rw [← ha]
      exact mem_half.mp hp.2
  cross := by
    intro C s cut hC ⟨l, hs⟩ ⟨w, hw⟩ h
    have hl : (plane (Exact K)).hyperplane s = l.line t := hs.line
    have hc : (plane (Exact K)).hyperplane cut = w.line t := hw.line
    rw [hc] at h
    rw [hl]
    exact side_both g (boxed hC) hw hs |>.mpr (side_both g (boxed hC) hs hw |>.mp h).symm
  coincide := by
    intro C s cut b hC ⟨l, hs⟩ ⟨w, hw⟩ h
    have hl : (plane (Exact K)).hyperplane s = l.line t := hs.line
    have hc : (plane (Exact K)).hyperplane cut = w.line t := hw.line
    rw [hc] at h
    rw [hl, hc]
    have ⟨ha, hp⟩ := side_within g (boxed hC) hs hw h
    have ho : (plane (Exact K)).sameOrientation (w.line t) (l.line t) = (w.direct == l.direct) :=
      sameOrientation_line ha.symm
    rw [ho]
    refine congrArg (C ∩ ·) <| Set.ext fun p => ?_
    rw [mem_half, mem_half, ← ha, point, point, ← hp]
    exact OrientedPoint.beyond_turn

end Plane
end SpacePartition
