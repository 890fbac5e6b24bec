import SpacePartition.Proofs.Line.Inside

/-!
Locations of points on the line. What a region says of a point sums up what its intervals have of
the points close by: it is at the boundary if it is close to one of their bounds.
-/

namespace SpacePartition

variable {K : Type} [Field K] [LinearOrder K] {ι : Type}

namespace Line

variable {c e p t : K} {dir above : Bool} {tol : Exact K} {b : Branch} {L C D : Set K}

-- Whether a set has, with a place, all points next to the place.
def Roomy (C : Set K) : Prop :=
  ∀ e ∈ C, ∀ above, Near C e above True

-- The points of a cell that are close to a point, cuts aside.
def around (p t : K) (L C : Set K) : Set K :=
  {x ∈ C | |p - x| < t ∧ x ∉ L}

variable [IsStrictOrderedRing K]

theorem roomy_univ : Roomy (K := K) .univ :=
  fun _ _ _ => ⟨1, one_pos, fun _ _ => Iff.rfl⟩

theorem Roomy.inter (hC : Roomy C) (hD : Roomy D) : Roomy (C ∩ D) := by
  intro e he above
  simpa using (hC e he.1 above).inter (hD e he.2 above)

theorem roomy_beyond : Roomy {x | OrientedPoint.Beyond 0 ⟨.finite c, dir, tol⟩ b x} := by
  intro e he above
  have ⟨d, hd, h⟩ := compare_vicinity e above c
  refine ⟨d, hd, fun x hx => iff_true_intro ?_⟩
  have ⟨hxc, hcx⟩ := h x hx
  obtain ⟨side, rfl⟩ := OrientedPoint.exists_toward ⟨.finite c, dir, tol⟩ b
  change OrientedPoint.Beyond .. at he ⊢
  rw [OrientedPoint.beyond_toward, add_zero, add_zero] at he ⊢
  cases side
  case false => exact lt_of_le_of_ne (not_lt.mp <| hcx.not.mpr (by grind)) hxc
  case true  => exact hcx.mpr (.inl he)

-- Where a set has all points next to a place, it has some that are close to a point close by.
theorem Near.exists_close (hC : Near C c above True) (hL : L.Finite) (hp : |p - c| < t) :
    ∃ x ∈ around p t L C, if above then c < x else x < c := by
  have ⟨d, hd, h⟩ := hC
  have ⟨x, hx, hxL⟩ := exists_mem_vicinity c above hL
    (lt_min hd <| sub_pos.mpr hp)
  have hxd := h x <| vicinity_mono (min_le_left ..) hx
  have hxt := vicinity_mono (min_le_right ..) hx
  refine ⟨x, ⟨hxd.mpr trivial, ?close, hxL⟩, ?beyond⟩
  case close =>
    rw [abs_lt]
    have ⟨h₁, h₂⟩ := abs_le.mp (le_refl |p - c|)
    cases above <;> have ⟨h₃, h₄⟩ := hxt <;> constructor <;> linarith
  case beyond =>
    cases above
    case false => exact hx.2
    case true  => exact hx.1

theorem close_between {x y : K} (hx : |p - x| < t) (hy : |p - y| < t) (he : e ∈ Set.uIcc x y) :
    |p - e| < t := by
  rw [abs_lt] at hx hy ⊢
  rcases Set.mem_uIcc.mp he with ⟨h, h'⟩ | ⟨h, h'⟩ <;> constructor <;> linarith

-- Close to a place in a roomy cell there are points of the cell on both sides of the place.
theorem Roomy.around_nonempty (hC : Roomy C) (hL : L.Finite) (hc : c ∈ C) (hp : |p - c| < t) :
    (around p t L (C ∩ {x | OrientedPoint.Beyond 0 ⟨.finite c, dir, tol⟩ b x})).Nonempty := by
  obtain ⟨above, rfl⟩ := OrientedPoint.exists_toward ⟨.finite c, dir, tol⟩ b
  have ⟨x, hx, h⟩ := (hC c hc above).exists_close hL hp
  refine ⟨x, ⟨hx.1, ?_⟩, hx.2⟩
  change OrientedPoint.Beyond ..
  rwa [OrientedPoint.beyond_toward, add_zero, add_zero]

variable {i : ι} {a : Option Bool} {plus minus n : Node (line (Exact K)) ι Bool}

-- The points on a side of a cut see in a fork what they see in the side.
theorem holds_beyond {x : K} (hx : OrientedPoint.Beyond 0 ⟨.finite c, dir, tol⟩ b x) :
    (Node.fork i a (⟨.finite c, dir, tol⟩ : OrientedPoint (Exact K)) plus minus).holds (outlook x) =
      (b.pick plus minus).holds (outlook x) := by
  have hxc : x ≠ c := fun h => OrientedPoint.not_beyond_self (h ▸ hx)
  rw [Node.holds_fork, OrientedPoint.beyond_disjoint (beyond_outlook hxc) hx]

-- No point close to another one is on a side of a cut that is not close to it either.
theorem around_clear (hpc : t ≤ |p - c|) (ht : 0 < t) (h : OrientedPoint (Exact K))
    (hh : h = ⟨.finite c, dir, tol⟩) :
    around p t L (C ∩ {x | OrientedPoint.Beyond 0 h (outlook p h) x}) = around p t L C := by
  subst hh
  ext x
  refine and_congr_left fun ⟨hxp, _⟩ => and_iff_left ?_
  have hb : OrientedPoint.Beyond 0 ⟨.finite c, dir, tol⟩ _ p := beyond_outlook <| ne_of_clear ht hpc
  generalize outlook p (_ : OrientedPoint (Exact K)) = b at hb ⊢
  obtain ⟨above, rfl⟩ := OrientedPoint.exists_toward ⟨.finite c, dir, tol⟩ b
  change OrientedPoint.Beyond ..
  rw [OrientedPoint.beyond_toward, add_zero, add_zero] at hb ⊢
  rw [abs_lt] at hxp
  rw [le_abs] at hpc
  cases above <;> simp at hb ⊢ <;> rcases hpc with hpc | hpc <;> linarith

-- What is close to a point is on either side of a cut.
theorem around_split (hc : c ∈ L) :
    around p t L (C ∩ {x | OrientedPoint.Beyond 0 ⟨.finite c, dir, tol⟩ .minus x}) ∪
      around p t L (C ∩ {x | OrientedPoint.Beyond 0 ⟨.finite c, dir, tol⟩ .plus x}) =
      around p t L C := by
  ext x
  constructor
  case mp  => rintro (⟨h, h'⟩ | ⟨h, h'⟩) <;> exact ⟨h.1, h'⟩
  case mpr =>
    intro ⟨h, h'⟩
    have hxc : x ≠ c := fun hxc => h'.2 (hxc ▸ hc)
    have hb : OrientedPoint.Beyond 0 ⟨.finite c, dir, tol⟩ _ x := beyond_outlook hxc
    generalize outlook x (_ : OrientedPoint (Exact K)) = b at hb
    cases b
    case plus  => exact .inr ⟨⟨h, hb⟩, h'⟩
    case minus => exact .inl ⟨⟨h, hb⟩, h'⟩

-- The location of a point sums up what the points close to it see.
theorem check_sums (hL : L.Finite) (ht : 0 < t) (hn : (cells 0 L t).Fitted C n) (hC : Roomy C)
    (hne : (around p t L C).Nonempty) :
    (n.check (.finite t) (Exact.finite p)).Sums (around p t L C)
      {x | n.holds (outlook x) = true} := by
  induction n generalizing C
  case leaf i a => exact Location.sums_ofInside hne (a == some true)
  case fork i a cut plus minus ip im =>
    have ⟨hs, hf⟩ := Layout.fitted_fork.mp hn
    obtain ⟨c, dir, rfl, hcC, hcL⟩ := cells_spans.mp hs
    let part (b : Branch) : Set K :=
      C ∩ {x | OrientedPoint.Beyond 0 ⟨.finite c, dir, .finite t⟩ b x}
    have hi (b : Branch) (hne : (around p t L (part b)).Nonempty) :
        ((b.pick plus minus).check (.finite t) (Exact.finite p)).Sums (around p t L (part b))
          {x | (Node.fork i a (⟨.finite c, dir, .finite t⟩ : OrientedPoint (Exact K))
            plus minus).holds (outlook x) = true} := by
      have hR : Roomy (part b) := hC.inter roomy_beyond
      have hi : ((b.pick plus minus).check (.finite t) (Exact.finite p)).Sums
          (around p t L (part b)) {x | (b.pick plus minus).holds (outlook x) = true} := by
        cases b
        case plus  => exact ip (hf .plus) hR hne
        case minus => exact im (hf .minus) hR hne
      exact hi.congr fun x hx => iff_of_eq <| congrArg (· = true) (holds_beyond hx.1.2).symm
    rw [Node.check_fork]
    split
    case isTrue hp =>
      have he := around_clear (L := L) (C := C) hp ht ⟨.finite c, dir, .finite t⟩ rfl
      exact he ▸ hi _ (he ▸ hne)
    case isFalse hp =>
      have hp := not_le.mp hp
      exact around_split hcL ▸
        (hi .minus <| hC.around_nonempty hL hcC hp).join (hi .plus <| hC.around_nonempty hL hcC hp)

end Line

namespace Region

open Line

variable {r : Region (line (Exact K))} {e p t : K} [IsStrictOrderedRing K]

-- The location of a point sums up what the intervals have of the points close to it.
theorem FittedAt.check_sums (h : r.FittedAt t) (ht : 0 < t) (p : K) :
    (r.check (Exact.finite p)).Sums (around p t r.locations .univ)
      (Interval.union r.intervals) := by
  have hn := h.cells ht.le subset_rfl
  have hp : |p - p| < t := by simpa
  have ⟨x, hx, _⟩ := (roomy_univ p trivial true).exists_close r.finite_locations hp
  rw [check_finite r h.tolerance]
  exact (Line.check_sums r.finite_locations ht hn roomy_univ ⟨x, hx⟩).congr
    fun x hx => (mem_intervals hn hx.2.2).symm

-- A point is at the boundary if it is close to a bound of an interval.
theorem FittedAt.check_eq_boundary (h : r.FittedAt t) (ht : 0 < t) :
    r.check (Exact.finite p) = .boundary ↔ ∃ e ∈ Interval.ends r.intervals, |p - e| < t := by
  rw [(h.check_sums ht p).boundary]
  constructor
  case mp =>
    rintro ⟨⟨x, hx, hxU⟩, y, hy, hyU⟩
    have ⟨e, he, hxy⟩ := Interval.exists_end_between hxU hyU
    exact ⟨e, he, close_between hx.2.1 hy.2.1 hxy⟩
  case mpr =>
    intro ⟨e, he, hp⟩
    have hb := (separated_intervals <| h.cells ht.le subset_rfl).mem_ends.mp he
    have next (above) := (Interval.near_union e above : Near (Interval.union r.intervals) ..).agree
    have ⟨x, ⟨hx, hx'⟩, _⟩ := (next false).exists_close r.finite_locations hp
    have ⟨y, ⟨hy, hy'⟩, _⟩ := (next true).exists_close r.finite_locations hp
    rw [Set.mem_ofPred_eq] at hx hy
    rw [← hx, ← hy] at hb
    by_cases hxU : x ∈ Interval.union r.intervals
    case pos =>
      exact ⟨⟨x, ⟨trivial, hx'⟩, hxU⟩, y, ⟨trivial, hy'⟩, fun h => hb <| iff_of_true hxU h⟩
    case neg =>
      have hyU := by_contra fun h => hb <| iff_of_false hxU h
      exact ⟨⟨y, ⟨trivial, hy'⟩, hyU⟩, x, ⟨trivial, hx'⟩, hxU⟩

-- Any other point is located by the intervals it lies in.
theorem FittedAt.check_off_ends (h : r.FittedAt t) (ht : 0 < t)
    (hp : ¬∃ e ∈ Interval.ends r.intervals, |p - e| < t) :
    (r.check (Exact.finite p) = .inside ↔ p ∈ Interval.union r.intervals) ∧
      (r.check (Exact.finite p) = .outside ↔ p ∉ Interval.union r.intervals) := by
  have hs := h.check_sums ht p
  have hpp : |p - p| < t := by simpa
  have ⟨x, hx, _⟩ := (roomy_univ p trivial true).exists_close r.finite_locations hpp
  -- Without a bound in between, all points close to `p` are where `p` is.
  have same {x y} (hx : |p - x| < t) (hy : |p - y| < t) (hxU : x ∈ Interval.union r.intervals) :
      y ∈ Interval.union r.intervals := by
    by_contra hyU
    have ⟨e, he, hxy⟩ := Interval.exists_end_between hxU hyU
    exact hp ⟨e, he, close_between hx hy hxy⟩
  rw [hs.inside, hs.outside]
  refine ⟨⟨fun h => same hx.2.1 hpp (h hx), fun h y hy => same hpp hy.2.1 h⟩, ?_⟩
  exact ⟨fun h hpU => h x hx <| same hpp hx.2.1 hpU, fun h y hy hyU => h <| same hy.2.1 hpp hyU⟩

end Region

end SpacePartition
