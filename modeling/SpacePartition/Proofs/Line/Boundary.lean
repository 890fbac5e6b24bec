import SpacePartition.Proofs.Line.Parts
import SpacePartition.Proofs.Region.Carving

/-!
Boundaries of regions of the line. Whichever facet cuts a cell first, those on its two sides bound
the two parts of the cell, so that a region comes back from its facets in any order.
-/

namespace SpacePartition

-- The cut of a facet with the region on its minus side.
def Facet.outward {R : Type} [Scalar R] (f : Facet (line R)) : OrientedPoint R :=
  match f.facing with
  | .plusOutside => f.sub
  | .plusInside  => OrientedPoint.reversed f.sub

namespace Facet

variable {R : Type} [Scalar R] {f : Facet (line R)}

@[simp]
theorem location_outward : f.outward.location = f.sub.location := by
  rw [outward]
  split <;> rfl

@[simp]
theorem tolerance_outward : f.outward.tolerance = f.sub.tolerance := by
  rw [outward]
  split <;> rfl

-- On its minus side an outward facet has the region.
theorem toward_outward {above : Bool} : f.outward.toward above = .minus ↔
    (f.facing = .plusOutside ↔ above = !f.sub.direct) := by
  obtain ⟨⟨location, dir, tol⟩, facing⟩ := f
  cases facing <;> cases dir <;> cases above <;>
    simp [outward, OrientedPoint.toward, OrientedPoint.reversed]

end Facet

theorem Line.Faces.toward_outward {K ι : Type} [Field K] [LinearOrder K] {C : Set K}
    {n : Node (line (Exact K)) ι Bool} {fs : List (Facet (line (Exact K)))} (h : Faces C n fs)
    {f : Facet (line (Exact K))} (hm : f ∈ fs) {e : K} (he : f.sub.location = .finite e)
    {above : Bool} : f.outward.toward above = .minus ↔ n.holds (beside e above) = true := by
  have hd : n.holds (beside e above) ≠ n.holds (beside e !above) := by
    have hd := (h.mem_iff e).mp ⟨f, hm, he⟩
    cases above
    case false => exact hd
    case true  => exact hd.symm
  rw [Facet.toward_outward, h.facing f hm e he]
  by_cases ha : f.sub.direct = above
  case pos =>
    rw [ha]
    generalize n.holds (beside e above) = x, n.holds (beside e !above) = y at hd
    cases x <;> cases y <;> simp_all
  case neg =>
    rw [← Bool.eq_not.mpr (Ne.symm ha)]
    exact iff_true_right rfl

-- Facets of the line are not split, and a side keeps those that lie on it.
theorem scattered_line {R : Type} [Scalar R] {h : OrientedPoint R} {fs : List (OrientedPoint R)}
    {b : Branch} :
    scattered (S := line R) h fs b = fs.filter fun f => ((f.split h).on b).isSome := by
  induction fs
  case nil => cases b <;> rfl
  case cons f fs hi =>
    have part {b p} (hp : (f.split h).on b = some p) : p = f := OrientedPoint.part_eq hp
    rw [List.filter_cons, ← hi]
    simp only [scattered, scatter]
    generalize f.split h = parts at part ⊢
    obtain ⟨_ | p, _ | m⟩ := parts
    case none.none => cases b <;> rfl
    case none.some => cases b <;> rfl
    case some.none => cases b <;> rfl
    case some.some =>
      cases part (b := .plus) rfl
      cases part (b := .minus) rfl
      cases b <;> rfl

variable {K : Type} [Field K] [LinearOrder K] {ι : Type}

namespace Line

-- Whether facets bound a set within a cell: they lie in the cell and face away from the set, and
-- one of them is between any two points of the cell of which only one is in the set.
structure Bounds (L C U : Set K) (t : K) (fs : List (OrientedPoint (Exact K))) : Prop where
  within  : ∀ f ∈ fs, (cells 0 L t).Spans C f
  sides   : ∀ f ∈ fs, ∀ e, f.location = .finite e →
    ∀ above, Near U e above (f.toward above = .minus)
  between : ∀ x ∈ C, ∀ y ∈ C, x ∈ U → y ∉ U → ∃ f ∈ fs, ∃ e ∈ Set.uIcc x y, f.location = .finite e

variable {L C U : Set K} {c d e t x y : K} {dir : Bool} {tol : Exact K} {b : Branch}
variable {f : OrientedPoint (Exact K)} {fs gs : List (OrientedPoint (Exact K))}

theorem Bounds.perm (h : Bounds L C U t fs) (hp : gs.Perm fs) : Bounds L C U t gs where
  within f hf  := h.within f <| hp.mem_iff.mp hf
  sides f hf   := h.sides f <| hp.mem_iff.mp hf
  between x hx y hy hxU hyU :=
    (h.between x hx y hy hxU hyU).imp fun _ h => ⟨hp.mem_iff.mpr h.1, h.2⟩

-- Without facets there is nothing in between.
theorem Bounds.mem_iff (h : Bounds L C U t []) (hx : x ∈ C) (hy : y ∈ C) : x ∈ U ↔ y ∈ U := by
  have mem {x y} (hx : x ∈ C) (hy : y ∈ C) (hxU : x ∈ U) : y ∈ U := by
    by_contra hyU
    obtain ⟨_, hf, -⟩ := h.between x hx y hy hxU hyU
    cases hf
  exact ⟨mem hx hy, mem hy hx⟩

-- The cuts below a cut are beyond it.
theorem beyond_of_mem_cuts {i : ι} {a : Option Bool} {p m : Node (line (Exact K)) ι Bool}
    {s : OrientedPoint (Exact K)}
    (hn : (cells t L t).Fitted C (.fork i a (⟨.finite c, dir, tol⟩ : OrientedPoint (Exact K)) p m))
    (hs : s ∈ (Node.fork i a (⟨.finite c, dir, tol⟩ : OrientedPoint (Exact K)) p m).cuts)
    (hx : s.location = .finite x) :
    x = c ∨ ∃ b : Branch,
      s ∈ (b.pick p m).cuts ∧ OrientedPoint.Beyond t ⟨.finite c, dir, tol⟩ b x := by
  have ⟨_, hf⟩ := Layout.fitted_fork.mp hn
  have side (b : Branch) (hs : s ∈ (b.pick p m).cuts) :
      OrientedPoint.Beyond t ⟨.finite c, dir, tol⟩ b x := by
    obtain ⟨x', ⟨hb, -⟩, hx'⟩ := cells_cuts (hf b) hs
    cases hx.symm.trans hx'
    exact hb.2
  rw [Node.cuts, List.mem_cons, List.mem_append] at hs
  rcases hs with rfl | hs | hs
  case inl     => exact .inl (Exact.finite.inj hx).symm
  case inr.inl => exact .inr ⟨.plus, hs, side .plus hs⟩
  case inr.inr => exact .inr ⟨.minus, hs, side .minus hs⟩

variable [IsStrictOrderedRing K]

theorem beyond_between (hx : OrientedPoint.Beyond d ⟨.finite c, dir, tol⟩ b x)
    (hy : OrientedPoint.Beyond d ⟨.finite c, dir, tol⟩ b y) (he : e ∈ Set.uIcc x y) :
    OrientedPoint.Beyond d ⟨.finite c, dir, tol⟩ b e := by
  obtain ⟨above, rfl⟩ := OrientedPoint.exists_toward ⟨.finite c, dir, tol⟩ b
  rw [OrientedPoint.beyond_toward] at hx hy ⊢
  have he := Set.mem_uIcc.mp he
  cases above
  case false =>
    simp only [Bool.false_eq_true, if_false] at hx hy ⊢
    rcases he with ⟨-, h⟩ | ⟨-, h⟩ <;> linarith
  case true =>
    simp only [if_true] at hx hy ⊢
    rcases he with ⟨h, -⟩ | ⟨h, -⟩ <;> linarith

theorem roomy_interior {cell : Cell (line (Exact K))} (hc : (cells 0 L t).Proper cell) :
    Roomy ((cells 0 L t).interior cell) := by
  induction cell
  case nil => exact roomy_univ
  case cons wall walls hi =>
    have ⟨D, hD⟩ := hc wall List.mem_cons_self
    obtain ⟨c, dir, hw, -⟩ := cells_spans.mp hD
    refine (hi hc.tail).inter ?_
    rw [hw]
    exact roomy_beyond

-- The facets on a side of a facet bound the set on that side.
theorem Bounds.side (ht : 0 ≤ t) (hL : Spaced L t) (h : Bounds L C U t (f :: fs)) (b : Branch) :
    Bounds L (C ∩ {x | OrientedPoint.Beyond 0 f b x}) U t
      (scattered (S := line (Exact K)) f fs b) := by
  obtain ⟨c, dir, rfl, hc, hcL⟩ := cells_spans.mp <| h.within f List.mem_cons_self
  have mem {g e} (hg : g.location = .finite e) :
      g ∈ scattered (S := line (Exact K)) ⟨.finite c, dir, .finite t⟩ fs b ↔
        g ∈ fs ∧ OrientedPoint.Beyond t ⟨.finite c, dir, .finite t⟩ b e := by
    rw [scattered_line, List.mem_filter, ← OrientedPoint.split_on hg ht, Option.isSome_iff_exists]
    refine and_congr_right fun _ => ⟨fun ⟨part, hp⟩ => ?_, fun hp => ⟨g, hp⟩⟩
    rwa [OrientedPoint.part_eq hp] at hp
  have tail {g} (hg : g ∈ scattered (S := line (Exact K)) ⟨.finite c, dir, .finite t⟩ fs b) :
      g ∈ fs :=
    List.mem_of_mem_filter (scattered_line (R := Exact K) ▸ hg)
  constructor
  case within =>
    intro g hg
    obtain ⟨htol, e, he, hl⟩ := h.within g <| List.mem_cons_of_mem _ (tail hg)
    exact ⟨htol, e, ⟨⟨he.1, ((mem hl).mp hg).2.mono ht⟩, he.2⟩, hl⟩
  case sides => exact fun g hg => h.sides g <| List.mem_cons_of_mem _ (tail hg)
  case between =>
    intro x hx y hy hxU hyU
    obtain ⟨g, hg, e, he, hl⟩ := h.between x hx.1 y hy.1 hxU hyU
    have hb := beyond_between hx.2 hy.2 he
    obtain ⟨-, e', he', hl'⟩ := h.within g hg
    cases hl.symm.trans hl'
    cases hg
    case head      => cases hl; exact absurd hb OrientedPoint.not_beyond_self
    case tail hg   => exact ⟨g, (mem hl).mpr ⟨hg, hL.beyond hcL he'.2 hb⟩, e, he, hl⟩

-- Where no facets are left on a side of a facet, the set has all of it or nothing, as the facet
-- says.
theorem Bounds.mem_side (ht : 0 ≤ t) (hL : Spaced L t) (h : Bounds L C U t (f :: fs)) (hC : Roomy C)
    (hn : scattered (S := line (Exact K)) f fs b = []) :
    ∀ x ∈ C ∩ {x | OrientedPoint.Beyond 0 f b x}, x ∈ U ↔ b = .minus := by
  intro x hx
  have hs := h.side ht hL b
  rw [hn] at hs
  obtain ⟨c, dir, rfl, hc, -⟩ := cells_spans.mp <| h.within f List.mem_cons_self
  let f : OrientedPoint (Exact K) := ⟨.finite c, dir, .finite t⟩
  obtain ⟨above, rfl⟩ := f.exists_toward b
  have ⟨d, hd, hv⟩ := (hC c hc above).and <| h.sides _ List.mem_cons_self c rfl above
  obtain ⟨y, hy, -⟩ := exists_mem_vicinity c above Set.finite_empty hd
  have hyb : OrientedPoint.Beyond 0 f (f.toward above) y := by
    rw [OrientedPoint.beyond_toward, add_zero]
    cases above
    case false => simpa using hy.2
    case true  => exact hy.1
  exact (hs.mem_iff hx ⟨(hv y hy).1.mpr trivial, hyb⟩).trans (hv y hy).2

theorem spaced_cuts {n : Node (line (Exact K)) ι Bool} (ht : 0 ≤ t)
    (hn : (cells t L t).Fitted C n) :
    Spaced {x | ∃ s ∈ n.cuts, s.location = .finite x} t := by
  induction n generalizing C
  case leaf => rintro x ⟨s, hs, -⟩; cases hs
  case fork i a cut p m hp hm =>
    have ⟨hs, hf⟩ := Layout.fitted_fork.mp hn
    obtain ⟨c, dir, rfl, -⟩ := cells_spans.mp hs
    have spaced (b : Branch) : Spaced {x | ∃ s ∈ (b.pick p m).cuts, s.location = .finite x} t := by
      cases b
      case plus  => exact hp (hf .plus)
      case minus => exact hm (hf .minus)
    rintro x ⟨s, hs, hx⟩ y ⟨s', hs', hy⟩
    obtain rfl | ⟨b, hs, hb⟩ := beyond_of_mem_cuts hn hs hx <;>
      obtain rfl | ⟨b', hs', hb'⟩ := beyond_of_mem_cuts hn hs' hy
    case inl.inl => exact .inl rfl
    case inl.inr => exact .inr <| abs_sub_comm y x ▸ hb'.apart OrientedPoint.not_beyond_self
    case inr.inl => exact .inr <| hb.apart OrientedPoint.not_beyond_self
    case inr.inr =>
      by_cases h : b = b'
      case pos => subst h; exact spaced b x ⟨s, hs, hx⟩ y ⟨s', hs', hy⟩
      case neg =>
        exact .inr <| hb.apart fun hn => h <| OrientedPoint.beyond_disjoint hn (hb'.mono ht)

-- A facet that lies in a cell does not miss it.
theorem fit_of_spans (ht : 0 ≤ t) (hL : Spaced L t) {cell : Cell (line (Exact K))}
    (hc : (cells 0 L t).Proper cell) (hf : (cells 0 L t).Spans ((cells 0 L t).interior cell) f) :
    cell.fit f = some f := by
  have hT := hL.tight ht
  obtain ⟨part, hp, -, rfl⟩ := hT.fit hc (hT.spans_whole hf) hf rfl (Set.univ_inter _).ge
  exact hp

end Line

open Line

variable {L U : Set K} {t x : K} {fs gs : List (OrientedPoint (Exact K))} [IsStrictOrderedRing K]

theorem Node.pick_shade {R : Type} {S : Space R} {p m : Node S ι Bool} {b : Branch} :
    b.pick (p.shade false) (m.shade true) = (b.pick p m).shade (decide (b = .minus)) := by
  cases b <;> rfl

-- A partition that facets carve has the points of the set that they bound. What a leaf is told by
-- the cut above it counts where no facets are left.
theorem Carving.holds_shade (ht : 0 ≤ t) (hL : Spaced L t) {cell : Cell (line (Exact K))}
    {n : Node (line (Exact K)) ι Bool} (hn : Carving cell fs n) (hc : (cells 0 L t).Proper cell)
    (hb : Bounds L ((cells 0 L t).interior cell) U t fs) {inside : Bool}
    (hi : fs = [] → ∀ x ∈ (cells 0 L t).interior cell, x ∈ U ↔ inside = true)
    (hx : x ∈ (cells 0 L t).interior cell) (hxL : x ∉ L) :
    (n.shade inside).holds (outlook x) = true ↔ x ∈ U := by
  induction hn generalizing inside
  case leaf => rw [hi rfl x hx, Node.shade, Node.holds_leaf]; simp
  case miss hf _ _ =>
    cases hf.symm.trans <| fit_of_spans ht hL hc <| hb.within _ List.mem_cons_self
  case fork cell f cut fs p m i a hf _ ih =>
    have hs := hb.within _ List.mem_cons_self
    cases hf.symm.trans (fit_of_spans ht hL hc hs)
    have side (b : Branch) := hb.side ht hL b
    have empty (b : Branch) := hb.mem_side (b := b) ht hL (roomy_interior hc)
    obtain ⟨c, dir, rfl, -, hcL⟩ := cells_spans.mp hs
    have hxb : OrientedPoint.Beyond 0 ⟨.finite c, dir, .finite t⟩ _ x :=
      beyond_outlook fun hxc => hxL (hxc ▸ hcL)
    rw [Node.shade, holds_beyond hxb, Node.pick_shade]
    refine ih _ (hc.cons hs) (side _) (fun h y hy => ?_) ⟨hx, hxb⟩
    rw [empty _ h y hy, decide_eq_true_iff]

namespace Region

-- What a boundary makes is carved by its facets, and it is the whole space if there are none.
theorem exists_carving {R : Type} {S : Space R} {select : Selector S} {fs gs : List S.Sub}
    (hs : select fs = .ok gs) (hp : gs.Perm fs) (tolerance : R) :
    ∃ r, ofBoundaryWith select fs tolerance = .ok r ∧ ∃ n, r.tree.root = n.shade true ∧
      Carving [] gs n := by
  rw [ofBoundaryWith]
  split
  case isTrue h =>
    cases List.isEmpty_iff.mp h
    cases hp.eq_nil
    exact ⟨_, rfl, .leaf 0 none, rfl, .leaf 0 none⟩
  case isFalse =>
    rw [hs]
    exact ⟨_, rfl, _, rfl, Tree.carving_carve gs none⟩

variable {r : Region (line (Exact K))}

-- A boundary makes the region that has the set which it bounds.
theorem occupies_ofBoundaryWith (ht : 0 ≤ t) (hL : Spaced L t) {select : Selector (line (Exact K))}
    (hs : select fs = .ok gs) (hp : gs.Perm fs) (hb : Bounds L .univ U t fs)
    (hU : fs = [] → U = .univ) :
    ∃ r, ofBoundaryWith select fs (.finite t) = .ok r ∧ r.Occupies L t U := by
  have hb := hb.perm hp
  have hw : ∀ f ∈ gs, (cells 0 L t).Spans .univ f := hb.within
  have ⟨r, hr, htol, hf⟩ : ∃ r, ofBoundaryWith (S := line (Exact K)) select fs (.finite t) = .ok r ∧
      r.tolerance = .finite t ∧ (cells 0 L t).Fitted .univ r.tree.root :=
    Layout.fitted_ofBoundaryWith (cells_lawful le_rfl ht) hs hw
  obtain ⟨r', hr', n, hn, hc⟩ := exists_carving (S := line (Exact K)) hs hp (Exact.finite t)
  cases hr.symm.trans hr'
  refine ⟨r, hr, htol, hf, fun q hq => ?_⟩
  rw [hn]
  refine hc.holds_shade ht hL Layout.proper_nil hb (fun hg x _ => ?_) trivial hq
  rw [hU <| (hg ▸ hp).nil_eq.symm]
  exact iff_of_true trivial rfl

-- The cuts of a fitted region are farther apart than the tolerance.
theorem FittedAt.spaced (h : r.FittedAt t) (ht : 0 ≤ t) : Spaced r.locations t :=
  spaced_cuts ht h.fitted

-- The facets bound the intervals.
theorem FittedAt.bounds (h : r.FittedAt t) (ht : 0 ≤ t) : ∃ fs, r.facets = .ok fs ∧
    Bounds r.locations .univ (Interval.union r.intervals) t (fs.map Facet.outward) := by
  have hn := h.cells ht subset_rfl
  have ⟨fs, hfs, hf⟩ := facets_eq ht h.fitted
  refine ⟨fs, hfs, ?within, ?sides, ?between⟩
  case within =>
    rw [List.forall_mem_map]
    intro f hm
    obtain ⟨D, -, htol, c, -, hl⟩ := h.fitted.exists_spans (hf.cuts f hm)
    exact ⟨by rw [Facet.tolerance_outward, htol], c, ⟨trivial, f.sub, hf.cuts f hm, hl⟩,
      by rw [Facet.location_outward, hl]⟩
  case sides =>
    rw [List.forall_mem_map]
    intro f hm e hl above
    rw [Facet.location_outward] at hl
    have hu : Near (Interval.union r.intervals) e above _ := Interval.near_union e above
    rwa [reaches_intervals hn r.finite_locations, ← hf.toward_outward hm hl] at hu
  case between =>
    intro x _ y _ hx hy
    have ⟨e, he, hxy⟩ := Interval.exists_end_between hx hy
    have ⟨f, hm, hl⟩ := (hf.mem_iff e).mpr <| (mem_ends hn r.finite_locations).mp he
    exact ⟨f.outward, List.mem_map_of_mem hm, e, hxy, by rw [Facet.location_outward, hl]⟩

theorem exists_mem_intervals (hr : (cells 0 L t).Fitted .univ r.tree.root) (hL : L.Finite)
    (hne : r.isEmpty = false) : ∃ x, x ∈ Interval.union r.intervals := by
  by_contra hn
  refine Bool.false_ne_true <| hne.symm.trans ?_
  refine (isEmpty_iff hL hr roomy_univ ⟨0, trivial⟩).mpr fun x _ hx => ?_
  rw [← Bool.not_eq_true, ← mem_intervals hr hx]
  exact fun hxU => hn ⟨x, hxU⟩

-- A region that is not empty comes back from its facets in any order. A full one has none.
theorem FittedAt.intervals_ofBoundaryWith (h : r.FittedAt t) (ht : 0 < t)
    (hne : r.isEmpty = false) :
    ∃ fs, r.facets = .ok fs ∧ ∀ gs, gs.Perm (fs.map Facet.outward) →
      ∀ (select : Selector (line (Exact K))) ks, select gs = .ok ks → ks.Perm gs →
        ∃ s, ofBoundaryWith select gs (.finite t) = .ok s ∧ s.intervals = r.intervals := by
  have hn := h.cells ht.le subset_rfl
  have ⟨fs, hfs, hb⟩ := h.bounds ht.le
  refine ⟨fs, hfs, fun gs hg select ks hk hp => ?_⟩
  have hb := hb.perm hg
  have full (he : gs = []) : Interval.union r.intervals = .univ := by
    have ⟨x, hx⟩ := exists_mem_intervals hn r.finite_locations hne
    exact Set.eq_univ_of_forall fun y => ((he ▸ hb).mem_iff trivial trivial).mp hx
  have ⟨s, hs, ho⟩ := occupies_ofBoundaryWith ht.le (h.spaced ht.le) hk hp hb full
  exact ⟨s, hs, ho.intervals_eq r.finite_locations <| separated_intervals hn⟩

-- A cut that is no facet is not needed, and two of the facets have to be turned.
theorem FittedAt.intervals_ofBoundaryWith_of_inside_facing :
    let inside : Tree (line (Exact ℚ)) Bool := .leaf (some true)
    let outside : Tree (line (Exact ℚ)) Bool := .leaf (some false)
    let cut (x : ℚ) (direct : Bool) : OrientedPoint (Exact ℚ) := ⟨.finite x, direct, .finite 1⟩
    let r : Region (line (Exact ℚ)) := ⟨.ofParts (cut 0 true) (.ofParts (cut 10 true)
      (.ofParts (cut 20 true) inside outside none) (.ofParts (cut 5 false) inside inside none) none)
      outside none, .finite 1⟩
    (r.FittedAt 1 ∧ (0 : ℚ) < 1 ∧ r.isEmpty = false) ∧
    ∃ s, ofBoundaryWith .largestFirst [cut 10 true, cut 0 false, cut 20 false] (.finite 1) = .ok s ∧
      s.intervals = r.intervals ∧
      s.intervals = [⟨.finite 0, .finite 10⟩, ⟨.finite 20, .infinite true⟩] := by
  intro inside outside cut r
  have beyond (c x : ℚ) (dir : Bool) (b : Branch) (h : if b.pick dir !dir then c + 1 < x else
      x + 1 < c) : OrientedPoint.Beyond 1 (cut c dir) b x := OrientedPoint.beyond_iff.mpr h
  have h10 := beyond 0 10 true .plus (by norm_num [Branch.pick])
  have h20 := beyond 0 20 true .plus (by norm_num [Branch.pick])
  have h20' := beyond 10 20 true .plus (by norm_num [Branch.pick])
  have h5 := beyond 0 5 true .plus (by norm_num [Branch.pick])
  have h5' := beyond 10 5 true .minus (by norm_num [Branch.pick])
  have hr : r.FittedAt 1 :=
    ⟨rfl, ⟨rfl, 0, ⟨trivial, trivial⟩, rfl⟩, ⟨⟨rfl, 10, ⟨⟨trivial, h10⟩, trivial⟩, rfl⟩,
      ⟨⟨rfl, 20, ⟨⟨⟨trivial, h20⟩, h20'⟩, trivial⟩, rfl⟩, trivial, trivial⟩,
      ⟨⟨rfl, 5, ⟨⟨⟨trivial, h5⟩, h5'⟩, trivial⟩, rfl⟩, trivial, trivial⟩⟩, trivial⟩
  obtain ⟨fs, hfs, h⟩ := hr.intervals_ofBoundaryWith one_pos rfl
  have ho : r.facets.toOption.map (·.map Facet.outward) =
      some [cut 20 false, cut 10 true, cut 0 false] := by decide +kernel
  rw [hfs] at ho
  let gs : List (OrientedPoint (Exact ℚ)) := [cut 10 true, cut 0 false, cut 20 false]
  have hp : gs.Perm (fs.map Facet.outward) := by
    have ho : fs.map Facet.outward = _ := Option.some.inj ho
    rw [ho]
    decide +kernel
  obtain ⟨ks, hk, hkp⟩ :
      ∃ ks, Selector.largestFirst (S := line (Exact ℚ)) gs = .ok ks ∧ ks.Perm gs :=
    Selector.largestFirst_perm fun _ _ => ⟨_, rfl⟩
  obtain ⟨s, hs, hi⟩ := h gs hp .largestFirst ks hk hkp
  refine ⟨⟨hr, one_pos, rfl⟩, s, hs, hi, ?_⟩
  have hc : r.intervals = Interval.normalize
      [⟨.finite 0, .finite 5⟩, ⟨.finite 5, .finite 10⟩, ⟨.finite 20, .infinite true⟩] :=
    congrArg Interval.normalize rfl
  have hn (x : ℚ) : Exact.finite x ≠ .undefined := by simp
  rw [hi, hc]
  norm_num [Interval.normalize, List.mergeSort, List.cons_merge_cons, Exact.totalLE_iff, hn,
    Interval.join, Interval.joinFrom, Exact.max_eq, Exact.le_iff]

end Region
end SpacePartition
