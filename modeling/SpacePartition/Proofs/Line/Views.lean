import SpacePartition.Proofs.Line.Locations
import SpacePartition.Region.Boundary

/-!
Three views of a region of the line: the locations of points, the intervals and the facets. They
agree if the cuts keep the tolerance from the cuts above them.
-/

namespace SpacePartition

-- What lies on one side of a cut falls to that side.
theorem Node.characterize_fork {R ι : Type} {S : Space R} {i : ι} {a : Option Bool}
    {cut sub : S.Sub} {plus minus : Node S ι Bool} {c : Contact S} {b : Branch}
    (h : (S.split sub (S.hyperplane cut)).side = b.side) :
    (fork i a cut plus minus).characterize sub c = (b.pick plus minus).characterize sub c := by
  rw [characterize]
  generalize S.split sub (S.hyperplane cut) = parts at h
  obtain ⟨_ | _, _ | _⟩ := parts <;> cases b <;> cases h <;> rfl

variable {K : Type} [Field K] [LinearOrder K] {ι : Type}

namespace Line

variable {c e t x : K} {dir above : Bool} {tol : Exact K} {b : Branch} {L C : Set K} {i : ι}
variable {a : Option Bool} {plus minus n : Node (line (Exact K)) ι Bool}
variable {fs ps ms : List (Facet (line (Exact K)))}

theorem holds_beside_self (c : K) (above : Bool) :
    (Node.fork i a (⟨.finite c, dir, tol⟩ : OrientedPoint (Exact K)) plus minus).holds
      (beside c above) =
      ((OrientedPoint.toward ⟨.finite c, dir, tol⟩ above).pick plus minus).holds
        (beside c above) := by
  rw [Node.holds_fork, beside_eq]
  simp

-- A cut is a facet if what is next to it differs from its plus side to its minus side.
def facetAt (s : OrientedPoint (Exact K)) (plus minus : Bool) : List (Facet (line (Exact K))) :=
  if plus = minus then [] else [⟨s, if minus then .plusOutside else .plusInside⟩]

theorem mem_facetAt {s : OrientedPoint (Exact K)} {x y : Bool} {f : Facet (line (Exact K))} :
    f ∈ facetAt s x y ↔ x ≠ y ∧ f = ⟨s, if y then .plusOutside else .plusInside⟩ := by
  rw [facetAt]
  split <;> simp_all

theorem facetsOfCut_eq {s : OrientedPoint (Exact K)} {x y : Bool}
    (hp : plus.contact s = Contact.touch x s {}) (hm : minus.contact s = Contact.touch y s {}) :
    Node.facetsOfCut s plus minus = .ok (facetAt s x y) := by
  have ht (x) : Contact.touch (S := line (Exact K)) x s {} =
      .ok (if x then ⟨some s, none⟩ else ⟨none, some s⟩) := by
    cases x <;> rfl
  rw [ht] at hp hm
  cases x <;> cases y <;>
    simp [Node.facetsOfCut, Node.facetOn, hp, hm, facetAt, bind, Except.bind, pure, Except.pure]

-- Whether facets are where what is next to a place differs from one side to the other.
structure Faces (C : Set K) (n : Node (line (Exact K)) ι Bool)
    (fs : List (Facet (line (Exact K)))) : Prop where
  within  : ∀ f ∈ fs, ∃ c ∈ C, f.sub.location = .finite c
  nodup   : (fs.map (·.sub.location)).Nodup
  mem_iff : ∀ e, (∃ f ∈ fs, f.sub.location = .finite e) ↔
    n.holds (beside e false) ≠ n.holds (beside e true)
  facing  : ∀ f ∈ fs, ∀ e, f.sub.location = .finite e →
    (f.facing = .plusOutside ↔ n.holds (beside e !f.sub.direct) = true)
  cuts    : ∀ f ∈ fs, f.sub ∈ n.cuts

theorem faces_leaf : Faces C (.leaf i a) [] where
  within  := by simp
  nodup   := List.nodup_nil
  mem_iff := by simp [Node.holds_leaf]
  facing  := by simp
  cuts    := by simp

variable [IsStrictOrderedRing K]

theorem holds_beside (he : OrientedPoint.Beyond 0 ⟨.finite c, dir, tol⟩ b e) :
    (Node.fork i a (⟨.finite c, dir, tol⟩ : OrientedPoint (Exact K)) plus minus).holds
      (beside e above) = (b.pick plus minus).holds (beside e above) := by
  have hec : e ≠ c := fun h => OrientedPoint.not_beyond_self (h ▸ he)
  have hb : beside e above (⟨.finite c, dir, tol⟩ : OrientedPoint (Exact K)) = b := by
    rw [← OrientedPoint.beyond_disjoint (beyond_outlook hec) he, outlook_toward hec, beside_eq]
    simp [hec.symm]
  rw [Node.holds_fork, hb]

-- A place that no cut is close to falls into a single leaf.
theorem characterize_eq (ht : 0 ≤ t) {s : OrientedPoint (Exact K)} (hs : s.location = .finite x)
    (hn : ∀ w ∈ n.cuts, ∃ c dir, w = (⟨.finite c, dir, .finite t⟩ : OrientedPoint (Exact K)) ∧
      t < |x - c|)
    (above : Bool) (k : Contact (line (Exact K))) :
    n.characterize s k = k.touch (n.holds (beside x above)) s := by
  induction n
  case leaf => rfl
  case fork cut plus minus hp hm =>
    obtain ⟨⟨c, dir, rfl, hd⟩, np, nm⟩ := Node.forall_cuts_fork.mp hn
    have hb : OrientedPoint.Beyond t ⟨.finite c, dir, .finite t⟩
        (OrientedPoint.toward (⟨.finite c, dir, .finite t⟩ : OrientedPoint (Exact K))
          (decide (c < x))) x := by
      rw [OrientedPoint.beyond_toward]
      rw [lt_abs] at hd
      by_cases h : c < x <;> simp only [h, decide_true, decide_false, if_true] <;> grind
    generalize OrientedPoint.toward (_ : OrientedPoint (Exact K)) (decide (c < x)) = b at hb
    rw [holds_beside (hb.mono ht),
      Node.characterize_fork <| OrientedPoint.split_side hs ht |>.mpr hb]
    cases b
    case plus  => exact hp np
    case minus => exact hm nm

section Fork

variable {f g : Facet (line (Exact K))} {x y : Bool}

omit [IsStrictOrderedRing K] in
theorem mem_facets_fork : f ∈ ps ++ ms ++ fs ↔ (∃ b : Branch, f ∈ b.pick ps ms) ∨ f ∈ fs := by
  rw [List.mem_append, List.mem_append]
  refine or_congr_left ⟨?mp, fun ⟨b, hf⟩ => ?mpr⟩
  case mp =>
    rintro (hf | hf)
    case inl => exact ⟨.plus, hf⟩
    case inr => exact ⟨.minus, hf⟩
  case mpr =>
    cases b
    case plus  => exact .inl hf
    case minus => exact .inr hf

omit [IsStrictOrderedRing K] in
theorem eq_of_mem_facetAt (hf : f ∈ facetAt (⟨.finite c, dir, tol⟩ : OrientedPoint (Exact K)) x y)
    (hl : f.sub.location = .finite e) : e = c := by
  cases (mem_facetAt.mp hf).2
  exact (Exact.finite.inj hl).symm

variable (ht : 0 ≤ t)
variable (h : ∀ b : Branch, Faces (C ∩ {x | OrientedPoint.Beyond t ⟨.finite c, dir, tol⟩ b x})
  (b.pick plus minus) (b.pick ps ms))

include ht h

omit [IsStrictOrderedRing K] in
-- A facet of a side is beyond the cut, and the facet of the cut is not.
theorem Faces.beyond (hf : f ∈ b.pick ps ms) (hl : f.sub.location = .finite e) :
    OrientedPoint.Beyond 0 ⟨.finite c, dir, tol⟩ b e := by
  have ⟨c', hc', hl'⟩ := (h b).within f hf
  cases hl.symm.trans hl'
  exact hc'.2.mono ht

theorem Faces.apart_of_sides (hf : f ∈ b.pick ps ms) (hg : g ∈ b.flip.pick ps ms) :
    f.sub.location ≠ g.sub.location := by
  intro he
  have ⟨e, _, hl⟩ := (h b).within f hf
  exact Branch.flip_ne <|
    OrientedPoint.beyond_disjoint (beyond ht h hg (he ▸ hl)) (beyond ht h hf hl)

theorem Faces.apart_of_own (hf : f ∈ b.pick ps ms)
    (hg : g ∈ facetAt (⟨.finite c, dir, tol⟩ : OrientedPoint (Exact K)) x y) :
    f.sub.location ≠ g.sub.location := by
  intro he
  have ⟨e, _, hl⟩ := (h b).within f hf
  exact OrientedPoint.not_beyond_self (eq_of_mem_facetAt hg (he ▸ hl) ▸ beyond ht h hf hl)

theorem Faces.nodup_fork :
    ((ps ++ ms ++ facetAt ⟨.finite c, dir, tol⟩ x y).map (·.sub.location)).Nodup := by
  have own : ((facetAt ⟨.finite c, dir, tol⟩ x y).map (·.sub.location)).Nodup := by
    rw [facetAt]
    split <;> simp
  rw [List.map_append, List.map_append, List.append_assoc, List.nodup_append, List.nodup_append]
  refine ⟨(h .plus).nodup, ⟨(h .minus).nodup, own, ?of_minus⟩, ?of_plus⟩
  case of_minus =>
    simp only [List.mem_map]
    rintro _ ⟨f, hf, rfl⟩ _ ⟨g, hg, rfl⟩
    exact apart_of_own ht h (b := .minus) hf hg
  case of_plus =>
    simp only [List.mem_append, List.mem_map]
    rintro _ ⟨f, hf, rfl⟩ _ (⟨g, hg, rfl⟩ | ⟨g, hg, rfl⟩)
    case inl => exact apart_of_sides ht h (b := .plus) hf hg
    case inr => exact apart_of_own ht h (b := .plus) hf hg

theorem Faces.mem_iff_fork (e : K) :
    let cut : OrientedPoint (Exact K) := ⟨.finite c, dir, tol⟩
    let n := Node.fork i a cut plus minus
    (∃ f ∈ ps ++ ms ++ facetAt cut (n.holds (beside c dir)) (n.holds (beside c !dir)),
      f.sub.location = .finite e) ↔ n.holds (beside e false) ≠ n.holds (beside e true) := by
  intro cut n
  by_cases hec : e = c
  case pos =>
    subst hec
    have hd : n.holds (beside e false) ≠ n.holds (beside e true) ↔
        n.holds (beside e dir) ≠ n.holds (beside e !dir) := by
      cases dir
      case false => rfl
      case true  => exact ne_comm
    rw [hd]
    constructor
    case mp =>
      rintro ⟨f, hf, hl⟩
      rcases mem_facets_fork.mp hf with ⟨b, hf⟩ | hf
      case inl => exact absurd (beyond ht h hf hl) OrientedPoint.not_beyond_self
      case inr => exact (mem_facetAt.mp hf).1
    case mpr =>
      exact fun hn => ⟨_, mem_facets_fork.mpr <| .inr <| mem_facetAt.mpr ⟨hn, rfl⟩, rfl⟩
  case neg =>
    have hb : OrientedPoint.Beyond 0 cut _ e := beyond_outlook hec
    rw [holds_beside hb, holds_beside hb, ← (h _).mem_iff e]
    constructor
    case mp =>
      rintro ⟨f, hf, hl⟩
      rcases mem_facets_fork.mp hf with ⟨b, hf⟩ | hf
      case inl =>
        cases OrientedPoint.beyond_disjoint hb (beyond ht h hf hl)
        exact ⟨f, hf, hl⟩
      case inr => exact absurd (eq_of_mem_facetAt hf hl) hec
    case mpr => exact fun ⟨f, hf, hl⟩ => ⟨f, mem_facets_fork.mpr (.inl ⟨_, hf⟩), hl⟩

theorem Faces.fork (hc : c ∈ C) :
    let cut : OrientedPoint (Exact K) := ⟨.finite c, dir, tol⟩
    let n := Node.fork i a cut plus minus
    Faces C n (ps ++ ms ++ facetAt cut (n.holds (beside c dir)) (n.holds (beside c !dir))) := by
  intro cut n
  constructor
  case within =>
    intro f hf
    rcases mem_facets_fork.mp hf with ⟨b, hf⟩ | hf
    case inl => exact ((h b).within f hf).imp fun _ h => ⟨h.1.1, h.2⟩
    case inr => exact ⟨c, hc, by rw [(mem_facetAt.mp hf).2]⟩
  case nodup   => exact nodup_fork ht h
  case mem_iff => exact mem_iff_fork ht h
  case facing =>
    intro f hf e hl
    rcases mem_facets_fork.mp hf with ⟨b, hf⟩ | hf
    case inl => rw [holds_beside (beyond ht h hf hl), (h b).facing f hf e hl]
    case inr =>
      have he := eq_of_mem_facetAt hf hl
      subst he
      obtain ⟨_, rfl⟩ := mem_facetAt.mp hf
      change _ ↔ n.holds (beside _ !dir) = true
      cases n.holds (beside _ !dir) <;> simp
  case cuts =>
    intro f hf
    rw [Node.cuts, List.mem_cons, List.mem_append]
    rcases mem_facets_fork.mp hf with ⟨b, hf⟩ | hf
    case inl =>
      cases b
      case plus  => exact .inr <| .inl <| (h .plus).cuts f hf
      case minus => exact .inr <| .inr <| (h .minus).cuts f hf
    case inr => exact .inl <| by rw [(mem_facetAt.mp hf).2]

end Fork

-- The cuts on a side of a cut are not close to it.
theorem cuts_beyond (hn : (cells t L t).Fitted
    (C ∩ {x | OrientedPoint.Beyond t ⟨.finite c, dir, tol⟩ b x}) n) {w : OrientedPoint (Exact K)}
    (hw : w ∈ n.cuts) :
    ∃ c' dir', w = (⟨.finite c', dir', .finite t⟩ : OrientedPoint (Exact K)) ∧ t < |c - c'| := by
  have ⟨D, hD, hs⟩ := hn.exists_spans hw
  obtain ⟨c', dir', rfl, hc', _⟩ := cells_spans.mp hs
  have hb : OrientedPoint.Beyond .. := (hD hc').2
  exact ⟨c', dir', rfl, abs_sub_comm c c' ▸ hb.apart OrientedPoint.not_beyond_self⟩

theorem facets_eq (ht : 0 ≤ t) (hn : (cells t L t).Fitted C n) :
    ∃ fs, n.facets = .ok fs ∧ Faces C n fs := by
  induction n generalizing C
  case leaf => exact ⟨[], rfl, faces_leaf⟩
  case fork i a cut plus minus hp hm =>
    have ⟨hs, hf⟩ := Layout.fitted_fork.mp hn
    obtain ⟨c, dir, rfl, hc, _⟩ := cells_spans.mp hs
    have ⟨ps, hps, fp⟩ := hp (hf .plus)
    have ⟨ms, hms, fm⟩ := hm (hf .minus)
    have faces := Faces.fork (i := i) (a := a) ht (fun | .plus => fp | .minus => fm) hc
    let cut : OrientedPoint (Exact K) := ⟨.finite c, dir, .finite t⟩
    have falls (b above) (h : cut.toward above = b) : (b.pick plus minus).contact cut =
        Contact.touch ((Node.fork i a cut plus minus).holds (beside c above)) cut {} := by
      rw [holds_beside_self, h]
      exact characterize_eq ht rfl (fun _ hw => cuts_beyond (hf b) hw) above {}
    have ho :
        Node.facetsOfCut (⟨.finite c, dir, .finite t⟩ : OrientedPoint (Exact K)) plus minus = _ :=
      facetsOfCut_eq (falls .plus dir (by simp [cut, OrientedPoint.toward]))
        (falls .minus (!dir) (by simp [cut, OrientedPoint.toward]))
    refine ⟨_, ?_, faces⟩
    rw [Node.facets, hps, hms]
    simp only [bind, Except.bind, pure, Except.pure, ho]
    rfl

end Line

namespace Region

open Line

variable {r : Region (line (Exact K))} {t : K} [IsStrictOrderedRing K]

-- A point is at the boundary if it is close to a bound of the intervals, and else it is inside if
-- it lies in them. The facets are the bounds, and they face away from their interval.
theorem FittedAt.views (h : r.FittedAt t) (ht : 0 < t) :
    (∀ p, (r.check (Exact.finite p) = .boundary ↔ ∃ e ∈ Interval.ends r.intervals, |p - e| < t) ∧
      ((¬∃ e ∈ Interval.ends r.intervals, |p - e| < t) →
        (r.check (Exact.finite p) = .inside ↔ p ∈ Interval.union r.intervals) ∧
        (r.check (Exact.finite p) = .outside ↔ p ∉ Interval.union r.intervals))) ∧
    ∃ fs, r.facets = .ok fs ∧ (fs.map (·.sub.location)).Nodup ∧
      (∀ l, (∃ f ∈ fs, f.sub.location = l) ↔ ∃ e ∈ Interval.ends r.intervals, l = .finite e) ∧
      ∀ f ∈ fs, f.facing = .plusOutside ↔ ∃ i ∈ r.intervals,
        if f.sub.direct then i.upper = f.sub.location else i.lower = f.sub.location := by
  have hn := h.cells ht.le subset_rfl
  have ⟨fs, hfs, hf⟩ := facets_eq ht.le h.fitted
  refine ⟨fun p => ⟨h.check_eq_boundary ht, h.check_off_ends ht⟩, fs, hfs, hf.nodup, fun l => ?ends,
    fun f hm => ?facing⟩
  case ends =>
    constructor
    case mp =>
      rintro ⟨f, hm, rfl⟩
      have ⟨e, _, he⟩ := hf.within f hm
      exact ⟨e, (mem_ends hn r.finite_locations).mpr <| (hf.mem_iff e).mp ⟨f, hm, he⟩, he⟩
    case mpr =>
      rintro ⟨e, he, rfl⟩
      exact (hf.mem_iff e).mpr <| (mem_ends hn r.finite_locations).mp he
  case facing =>
    have ⟨e, _, he⟩ := hf.within f hm
    have hd := (hf.mem_iff e).mp ⟨f, hm, he⟩
    rw [hf.facing f hm e he, he]
    cases f.sub.direct
    case false =>
      simp only [Bool.false_eq_true, if_false, Bool.not_false,
        lower_intervals hn r.finite_locations]
      generalize r.tree.root.holds (beside e false) = below at hd ⊢
      cases below <;> simp_all
    case true =>
      simp only [if_true, Bool.not_true, upper_intervals hn r.finite_locations]
      generalize r.tree.root.holds (beside e true) = above at hd ⊢
      cases above <;> simp_all

-- A cut in the middle of an interval is no boundary and no facet.
theorem FittedAt.views_of_needless_cut :
    let inside : Tree (line (Exact ℚ)) Bool := .leaf (some true)
    let outside : Tree (line (Exact ℚ)) Bool := .leaf (some false)
    let cut (x : ℚ) (direct : Bool) : OrientedPoint (Exact ℚ) := ⟨.finite x, direct, .finite 1⟩
    let r : Region (line (Exact ℚ)) := ⟨.ofParts (cut 0 false) outside
      (.ofParts (cut 10 true) outside (.ofParts (cut 5 true) inside inside none) none) none,
      .finite 1⟩
    (r.FittedAt 1 ∧ (0 : ℚ) < 1) ∧ ∃ fs, r.facets = .ok fs ∧
      (∃ f ∈ fs, ∃ e, f.sub.location = .finite e ∧ |10 - e| < 1) ∧
      ∀ f ∈ fs, ∀ e, f.sub.location = .finite e → ¬|5 - e| < 1 := by
  intro inside outside cut r
  have hr : r.FittedAt 1 := by
    refine ⟨rfl, ⟨rfl, 0, ⟨trivial, trivial⟩, rfl⟩, trivial,
      ⟨rfl, 10, ⟨⟨trivial, ?ten_off_zero⟩, trivial⟩, rfl⟩, trivial,
      ⟨rfl, 5, ⟨⟨⟨trivial, ?five_off_zero⟩, ?five_off_ten⟩, trivial⟩, rfl⟩, trivial, trivial⟩
    case ten_off_zero  => exact Exact.finite_lt.mpr (by norm_num : (1 : ℚ) < -(-(10 + -0)))
    case five_off_zero => exact Exact.finite_lt.mpr (by norm_num : (1 : ℚ) < -(-(5 + -0)))
    case five_off_ten  => exact Exact.finite_lt.mpr (by norm_num : (1 : ℚ) < -(5 + -10))
  have ⟨hc, fs, hf, _, hl, _⟩ := hr.views one_pos
  refine ⟨⟨hr, one_pos⟩, fs, hf, ?close, fun f hm e he hd => ?far⟩
  case close =>
    have ⟨e, he, hd⟩ := (hc 10).1.mp (by decide +kernel)
    have ⟨f, hm, he⟩ := (hl (.finite e)).mpr ⟨e, he, rfl⟩
    exact ⟨f, hm, e, he, hd⟩
  case far =>
    have ⟨e', he', h⟩ := (hl (.finite e)).mp ⟨f, hm, he⟩
    cases h
    exact absurd ((hc 5).1.mpr ⟨e, he', hd⟩) (by decide +kernel)

end Region
end SpacePartition
