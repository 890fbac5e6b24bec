import SpacePartition.Proofs.Line.NormalForm

/-!
The parts of a region of the line on the two sides of a cut. A part has a cut of its own at its
bound, and nothing is left of it only if the region has no point on its side.
-/

namespace SpacePartition

variable {K : Type} [Field K] [LinearOrder K] {ι : Type}

theorem Node.isEmpty_fork {R : Type} {S : Space R} {i : ι} {a : Option Bool} {cut : S.Sub}
    {p m : Node S ι Bool} :
    (fork i a cut p m).isEmpty = true ↔ ∀ b : Branch, (b.pick p m).isEmpty = true := by
  rw [isEmpty, Bool.and_eq_true]
  exact ⟨fun h => fun | .plus => h.2 | .minus => h.1, fun h => ⟨h .minus, h .plus⟩⟩

namespace Line

variable {n : Node (line (Exact K)) ι Bool} {L C : Set K} {t : K} [IsStrictOrderedRing K]

theorem Roomy.exists_off (hC : Roomy C) (hL : L.Finite) (hn : C.Nonempty) : ∃ x ∈ C, x ∉ L := by
  have ⟨e, he⟩ := hn
  have hp : |e - e| < 1 := by simp
  have ⟨x, hx, _⟩ := (hC e he true).exists_close hL hp
  exact ⟨x, hx.1, hx.2.2⟩

-- A partition has no inside leaf if it holds of no point, since all of its cells have points.
theorem isEmpty_iff (hL : L.Finite) (hn : (cells 0 L t).Fitted C n) (hC : Roomy C)
    (hne : C.Nonempty) : n.isEmpty = true ↔ ∀ x ∈ C, x ∉ L → n.holds (outlook x) = false := by
  induction n generalizing C
  case leaf i a =>
    have ⟨x, hx, hxL⟩ := hC.exists_off hL hne
    have h : (Node.leaf (S := line (Exact K)) i a).isEmpty = !(a == some true) := rfl
    rw [h, Bool.not_eq_true']
    exact ⟨fun h _ _ _ => h, fun h => h x hx hxL⟩
  case fork i a cut p m hp hm =>
    have ⟨hs, hf⟩ := Layout.fitted_fork.mp hn
    obtain ⟨c, dir, rfl, hcC, hcL⟩ := cells_spans.mp hs
    let part (b : Branch) : Set K :=
      C ∩ {x | OrientedPoint.Beyond 0 ⟨.finite c, dir, .finite t⟩ b x}
    have hi (b : Branch) : (b.pick p m).isEmpty = true ↔
        ∀ x ∈ part b, x ∉ L → (b.pick p m).holds (outlook x) = false := by
      have hpc : |c - c| < 1 := by simp
      have ⟨y, hy⟩ : (around c 1 L (part b)).Nonempty := hC.around_nonempty hL hcC hpc
      cases b
      case plus  => exact hp (hf .plus) (hC.inter roomy_beyond) ⟨y, hy.1⟩
      case minus => exact hm (hf .minus) (hC.inter roomy_beyond) ⟨y, hy.1⟩
    rw [Node.isEmpty_fork]
    constructor
    case mp =>
      intro h x hx hxL
      have hb : OrientedPoint.Beyond 0 ⟨.finite c, dir, .finite t⟩ _ x :=
        beyond_outlook fun hxc => hxL (hxc ▸ hcL)
      rw [holds_beyond hb]
      exact (hi _).mp (h _) x ⟨hx, hb⟩ hxL
    case mpr =>
      exact fun h b => (hi b).mpr fun x hx hxL => holds_beyond hx.2 ▸ h x hx.1 hxL

end Line

namespace Region

open Line

variable {r : Region (line (Exact K))} {M U : Set K} {c t x : K} {dir : Bool} {b : Branch}

-- What a region of the line has on a side of a cut.
def beyond {R : Type} [Scalar R] (r : Region (line R)) (h : OrientedPoint R) (b : Branch) :
    Region (line R) :=
  let half : Tree (line R) Bool := .ofNode ((r.tree.root.split h).on b)
  ⟨.ofParts (S := line R) (b.pick h.reversed h) (.leaf (some false)) half none, r.tolerance⟩

variable [IsStrictOrderedRing K] (ht : 0 ≤ t) (hM : Spaced M t) (hc : c ∈ M)
  (hr : r.Occupies M t U)

include ht hM hc hr

theorem fitted_half : (cells 0 M t).Fitted
    {x | OrientedPoint.Beyond 0 ⟨.finite c, dir, .finite t⟩ b x}
    ((r.tree.root.split (⟨.finite c, dir, .finite t⟩ : OrientedPoint (Exact K))).on b) := by
  have hw : (cells 0 M t).Spans .univ (⟨.finite c, dir, .finite t⟩ : OrientedPoint (Exact K)) :=
    ⟨rfl, c, ⟨trivial, hc⟩, rfl⟩
  have hf := (hr.fitted.split (hM.separating ht) .univ hw).fitted b
  rwa [Set.univ_inter] at hf

theorem holds_half (hx : x ∉ M)
    (hb : OrientedPoint.Beyond 0 ⟨.finite c, dir, .finite t⟩ b x) :
    ((r.tree.root.split (⟨.finite c, dir, .finite t⟩ : OrientedPoint (Exact K))).on b).holds
      (outlook x) = true ↔ x ∈ U := by
  have hw : (cells 0 M t).Spans .univ (⟨.finite c, dir, .finite t⟩ : OrientedPoint (Exact K)) :=
    ⟨rfl, c, ⟨trivial, hc⟩, rfl⟩
  have hh := (hr.fitted.split (hM.separating ht) .univ hw).holds (sees_outlook hx) trivial
  have hxc : x ≠ c := fun h => hx (h ▸ hc)
  have hl : outlook x ((line (Exact K)).hyperplane _) = b :=
    OrientedPoint.beyond_disjoint (beyond_outlook hxc) hb
  rw [hl] at hh
  rw [hh, hr.holds x hx]

-- A part is lost if there is no point that it could have.
theorem isEmpty_half (hf : M.Finite) : ((r.tree.root.split
    (⟨.finite c, dir, .finite t⟩ : OrientedPoint (Exact K))).on b).isEmpty = true ↔
      ∀ x ∉ M, OrientedPoint.Beyond 0 ⟨.finite c, dir, .finite t⟩ b x → x ∉ U := by
  have hpc : |c - c| < 1 := by simp
  have ⟨y, hy⟩ : (around c 1 M (.univ ∩
      {x | OrientedPoint.Beyond 0 ⟨.finite c, dir, .finite t⟩ b x})).Nonempty :=
    roomy_univ.around_nonempty hf trivial hpc
  rw [isEmpty_iff hf (fitted_half ht hM hc hr) roomy_beyond ⟨y, hy.1.2⟩]
  have hx {x} (hx : x ∉ M) (hb : OrientedPoint.Beyond 0 ⟨.finite c, dir, .finite t⟩ b x) :=
    (holds_half ht hM hc hr hx hb).not.symm.trans (Bool.not_eq_true _).to_iff
  exact forall_congr' fun x =>
    ⟨fun h hxM hb => (hx hxM hb).mpr (h hb hxM), fun h hb hxM => (hx hxM hb).mp (h hxM hb)⟩

theorem occupies_beyond : (r.beyond ⟨.finite c, dir, .finite t⟩ b).Occupies M t
    (U ∩ {x | OrientedPoint.Beyond 0 ⟨.finite c, dir, .finite t⟩ b x}) := by
  have hb :
      b.pick (OrientedPoint.reversed ⟨.finite c, dir, .finite t⟩) ⟨.finite c, dir, .finite t⟩ =
        (⟨.finite c, b.pick (!dir) dir, .finite t⟩ : OrientedPoint (Exact K)) := by
    cases b <;> rfl
  have hm {x : K} : OrientedPoint.Beyond 0 ⟨.finite c, b.pick (!dir) dir, .finite t⟩ .minus x ↔
      OrientedPoint.Beyond 0 ⟨.finite c, dir, .finite t⟩ b x := by
    rw [OrientedPoint.beyond_iff, OrientedPoint.beyond_iff]
    cases b <;> cases dir <;> rfl
  rw [beyond, hb]
  constructor
  case tolerance => exact hr.tolerance
  case fitted =>
    refine ⟨⟨rfl, c, ⟨trivial, hc⟩, rfl⟩, trivial, Layout.fitted_relabel.mpr <|
      Layout.fitted_number.mpr ?_⟩
    have he : {x | OrientedPoint.Beyond 0 ⟨.finite c, dir, .finite t⟩ b x} = .univ ∩
        {x | OrientedPoint.Beyond 0 ⟨.finite c, b.pick (!dir) dir, .finite t⟩ .minus x} := by
      ext x
      exact hm.symm.trans (and_iff_right trivial).symm
    exact he ▸ fitted_half ht hM hc hr
  case holds =>
    intro x hx
    have hxc : x ≠ c := fun h => hx (h ▸ hc)
    have he : (if b.pick (!dir) dir then x ≤ c else c ≤ x) ↔
        OrientedPoint.Beyond 0 ⟨.finite c, dir, .finite t⟩ b x := by
      rw [← hm, OrientedPoint.beyond_iff, add_zero, add_zero, hxc.le_iff_lt, hxc.symm.le_iff_lt]
      cases b <;> cases dir <;> rfl
    rw [holds_ofParts hxc, he, Tree.ofNode, Node.holds_number]
    constructor
    case mp  => exact fun h => ⟨(holds_half ht hM hc hr hx h.1).mp h.2, h.1⟩
    case mpr => exact fun h => ⟨h.2, (holds_half ht hM hc hr hx h.2).mpr h.1⟩

end Region
end SpacePartition
