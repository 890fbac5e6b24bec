import Mathlib.Algebra.Order.Field.Rat
import SpacePartition.Plane.Basic
import SpacePartition.Proofs.Region.Flow
import SpacePartition.Region.Construct

/-!
The boundary of a complement. It consists of the same facets, each turned around: what touched the
inside touches the outside. Nothing is asked of the geometry for that. In exact arithmetic the flow
through the boundary changes its sign, so that of a region and its complement one is unbounded.
-/

namespace Except

variable {ε β γ : Type} {x : Except ε β}

@[simp]
theorem toOption_eq_some {y : β} : x.toOption = some y ↔ x = .ok y := by
  cases x <;> simp [Except.toOption]

@[simp]
theorem toOption_bind {f : β → Except ε γ} :
    (x >>= f).toOption = x.toOption.bind fun y => (f y).toOption := by
  cases x <;> rfl

@[simp]
theorem toOption_map {f : β → γ} : (f <$> x).toOption = x.toOption.map f := by
  cases x <;> rfl

end Except

namespace SpacePartition

variable {R : Type} {S : Space R} {ι : Type}

namespace Contact

def swap (c : Contact S) : Contact S :=
  ⟨c.outside, c.inside⟩

theorem touch_swap {inside : Bool} {sub : S.Sub} {c : Contact S} :
    c.swap.touch (!inside) sub = swap <$> c.touch inside sub := by
  cases inside <;> simp [touch, swap]

end Contact

namespace Facet

def flip (f : Facet S) : Facet S :=
  { f with facing := f.facing.flip }

-- The facets of a cut as its other side has them.
def exchange (fs : List (Facet S)) : List (Facet S) :=
  (fs.map flip).reverse

theorem exchange_append {fs gs : List (Facet S)} (hf : fs.length ≤ 1) (hg : gs.length ≤ 1) :
    exchange (fs ++ gs) = gs.map flip ++ fs.map flip := by
  have hr {fs : List (Facet S)} (h : fs.length ≤ 1) : (fs.map flip).reverse = fs.map flip := by
    match fs with
    | []  => rfl
    | [_] => rfl
  rw [exchange, List.map_append, List.reverse_append, hr hf, hr hg]

-- Only the order in which cuts have their facets changes.
theorem perm_flatten_exchange {gs : List (List (Facet S))} :
    (gs.map exchange).flatten.Perm (gs.flatten.map flip) := by
  induction gs
  case nil => rfl
  case cons g gs hi =>
    rw [List.map_cons, List.flatten_cons, List.flatten_cons, List.map_append]
    exact (List.reverse_perm _).append hi

end Facet

namespace Node

variable {n plus minus : Node S ι Bool} {sub cut : S.Sub}

theorem characterize_complement {c : Contact S} :
    n.complement.characterize sub c.swap = Contact.swap <$> n.characterize sub c := by
  induction n generalizing sub c
  case leaf i a =>
    have ha : (some (a != some true) == some true) = !(a == some true) := by
      rcases a with _ | _ | _ <;> rfl
    rw [complement, characterize, ha, Contact.touch_swap]
    rfl
  case fork i a cut p m hp hm =>
    simp only [complement, characterize]
    split
    case h_1 => exact hp
    case h_2 => exact hm
    case h_3 => simp [hp, hm]
    case h_4 => simp [hp, hm]

theorem contact_complement : n.complement.contact sub = Contact.swap <$> n.contact sub :=
  characterize_complement (c := {})

theorem facetOn_complement (facing : Facing) {touched : Option S.Sub} :
    minus.complement.facetOn facing.flip touched =
      List.map Facet.flip <$> minus.facetOn facing touched := by
  cases touched
  case none => rfl
  case some sub =>
    rw [facetOn, facetOn, contact_complement]
    cases facing <;> simp [Contact.swap, Facing.flip, Facet.flip, Function.comp_def]

theorem length_facetOn {facing : Facing} {touched : Option S.Sub} {fs : List (Facet S)}
    (h : minus.facetOn facing touched = .ok fs) : fs.length ≤ 1 := by
  cases touched
  case none => cases h; exact Nat.zero_le 1
  case some sub =>
    simp only [facetOn, Except.bind_eq_ok] at h
    obtain ⟨c, -, hc⟩ := h
    cases hc
    rw [List.length_map]
    exact Option.length_toList_le

-- The facet that comes first is the one with the outside on its plus side. On the other side of the
-- cut it is the other one.
theorem facetsOfCut_complement :
    (facetsOfCut cut plus.complement minus.complement).toOption =
      (facetsOfCut cut plus minus).toOption.map Facet.exchange := by
  have ho (touched : Option S.Sub) : minus.complement.facetOn .plusOutside touched = _ :=
    facetOn_complement .plusInside
  have hi (touched : Option S.Sub) : minus.complement.facetOn .plusInside touched = _ :=
    facetOn_complement .plusOutside
  simp only [facetsOfCut, contact_complement, bind_map_left, ho, hi, Contact.swap]
  cases hc : plus.contact cut
  case error => rfl
  case ok c =>
    simp only [Except.ok_bind]
    cases hp : minus.facetOn .plusOutside c.outside <;>
      cases hm : minus.facetOn .plusInside c.inside
    case ok.ok =>
      exact congrArg some (Facet.exchange_append (length_facetOn hp) (length_facetOn hm)).symm
    all_goals rfl

theorem length_facetsOfCut {fs : List (Facet S)} (h : facetsOfCut cut plus minus = .ok fs) :
    fs.length ≤ 2 := by
  simp only [facetsOfCut, Except.bind_eq_ok] at h
  obtain ⟨c, -, gs, hg, gs', hg', hf⟩ := h
  cases hf
  rw [List.length_append]
  exact Nat.add_le_add (length_facetOn hg) (length_facetOn hg')

-- The facets of each cut for itself.
def facetsByCut : Node S ι Bool → Except (Violation R) (List (List (Facet S)))
  | leaf .. => .ok []
  | fork _ _ cut plus minus => do
    return (← plus.facetsByCut) ++ (← minus.facetsByCut) ++ [← facetsOfCut cut plus minus]

theorem facets_eq_flatten : n.facets = List.flatten <$> n.facetsByCut := by
  induction n
  case leaf       => rfl
  case fork hp hm => simp [facets, facetsByCut, hp, hm]

theorem length_facetsByCut {gs : List (List (Facet S))} (h : n.facetsByCut = .ok gs) :
    ∀ g ∈ gs, g.length ≤ 2 := by
  induction n generalizing gs
  case leaf => cases h; exact nofun
  case fork hp hm =>
    simp only [facetsByCut, Except.bind_eq_ok] at h
    obtain ⟨ps, hps, ms, hms, fs, hfs, h⟩ := h
    cases h
    simp only [List.mem_append, List.mem_singleton]
    rintro g ((hg | hg) | rfl)
    case inl.inl => exact hp hps g hg
    case inl.inr => exact hm hms g hg
    case inr     => exact length_facetsOfCut hfs

theorem facetsByCut_complement :
    n.complement.facetsByCut.toOption = n.facetsByCut.toOption.map (List.map Facet.exchange) := by
  induction n
  case leaf => rfl
  case fork cut p m hp hm =>
    simp only [complement, facetsByCut, Except.toOption_bind, hp, hm, facetsOfCut_complement]
    cases p.facetsByCut <;> cases m.facetsByCut <;> cases facetsOfCut cut p m <;>
      simp [Except.toOption, pure, Except.pure]

end Node

namespace Region

variable {r : Region S}

def facetsByCut (r : Region S) : Except (Violation R) (List (List (Facet S))) :=
  r.tree.root.facetsByCut

theorem facets_complement_eq : r.complement.facets.toOption =
    r.facetsByCut.toOption.map fun gs => (gs.map Facet.exchange).flatten := by
  rw [facets, Node.facets_eq_flatten, Except.toOption_map, complement, Node.facetsByCut_complement,
    Option.map_map]
  rfl

theorem facets_complement_cases (r : Region S) :
    (∃ fs fs', r.facets = .ok fs ∧ r.complement.facets = .ok fs' ∧ fs'.Perm (fs.map Facet.flip)) ∨
      r.facets.toOption = none ∧ r.complement.facets.toOption = none := by
  rw [facets_complement_eq, facets, Node.facets_eq_flatten, facetsByCut]
  cases h : r.tree.root.facetsByCut
  case ok gs =>
    refine .inl ⟨_, _, rfl, ?_, Facet.perm_flatten_exchange⟩
    rw [← Except.toOption_eq_some, facets_complement_eq, facetsByCut, h]
    rfl
  case error => exact .inr ⟨rfl, rfl⟩

end Region

section Exact

variable {K : Type} [Field K] [LinearOrder K] {S : Space (Exact K)}

namespace Extent

-- The extent of a facet with the region on its other side.
def flip (e : Extent S) : Extent S :=
  { e with height := -e.height }

omit [LinearOrder K] in
theorem sum_flow_flip {es : List (Extent S)} :
    ((es.map flip).map (·.flow)).sum = -(es.map (·.flow)).sum := by
  rw [List.sum_neg, List.map_map, List.map_map]
  exact congrArg _ <| List.map_congr_left fun e _ => mul_neg e.area e.height

end Extent

theorem Facet.Has.flip {f : Facet S} {e : Extent S} (h : f.Has e) : f.flip.Has e.flip where
  area       := h.area
  height     := by
    refine h.height.trans ?_
    rw [Facet.flip, Extent.flip]
    cases f.facing <;> simp [Facing.flip]
  barycenter := h.barycenter

namespace Exact

instance : RightCommutative (α := Exact K) (β := Exact K) (· + ·) where
  right_comm a b c := by
    rcases a with x | (_ | _) | _ <;> rcases b with y | (_ | _) | _ <;>
      rcases c with z | (_ | _) | _
    case finite.finite.finite => exact congrArg finite (add_right_comm x y z)
    all_goals rfl

-- The order of summands is of no account, nor is the order in which they are measured.
theorem sum_mapM_perm {ε β : Type} {xs ys : List β} (h : xs.Perm ys) (f : β → Except ε (Exact K)) :
    (Scalar.sum <$> xs.mapM f).toOption = (Scalar.sum <$> ys.mapM f).toOption := by
  have mp {xs ys : List β} (h : xs.Perm ys) {z : Exact K} (hx : Scalar.sum <$> ys.mapM f = .ok z) :
      Scalar.sum <$> xs.mapM f = .ok z := by
    obtain ⟨zs, hz, rfl⟩ := Except.map_eq_ok.mp hx
    obtain ⟨zs', hz', hp⟩ := List.perm_comp_forall₂ h <| Except.mapM_eq_ok.mp hz
    exact Except.map_eq_ok.mpr ⟨zs', Except.mapM_eq_ok.mpr hz', hp.foldl_eq _⟩
  refine Option.ext fun z => ?_
  rw [Except.toOption_eq_some, Except.toOption_eq_some]
  exact ⟨mp h.symm, mp h⟩

end Exact

namespace Region

variable {r : Region S}

theorem boundarySize_complement (r : Region S) :
    r.complement.boundarySize.toOption = r.boundarySize.toOption := by
  have hb (r : Region S) : r.boundarySize =
      r.facets >>= fun fs => Scalar.sum <$> fs.mapM (S.size ·.sub) := by
    simp [boundarySize]
  rw [hb, hb]
  rcases r.facets_complement_cases with ⟨fs, fs', hf, hf', hp⟩ | ⟨hf, hf'⟩
  case inl =>
    rw [hf, hf', Except.ok_bind, Except.ok_bind, Exact.sum_mapM_perm hp, List.mapM_map]
    rfl
  case inr => rw [Except.toOption_bind, Except.toOption_bind, hf, hf']

variable [IsStrictOrderedRing K] {fs : List (Facet S)} {es : List (Extent S)}

-- The flow out of a region is the flow into its complement.
theorem divergence_complement (hl : r.tree.root.isLeaf = false) (hf : r.facets = .ok fs)
    (he : List.Forall₂ Facet.Has fs es) (hd : 0 < Coordinates.dimension S.Point) :
    let size := (es.map (·.flow)).sum / (Coordinates.dimension S.Point : ℕ)
    ∃ p q, r.divergence = .ok p ∧ r.complement.divergence = .ok q ∧
      p.size = (if size < 0 then .infinite true else .finite size) ∧
      q.size = (if 0 < size then .infinite true else .finite (-size)) := by
  intro size
  have ⟨fs', hf', es', he', hes⟩ : ∃ fs', r.complement.facets = .ok fs' ∧
      ∃ es', List.Forall₂ Facet.Has fs' es' ∧ es'.Perm (es.map Extent.flip) := by
    rcases r.facets_complement_cases with ⟨_, fs', h, hf', hp⟩ | ⟨h, -⟩
    case inl =>
      cases Except.ok.inj <| h.symm.trans hf
      have hfl : List.Forall₂ Facet.Has (fs.map Facet.flip) (es.map Extent.flip) := by
        rw [List.forall₂_map_left_iff, List.forall₂_map_right_iff]
        exact he.imp fun _ _ h => h.flip
      exact ⟨fs', hf', List.perm_comp_forall₂ hp hfl⟩
    case inr => rw [hf] at h; cases h
  have hl' : r.complement.tree.root.isLeaf = false := by
    rw [complement]
    cases hr : r.tree.root <;> simp_all [Node.complement, Node.isLeaf]
  have hs : (es'.map (·.flow)).sum / (Coordinates.dimension S.Point : ℕ) = -size := by
    rw [(hes.map _).sum_eq, Extent.sum_flow_flip, neg_div]
  refine ⟨_, _, divergence_eq hl hf he hd, divergence_eq hl' hf' he' hd, ?size, ?flipped⟩
  case size => exact apply_ite Properties.size _ _ _
  case flipped =>
    rw [hs]
    simp only [neg_lt_zero]
    exact apply_ite Properties.size _ _ _

end Region

end Exact

namespace Region

-- A complement has the facets of the region, those of each cut exchanged and turned around.
theorem boundary_complement :
    (∀ {R : Type} {S : Space R} (r : Region S),
      r.facets = List.flatten <$> r.facetsByCut ∧
      (∀ gs, r.facetsByCut = .ok gs → ∀ g ∈ gs, g.length ≤ 2) ∧
      r.complement.facetsByCut.toOption = r.facetsByCut.toOption.map (List.map Facet.exchange)) ∧
    ∀ {K : Type} [Field K] [LinearOrder K] [IsStrictOrderedRing K] {S : Space (Exact K)}
      (r : Region S),
      r.complement.boundarySize.toOption = r.boundarySize.toOption ∧
      ∀ fs es, r.tree.root.isLeaf = false → r.facets = .ok fs → List.Forall₂ Facet.Has fs es →
        (es.map (·.flow)).sum ≠ 0 → 0 < Coordinates.dimension S.Point →
        ∃ p q, r.divergence = .ok p ∧ r.complement.divergence = .ok q ∧
          Xor (∃ x, p.size = .finite x) (∃ x, q.size = .finite x) := by
  refine ⟨fun r => ⟨Node.facets_eq_flatten, fun _ h => Node.length_facetsByCut h,
    Node.facetsByCut_complement⟩,
    fun r => ⟨r.boundarySize_complement, fun fs es hl hf he hs hd => ?_⟩⟩
  have ⟨p, q, hp, hq, hps, hqs⟩ := divergence_complement hl hf he hd
  refine ⟨p, q, hp, hq, ?_⟩
  rw [hps, hqs]
  rcases lt_or_gt_of_ne <| div_ne_zero hs <| Nat.cast_ne_zero.mpr hd.ne' with h | h
  case inl => simp [h, h.not_gt]
  case inr => simp [h, h.not_gt]

instance : DecidableEq (plane (Exact ℚ)).Point := fun (p q : Vec2 (Exact ℚ)) =>
  decidable_of_iff (p.x = q.x ∧ p.y = q.y) Vec2.ext_iff.symm

-- A triangle has a size, and what surrounds it has none.
theorem boundary_complement_of_triangle :
    let point (x y : ℚ) : (plane (Exact ℚ)).Point := (⟨.finite x, .finite y⟩ : Vec2 (Exact ℚ))
    let side (cos sin originOffset : ℚ) : (plane (Exact ℚ)).Hyperplane :=
      (⟨.finite cos, .finite sin, .finite originOffset, .finite (1 / 4)⟩ : OrientedLine (Exact ℚ))
    let sides := [side 1 0 0, side (-4 / 5) (3 / 5) (-12 / 5), side 0 (-1) 0]
    let es := [⟨3, 0, point 0 (3 / 2)⟩, ⟨5, 12 / 5, point 2 (3 / 2)⟩, ⟨4, 0, point 2 0⟩]
    ∃ (r : Region (plane (Exact ℚ))) (fs : List (Facet (plane (Exact ℚ))))
      (p q : Properties (plane (Exact ℚ))),
      (convex sides (.finite (1 / 4)) = .ok r ∧ r.tree.root.isLeaf = false ∧ r.facets = .ok fs ∧
        List.Forall₂ Facet.Has fs es ∧ (es.map (·.flow)).sum = 12 ∧
        0 < Coordinates.dimension (plane (Exact ℚ)).Point) ∧
      r.divergence = .ok p ∧ r.complement.divergence = .ok q ∧
      Xor (∃ x, p.size = .finite x) (∃ x, q.size = .finite x) := by
  intro point side sides es
  have h : ∃ r ∈ (convex sides (.finite (1 / 4))).toOption, r.tree.root.isLeaf = false ∧
      ∃ fs ∈ r.facets.toOption, List.Forall₂ Facet.Has fs es := by
    decide +kernel
  simp only [Option.mem_def, Except.toOption_eq_some] at h
  have ⟨r, hr, hl, fs, hf, he⟩ := h
  have hs : (es.map (·.flow)).sum = 12 := by decide +kernel
  have hd : 0 < Coordinates.dimension (plane (Exact ℚ)).Point := Nat.two_pos
  have ⟨p, q, h⟩ := (boundary_complement.2 r).2 fs es hl hf he (hs ▸ by decide) hd
  exact ⟨r, fs, p, q, ⟨hr, hl, hf, he, hs, hd⟩, h⟩

end Region
end SpacePartition
