import SpacePartition.Proofs.Plane.Outline
import SpacePartition.Proofs.Solid.Distance
import SpacePartition.Solid.Polyhedron

/-!
Polyhedra of real space. A polyhedron is refused for the first of its facets that is flawed, and for
the first of its flaws. The outline of a facet that passes is a polygon in the plane of the facet,
since the first three corners stay apart in that plane.
-/

namespace SpacePartition

open Solid

-- The roots and angles of the real numbers.
noncomputable def Exact.Functions.real : Functions ℝ :=
  ⟨Metric.sqrt, Metric.hypot, Metric.sin, Metric.cos, Metric.atan2⟩

theorem Exact.Functions.hasNonzeroRoots_real : real.HasNonzeroRoots := by
  intro x hx h
  have h : Metric.sqrt (finite x) = finite 0 := h
  rw [Exact.sqrt_finite hx.le] at h
  exact (Real.sqrt_pos.mpr hx).ne' (Exact.finite.inj h)

namespace SubPlane

section Corners

variable {R : Type} [Metric R] {V : Array (Vec3 R)} {t : R} {i : Nat} {facet : List Nat}
variable {ps : List (Vec3 R)}

-- What becomes of a facet with known corners.
def ofPoints (t : R) (i : Nat) : List (Vec3 R) → Except (Fault R) (SubPlane R)
  | p :: q :: r :: ps => do
    let h ← OrientedPlane.throughPoints p q r t
    unless (p :: q :: r :: ps).all h.contains do
      throw (.geometry (.nonPlanarFacet i))
    return ⟨h, ← Region.polygon ((p :: q :: r :: ps).map h.toPlane) t⟩
  | ps => .error (.geometry (.tooFewVertices i ps.length 3))

theorem ofCorners_of_short (h : facet.length < 3) :
    ofCorners V t i facet = .error (.geometry (.tooFewVertices i facet.length 3)) := by
  match facet with
  | []     => rfl
  | [_]    => rfl
  | [_, _] => rfl

theorem ofCorners_eq (h : 3 ≤ facet.length) : ofCorners V t i facet =
    (liftM (facet.mapM (corner V i)) : Except (Fault R) (List (Vec3 R))) >>= ofPoints t i := by
  match facet with
  | j :: k :: l :: facet =>
    rw [ofCorners]
    simp only [List.mapM_cons]
    cases corner V i j
    case error => rfl
    case ok p =>
      cases corner V i k
      case error => rfl
      case ok q =>
        cases corner V i l
        case error => rfl
        case ok r =>
          cases facet.mapM (corner V i)
          case error => rfl
          case ok ps => rfl

end Corners

section Flaw

variable {vertices : Array (Fin 3 → ℝ)} {tol : ℝ} {i k : Nat} {facet : List Nat}
variable {p q r : Fin 3 → ℝ} {ps : List (Fin 3 → ℝ)} {flaw : GeometryError} {f : Frame ℝ}

-- Whether the vertices of a facet are at the given points.
def Corners (vertices : Array (Fin 3 → ℝ)) : List Nat → List (Fin 3 → ℝ) → Prop :=
  List.Forall₂ fun k p => vertices[k]? = some p

-- What is wrong with facet number `i`, in the order in which it is looked for.
inductive Flaw (vertices : Array (Fin 3 → ℝ)) (tol : ℝ) (i : Nat) (facet : List Nat) :
    GeometryError → Prop
  | few : facet.length < 3 → Flaw vertices tol i facet (.tooFewVertices i facet.length 3)
  | outside {k : Nat} : 3 ≤ facet.length → facet.find? (vertices.size ≤ ·) = some k →
      Flaw vertices tol i facet (.vertexOutOfRange i k vertices.size)
  | aligned {p q r : Fin 3 → ℝ} {ps : List (Fin 3 → ℝ)} :
      Corners vertices facet (p :: q :: r :: ps) → Collinear ℝ {p, q, r} →
      Flaw vertices tol i facet .zeroNorm
  | slanted {p q r c : Fin 3 → ℝ} {ps : List (Fin 3 → ℝ)} :
      Corners vertices facet (p :: q :: r :: ps) → ¬Collinear ℝ {p, q, r} →
      c ∈ p :: q :: r :: ps → ¬Near tol (affineSpan ℝ {p, q, r}) c →
      Flaw vertices tol i facet (.nonPlanarFacet i)

def Sound (vertices : Array (Fin 3 → ℝ)) (tol : ℝ) (i : Nat) (facet : List Nat) : Prop :=
  ∀ flaw, ¬Flaw vertices tol i facet flaw

theorem corner_eq (h : vertices[k]? = some p) :
    corner (vertices.map solidPoint) i k = .ok (solidPoint p) := by
  rw [corner, Array.getElem?_map, h]
  rfl

theorem corner_outside (h : vertices.size ≤ k) :
    corner (vertices.map solidPoint) i k = .error (.vertexOutOfRange i k vertices.size) := by
  rw [corner, Array.getElem?_map, Array.getElem?_eq_none h, Array.size_map]
  rfl

theorem mapM_corner (h : Corners vertices facet ps) :
    facet.mapM (corner (vertices.map solidPoint) i) = .ok (ps.map solidPoint) :=
  Except.mapM_eq_ok.mpr <| List.forall₂_map_right_iff.mpr <| h.imp fun _ _ => corner_eq

theorem mapM_corner_outside (h : facet.find? (vertices.size ≤ ·) = some k) :
    facet.mapM (corner (vertices.map solidPoint) i) =
      .error (.vertexOutOfRange i k vertices.size) := by
  obtain ⟨hk, j, hj, rfl, hl⟩ := List.find?_eq_some_iff_getElem.mp h
  refine Except.mapM_eq_error (List.getElem?_eq_getElem hj) ?corner fun l hlj m hm => ?before
  case corner => exact corner_outside (by simpa using hk)
  case before =>
    obtain ⟨_, rfl⟩ := List.getElem?_eq_some_iff.mp hm
    have hl := hl l hlj
    exact ⟨_, corner_eq (Array.getElem?_eq_getElem (by simpa using hl))⟩

theorem exists_corners (h : facet.find? (vertices.size ≤ ·) = none) :
    ∃ ps, Corners vertices facet ps := by
  refine ⟨facet.map fun k => vertices[k]?.getD 0, ?_⟩
  refine List.forall₂_map_right_iff.mpr <| List.forall₂_same.mpr fun k hk => ?_
  have hk : k < vertices.size := by simpa using List.find?_eq_none.mp h k hk
  rw [Array.getElem?_eq_getElem hk, Option.getD_some]

theorem ofCorners_of_corners (h : Corners vertices facet (p :: q :: r :: ps)) :
    ofCorners (vertices.map solidPoint) (.finite tol) i facet =
      ofPoints (.finite tol) i
        (solidPoint p :: solidPoint q :: solidPoint r :: ps.map solidPoint) := by
  have hl : 3 ≤ facet.length := by
    rw [h.length_eq, List.length_cons, List.length_cons, List.length_cons]
    omega
  rw [ofCorners_eq hl, mapM_corner h]
  rfl

theorem all_contains (h : f.Spans p q r) :
    ((ps.map solidPoint).all (f.plane (.finite tol)).contains = true) ↔
      ∀ c ∈ ps, Near tol (affineSpan ℝ {p, q, r}) c := by
  rw [List.all_map, List.all_eq_true]
  exact forall₂_congr fun c _ => h.contains_plane

-- The corners of a facet make a polygon in its plane, wherever the corners after the first three
-- are.
theorem exists_polygon (h : f.Spans p q r) (ps : List (Fin 3 → ℝ)) (tol : ℝ) :
    ∃ s, Region.polygon (((p :: q :: r :: ps).map solidPoint).map (f.plane (.finite tol)).toPlane)
        (.finite tol) = .ok s ∧
      ∀ u ∈ s.tree.root.cuts, u.remaining.tolerance = .finite tol := by
  classical
  have hm : ((p :: q :: r :: ps).map solidPoint).map (f.plane (.finite tol)).toPlane =
      ((p :: q :: r :: ps).map f.coords).map planePoint := by
    rw [List.map_map, List.map_map]
    exact List.map_congr_left fun c _ => Frame.toPlane_eq
  have hl : 3 ≤ (Outline.loop ((p :: q :: r :: ps).map f.coords)).length := by
    have hn : ({f.coords p, f.coords q, f.coords r} : Set (Axis → ℝ)).ncard = 3 :=
      Set.ncard_eq_three.mpr ⟨_, _, _, h.coords_ne.1, h.coords_ne.2.1, h.coords_ne.2.2, rfl⟩
    refine hn.ge.trans <| (Set.ncard_le_ncard ?_ (List.finite_toSet _)).trans Outline.ncard_le_loop
    rintro x (rfl | rfl | rfl) <;> simp
  rw [hm]
  refine (Region.exists_polygon (fun p q => Region.beq_planePoint p q) (fun _ _ => ?_) hl).imp
    fun _ h => ⟨h.1, h.2.2⟩
  exact Region.exists_throughPoints Exact.Functions.hasNonzeroRoots_real

theorem Flaw.refused (h : Flaw vertices tol i facet flaw) :
    ofCorners (vertices.map solidPoint) (.finite tol) i facet = .error (.geometry flaw) := by
  cases h
  case few h        => exact ofCorners_of_short h
  case outside h hk => rw [ofCorners_eq h, mapM_corner_outside hk]; rfl
  case aligned p q r ps hc hl =>
    have ht : OrientedPlane.throughPoints
        (solidPoint p) (solidPoint q) (solidPoint r) (.finite tol) = .error .zeroNorm :=
      OrientedPlane.throughPoints_eq.trans <| OrientedPlane.ofNormal_eq_error.mpr <|
        cross_eq_zero_iff.mpr hl
    rw [ofCorners_of_corners hc, ofPoints, ht]
    rfl
  case slanted p q r c ps hc hl hm hn =>
    obtain ⟨f, hf, ht⟩ := Frame.exists_spans hl
    have ha : ¬((p :: q :: r :: ps).map solidPoint).all (f.plane (.finite tol)).contains = true :=
      (all_contains hf).not.mpr fun h => hn (h c hm)
    rw [ofCorners_of_corners hc, ofPoints, ht]
    exact if_neg ha

-- A facet without a flaw is made, and can be measured.
theorem exists_ofCorners (h : Sound vertices tol i facet) :
    ∃ s, ofCorners (vertices.map solidPoint) (.finite tol) i facet = .ok s ∧
      ∃ a, (solid (Exact ℝ)).size s = .ok a := by
  have hl : 3 ≤ facet.length := not_lt.mp fun hl => h _ (.few hl)
  have hf : facet.find? (vertices.size ≤ ·) = none :=
    Option.eq_none_iff_forall_ne_some.mpr fun k hk => h _ (.outside hl hk)
  obtain ⟨ps, hc⟩ := exists_corners hf
  rw [hc.length_eq] at hl
  match ps with
  | p :: q :: r :: ps =>
    have hn : ¬Collinear ℝ {p, q, r} := fun hn => h _ (.aligned hc hn)
    obtain ⟨f, hf, ht⟩ := Frame.exists_spans hn
    have ha : ((p :: q :: r :: ps).map solidPoint).all (f.plane (.finite tol)).contains = true :=
      (all_contains hf).mpr fun c hm => not_not.mp fun hs => h _ (.slanted hc hn hm hs)
    obtain ⟨s, hs, hcs⟩ := exists_polygon hf ps tol
    refine ⟨⟨f.plane (.finite tol), s⟩, ?made, ?measured⟩
    case made =>
      rw [ofCorners_of_corners hc, ofPoints, ht]
      refine (if_pos ha).trans ?_
      exact congrArg (_ <$> ·) hs
    case measured =>
      obtain ⟨a, ha⟩ := Region.exists_divergence_plane fun u hu => hcs u hu ▸ Exact.finite_beq_self
      exact ⟨a.size, congrArg (_ <$> ·) ha⟩

end Flaw

end SubPlane

namespace Region

open SubPlane

section Polyhedron

theorem polyhedron_eq {R : Type} [Metric R] {V : Array (Vec3 R)}
    {facets : List (List Nat)} {t : R} :
    polyhedron V facets t =
      (facets.zipIdx.mapM fun x => ofCorners V t x.2 x.1) >>= fun ss => liftM (ofBoundary ss t) :=
  rfl

variable {vertices : Array (Fin 3 → ℝ)} {facets : List (List Nat)} {tol : ℝ} {i : Nat}
variable {facet : List Nat} {flaw : GeometryError}

theorem polyhedron_of_flaw (hi : facets[i]? = some facet) (hf : Flaw vertices tol i facet flaw)
    (hl : ∀ j < i, ∀ facet, facets[j]? = some facet → Sound vertices tol j facet) :
    polyhedron (vertices.map solidPoint) facets (.finite tol) = .error (.geometry flaw) := by
  have hm : facets.zipIdx.mapM (fun x =>
      ofCorners (vertices.map solidPoint) (.finite tol) x.2 x.1) = .error (.geometry flaw) := by
    refine Except.mapM_eq_error (i := i) (x := (facet, i)) ?entry hf.refused
      fun j hj y hy => ?before
    case entry => simp [List.getElem?_zipIdx, hi]
    case before =>
      rw [List.getElem?_zipIdx] at hy
      obtain ⟨facet, hfacet, rfl⟩ := Option.map_eq_some_iff.mp hy
      rw [zero_add]
      exact (exists_ofCorners <| hl j hj facet hfacet).imp fun _ h => h.1
  rw [polyhedron_eq, hm]
  rfl

-- Facets that can be made have a size, and so they bound a region.
theorem exists_polyhedron
    (h : ∀ i facet, facets[i]? = some facet → Sound vertices tol i facet) :
    ∃ r, polyhedron (vertices.map solidPoint) facets (.finite tol) = .ok r := by
  obtain ⟨ss, hss, hs⟩ : ∃ ss, (facets.zipIdx.mapM fun x =>
      ofCorners (vertices.map solidPoint) (.finite tol) x.2 x.1) = .ok ss ∧
      ∀ s ∈ ss, ∃ a, (solid (Exact ℝ)).size s = .ok a :=
    Except.exists_mapM fun x hx => exists_ofCorners <| h x.2 x.1 <|
      List.mem_zipIdx_iff_getElem?.mp hx
  obtain ⟨r, hr, -⟩ := exists_ofBoundary (S := solid (Exact ℝ)) (P := fun _ => True)
    (OrientedPlane.embedding (Exact ℝ)).grounded (fun _ _ => trivial) (fun _ _ => trivial) hs
    (.finite tol)
  rw [polyhedron_eq, hss]
  exact ⟨r, congrArg (Except.mapError Fault.violation) hr⟩

-- Where facets are flawed, one of them is the first.
theorem exists_first_flaw
    (h : ∃ i facet flaw, facets[i]? = some facet ∧ Flaw vertices tol i facet flaw) :
    ∃ i facet flaw, facets[i]? = some facet ∧ Flaw vertices tol i facet flaw ∧
      ∀ j < i, ∀ facet, facets[j]? = some facet → Sound vertices tol j facet := by
  classical
  obtain ⟨facet, flaw, hi, hf⟩ := Nat.find_spec h
  exact ⟨_, facet, flaw, hi, hf, fun j hj facet' hj' flaw' hf' =>
    Nat.find_min h hj ⟨facet', flaw', hj', hf'⟩⟩

end Polyhedron

-- A polyhedron is refused exactly if a facet is flawed, for the first flaw of the first such facet,
-- and the outline of no facet with corners that span a plane is refused on the way.
theorem polyhedron_flaws (vertices : Array (Fin 3 → ℝ)) (facets : List (List Nat)) (tol : ℝ) :
    (∀ e, polyhedron (vertices.map solidPoint) facets (.finite tol) = .error e ↔
      ∃ i facet flaw, facets[i]? = some facet ∧ Flaw vertices tol i facet flaw ∧
        e = .geometry flaw ∧
        ∀ j < i, ∀ facet, facets[j]? = some facet → Sound vertices tol j facet) ∧
    ((∃ r, polyhedron (vertices.map solidPoint) facets (.finite tol) = .ok r) ↔
      ∀ i facet, facets[i]? = some facet → Sound vertices tol i facet) ∧
    ∀ (p q r : Fin 3 → ℝ) (ps : List (Fin 3 → ℝ)), ¬Collinear ℝ {p, q, r} → ∃ h s,
      OrientedPlane.throughPoints
        (solidPoint p) (solidPoint q) (solidPoint r) (.finite tol) = .ok h ∧
      polygon (((p :: q :: r :: ps).map solidPoint).map h.toPlane) (.finite tol) = .ok s := by
  refine ⟨fun e => ⟨fun he => ?refused, ?flawed⟩, ⟨?made, exists_polyhedron⟩,
    fun p q r ps hn => ?outline⟩
  case refused =>
    by_cases h : ∃ i facet flaw, facets[i]? = some facet ∧ Flaw vertices tol i facet flaw
    case pos =>
      obtain ⟨i, facet, flaw, hi, hf, hl⟩ := exists_first_flaw h
      have hp := polyhedron_of_flaw hi hf hl
      exact ⟨i, facet, flaw, hi, hf, Except.error.inj <| he.symm.trans hp, hl⟩
    case neg =>
      obtain ⟨r, hr⟩ := exists_polyhedron fun i facet hi flaw hf => h ⟨i, facet, flaw, hi, hf⟩
      cases he.symm.trans hr
  case flawed =>
    rintro ⟨i, facet, flaw, hi, hf, rfl, hl⟩
    exact polyhedron_of_flaw hi hf hl
  case made =>
    rintro ⟨r, hr⟩ i facet hi flaw hf
    obtain ⟨_, _, _, hi, hf, hl⟩ := exists_first_flaw ⟨i, facet, flaw, hi, hf⟩
    cases hr.symm.trans <| polyhedron_of_flaw hi hf hl
  case outline =>
    obtain ⟨f, hf, ht⟩ := Frame.exists_spans hn
    obtain ⟨s, hs, -⟩ := SubPlane.exists_polygon hf ps tol
    exact ⟨_, s, ht, hs⟩

-- A triangle, alone and before a facet with two missing vertices.
theorem polyhedron_flaws_of_triangle :
    let vertices : Array (Fin 3 → ℝ) := #[![0, 0, 0], ![1, 0, 0], ![0, 1, 0]]
    ¬Collinear ℝ {![0, 0, 0], ![1, 0, 0], (![0, 1, 0] : Fin 3 → ℝ)} ∧
    Sound vertices 1 0 [0, 1, 2] ∧
    (∃ r, polyhedron (vertices.map solidPoint) [[0, 1, 2]] (.finite 1) = .ok r) ∧
    (∃ h s, OrientedPlane.throughPoints (solidPoint ![0, 0, 0]) (solidPoint ![1, 0, 0])
        (solidPoint ![0, 1, 0]) (.finite 1) = .ok h ∧
      polygon ((vertices.toList.map solidPoint).map h.toPlane) (.finite 1) = .ok s) ∧
    polyhedron (vertices.map solidPoint) [[0, 1, 2], [0, 2, 9, 7]] (.finite 1) =
      .error (.geometry (.vertexOutOfRange 1 9 3)) := by
  intro vertices
  have turned : ¬Collinear ℝ {![0, 0, 0], ![1, 0, 0], (![0, 1, 0] : Fin 3 → ℝ)} := by
    rw [← cross_eq_zero_iff]
    intro h
    simpa [cross_apply] using congrFun h 2
  have corners {p q r ps} (h : Corners vertices [0, 1, 2] (p :: q :: r :: ps)) :
      p = ![0, 0, 0] ∧ q = ![1, 0, 0] ∧ r = ![0, 1, 0] ∧ ps = [] := by
    simpa [Corners, vertices, eq_comm] using h
  have sound : Sound vertices 1 0 [0, 1, 2] := by
    intro flaw h
    cases h
    case few h     => exact absurd h (by decide)
    case outside h => simp [vertices] at h
    case aligned h hl =>
      obtain ⟨rfl, rfl, rfl, rfl⟩ := corners h
      exact turned hl
    case slanted h _ hc hn =>
      obtain ⟨rfl, rfl, rfl, rfl⟩ := corners h
      exact hn <| near_of_mem one_pos <| subset_affineSpan _ _ <| by simpa using hc
  refine ⟨turned, sound, ?accepted, (polyhedron_flaws vertices [] 1).2.2 _ _ _ [] turned, ?refused⟩
  case accepted =>
    refine (polyhedron_flaws vertices [[0, 1, 2]] 1).2.1.mpr ?_
    rintro (_ | i) facet hf
    case zero => cases hf; exact sound
    case succ => cases hf
  case refused =>
    refine ((polyhedron_flaws vertices [[0, 1, 2], [0, 2, 9, 7]] 1).1 _).mpr ?_
    refine ⟨1, _, _, rfl, .outside (Nat.le_succ 3) (by simp [vertices]), rfl, ?_⟩
    rintro j hj facet hf
    cases Nat.lt_one_iff.mp hj
    cases hf
    exact sound

end Region
end SpacePartition
