import SpacePartition.Proofs.Plane.Edges
import SpacePartition.Proofs.Plane.Figures

/-!
What rectangles answer. Their sides are the facets, so that the flow through the boundary makes the
product of the side lengths of them, and a point is located by its distances from the sides.
-/

-- A list without repetitions is paired with another one by a function.
theorem List.Forall₂.exists_map {α β : Type} [Nonempty β] {P : α → β → Prop} {xs : List α}
    {ys : List β} (h : List.Forall₂ P xs ys) (hn : xs.Nodup) :
    ∃ f : α → β, (∀ x ∈ xs, P x (f x)) ∧ ys = xs.map f := by
  classical
  induction h
  case nil => exact ⟨fun _ => Classical.arbitrary β, nofun, rfl⟩
  case cons x y xs ys hxy _ ih =>
    have ⟨hx, hn⟩ := List.nodup_cons.mp hn
    have ⟨f, hf, he⟩ := ih hn
    have hu (z) (hz : z ∈ xs) : Function.update f x y z = f z :=
      Function.update_of_ne (ne_of_mem_of_not_mem hz hx) y f
    refine ⟨Function.update f x y, List.forall_mem_cons.mpr ⟨?self, fun z hz => ?others⟩, ?map⟩
    case self   => rwa [Function.update_self]
    case others => rw [hu z hz]; exact hf z hz
    case map    => rw [List.map_cons, Function.update_self, List.map_congr_left hu, he]

namespace SpacePartition

variable {K : Type} [Field K] [LinearOrder K]

namespace Plane

variable {min max : Axis → K} {ls : List (AxisLine K)} {b : AxisLine K → Axis → K}

theorem combine_planePoint {x y : K} {p q : Axis → K} :
    Coordinates.combine (Exact.finite x) (planePoint p) (Exact.finite y) (planePoint q) =
      planePoint fun axis => p axis * x + q axis * y := by
  simp [planePoint, Coordinates.combine]

-- What lines add to the boundary of a rectangle if their parts of it have their barycenters at `b`.
def extents (min max : Axis → K) (b : AxisLine K → Axis → K) (ls : List (AxisLine K)) :
    List (Extent (plane (Exact K))) :=
  ls.map fun l => sideExtent min max l (b l)

-- The moment along an axis.
def moment (min max : Axis → K) (b : AxisLine K → Axis → K) (ls : List (AxisLine K)) (axis : Axis) :
    K :=
  (ls.map fun l => (sideExtent min max l (b l)).flow * b l axis).sum

theorem moment_extents :
    Extent.moment (extents min max b ls) = planePoint (moment min max b ls) := by
  have hm (m : Axis → K) : (extents min max b ls).foldl
      (fun m e => Coordinates.combine 1 m (.finite e.flow) e.barycenter) (planePoint m) =
        planePoint fun axis => m axis + moment min max b ls axis := by
    induction ls generalizing m
    case nil => simp [extents, moment]
    case cons l ls ih =>
      have hc : Coordinates.combine (1 : Exact K) (planePoint m)
          (.finite (sideExtent min max l (b l)).flow) (sideExtent min max l (b l)).barycenter = _ :=
        combine_planePoint
      rw [extents, List.map_cons, List.foldl_cons, hc]
      refine (ih _).trans ?_
      simp only [moment, List.map_cons, List.sum_cons, mul_one, add_assoc, mul_comm]
  have h0 := hm fun _ => 0
  simp only [zero_add] at h0
  exact h0

-- The sums over the four sides, in the order of the facets.
theorem areas_extents : ((extents min max b (Region.edges min max).reverse).map (·.area)).sum =
    2 * (max .x - min .x + (max .y - min .y)) := by
  simp [Region.edges, extents, sideExtent, Axis.other]
  ring

theorem flows_extents : ((extents min max b (Region.edges min max).reverse).map (·.flow)).sum =
    2 * ((max .x - min .x) * (max .y - min .y)) := by
  simp [Region.edges, extents, sideExtent, Extent.flow, AxisLine.sign, Axis.other]
  ring

variable [IsStrictOrderedRing K]

theorem moment_edges (hb : ∀ l ∈ Region.edges min max, Bisects min max l (b l)) (axis : Axis)
    (h : (2 ^ 1022)⁻¹ ≤ max axis - min axis) :
    moment min max b (Region.edges min max).reverse axis =
      3 * ((max .x - min .x) * (max .y - min .y)) * ((min axis + max axis) / 2) := by
  obtain ⟨bottom, right, top, left⟩ : Bisects min max ⟨.y, min .y, false⟩ (b _) ∧
      Bisects min max ⟨.x, max .x, true⟩ (b _) ∧ Bisects min max ⟨.y, max .y, true⟩ (b _) ∧
      Bisects min max ⟨.x, min .x, false⟩ (b _) := by
    simpa [Region.edges] using hb
  cases axis
  case x =>
    have hbottom : b ⟨.y, min .y, false⟩ .x = (min .x + max .x) / 2 := bottom.middle h
    have htop : b ⟨.y, max .y, true⟩ .x = (min .x + max .x) / 2 := top.middle h
    simp [moment, Region.edges, sideExtent, Extent.flow, AxisLine.sign, Axis.other, left.place,
      right.place, hbottom, htop]
    ring
  case y =>
    have hleft : b ⟨.x, min .x, false⟩ .y = (min .y + max .y) / 2 := left.middle h
    have hright : b ⟨.x, max .x, true⟩ .y = (min .y + max .y) / 2 := right.middle h
    simp [moment, Region.edges, sideExtent, Extent.flow, AxisLine.sign, Axis.other, bottom.place,
      top.place, hleft, hright]
    ring

-- The flow through the sides is twice the area, and their moment makes three times the area of a
-- coordinate in the middle.
theorem exists_divergence (h : ∀ axis, min axis < max axis)
    (hb : ∀ l ∈ Region.edges min max, Bisects min max l (b l)) {r : Region (plane (Exact K))}
    {fs : List (Facet (plane (Exact K)))} (hl : r.tree.root.isLeaf = false) (hr : r.facets = .ok fs)
    (hfs : List.Forall₂ Facet.Has fs (extents min max b (Region.edges min max).reverse)) :
    ∃ c : Axis → K,
      r.divergence = .ok ⟨.finite ((max .x - min .x) * (max .y - min .y)), planePoint c⟩ ∧
      ∀ axis, (2 ^ 1022)⁻¹ ≤ max axis - min axis → c axis = (min axis + max axis) / 2 := by
  let area := (max .x - min .x) * (max .y - min .y)
  let m := moment min max b (Region.edges min max).reverse
  have hpos : 0 < area := mul_pos (sub_pos.mpr (h .x)) (sub_pos.mpr (h .y))
  have hne : 3 * area ≠ 0 := mul_ne_zero three_ne_zero hpos.ne'
  have hflow : ((extents min max b (Region.edges min max).reverse).map (·.flow)).sum = 2 * area :=
    flows_extents
  have hmoment : Extent.moment (extents min max b (Region.edges min max).reverse) = planePoint m :=
    moment_extents
  have hsize : 2 * area / (2 : ℕ) = area := mul_div_cancel_left₀ _ two_ne_zero
  have hweight : (1 : Exact K) / .finite (((2 : ℕ) + 1) * area) = .finite (1 / (3 * area)) := by
    have h3 : ((2 : ℕ) + 1 : K) = 3 := by norm_num
    rw [h3]
    exact Exact.finite_div hne
  have hcombine : Coordinates.combine (P := (plane (Exact K)).Point) (.finite (1 / (3 * area)))
      (planePoint m) 0 Coordinates.origin =
        planePoint fun axis => m axis * (1 / (3 * area)) + 0 * 0 :=
    combine_planePoint (y := 0) (q := fun _ => 0)
  have hd : r.divergence = .ok _ := Region.divergence_eq hl hr hfs Nat.two_pos
  have h2 : Coordinates.dimension (plane (Exact K)).Point = 2 := rfl
  simp only [h2, hflow, hsize, hpos.not_gt, if_false, hmoment, hweight, hcombine] at hd
  refine ⟨_, hd, fun axis hs => ?_⟩
  have hm : m axis = 3 * area * ((min axis + max axis) / 2) := moment_edges hb axis hs
  rw [hm, mul_zero, add_zero, mul_one_div, mul_div_cancel_left₀ _ hne]

end Plane

namespace Region

open AxisLine Plane

variable {f : Exact.Functions K} {min max : Axis → K} {t : K} [IsStrictOrderedRing K]

theorem exists_rectangle (hf : f.HasRoots) (ht : 0 < t) (ht' : t ≤ 1)
    (h : ∀ axis, t < max axis - min axis) :
    letI := f.metric
    ∃ r cuts fs, ∃ b : AxisLine K → Axis → K,
      rectangle (planePoint min) (planePoint max) (.finite t) = .ok r ∧ r.tolerance = .finite t ∧
      r.tree.root.IsChain cuts ∧ Lined t (edges min max) cuts ∧
      r.facets = .ok fs ∧ (∀ f ∈ fs, f.facing = .plusOutside) ∧
      List.Forall₂ Facet.Has fs (extents min max b (edges min max).reverse) ∧
      ∀ l ∈ edges min max, Bisects min max l (b l) := by
  have hlt axis : min axis < max axis := sub_pos.mp <| ht.trans (h axis)
  have g := grid_bounds ht ht' h
  have ⟨r, cuts, fs, hr, hrt, hch, hcl, hfs, hs⟩ :=
    convex_sides g (fun _ => place_mem_bounds) (fun _ => exists_middle hlt) (List.cons_ne_nil _ _)
  have : Nonempty (Facet (plane (Exact K))) := ⟨⟨.whole (.mk 0 0 0 0), .plusOutside⟩⟩
  obtain ⟨facet, hside, hfs'⟩ := hs.exists_map nodup_edges
  choose! b hb using fun l hl => exists_extent hlt g hl (hside l hl)
  refine ⟨r, cuts, fs, b, (rectangle_eq hf hlt).trans hr, hrt, hch, hcl, hfs, ?facing, ?has,
    fun l hl => (hb l hl).2⟩
  case facing =>
    intro f hf
    rw [← List.mem_reverse, hfs', List.mem_map] at hf
    obtain ⟨l, hl, rfl⟩ := hf
    exact (hside l hl).facing
  case has =>
    rw [extents, List.reverse_eq_iff.mp hfs', List.map_reverse, List.forall₂_reverse_iff,
      List.forall₂_map_left_iff, List.forall₂_map_right_iff, List.forall₂_same]
    exact fun l hl => (hb l hl).1

-- A rectangle answers every query exactly, except that the barycenter of a side which is too short
-- to count is not the middle of it.
theorem rectangle_queries (hf : f.HasRoots) (ht : 0 < t) (ht' : t ≤ 1)
    (h : ∀ axis, t < max axis - min axis) :
    letI := f.metric
    let side axis := max axis - min axis
    ∃ r, rectangle (planePoint min) (planePoint max) (.finite t) = .ok r ∧
      r.size = .ok (.finite (side .x * side .y)) ∧
      r.boundarySize = .ok (.finite (2 * (side .x + side .y))) ∧
      (∃ b : Axis → K, r.barycenter = .ok (planePoint b) ∧
        ∀ axis, (2 ^ 1022)⁻¹ ≤ side axis → b axis = (min axis + max axis) / 2) ∧
      (∃ fs, r.facets = .ok fs ∧ fs.length = 4 ∧ ∀ f ∈ fs, f.facing = .plusOutside) ∧
      ∀ p : Axis → K,
        let ds := [min .y - p .y, p .x - max .x, p .y - max .y, min .x - p .x]
        r.check (planePoint p) = if ∃ d ∈ ds, t ≤ d then .outside
          else if ∀ d ∈ ds, d ≤ -t then .inside else .boundary := by
  intro side
  have ⟨r, cuts, fs, b, hr, hrt, hch, hcl, hfs, hfacing, he, hb⟩ := exists_rectangle hf ht ht' h
  obtain ⟨cut, cuts, -, -, rfl⟩ := List.forall₂_cons_left_iff.mp hcl
  have hlt axis : min axis < max axis := sub_pos.mp <| ht.trans (h axis)
  have ⟨c, hd, hc⟩ := exists_divergence hlt hb hch.isLeaf_cons hfs he
  refine ⟨r, hr, ?size, ?boundarySize, ⟨c, ?barycenter, hc⟩, ⟨fs, hfs, he.length_eq, hfacing⟩,
    fun p => ?check⟩
  case size         => exact congrArg (Functor.map Properties.size) hd
  case boundarySize => rw [boundarySize_eq hfs he, areas_extents]
  case barycenter   => exact congrArg (Functor.map Properties.barycenter) hd
  case check =>
    have hds : List.Forall₂ (fun s d => (plane (Exact K)).offset ((plane (Exact K)).hyperplane s)
        (planePoint p) = .finite d) (cut :: cuts) ((edges min max).map (·.distance p)) := by
      rw [List.forall₂_map_right_iff]
      refine hcl.flip.imp fun l s hs => ?_
      rw [hs]
      exact offset_eq_distance
    rw [check_planePoint hrt]
    exact hch.check ht hds

theorem rectangle_queries_of_two_by_one :
    let f : Exact.Functions ℚ := .rational
    letI := f.metric
    let max : Axis → ℚ := fun | .x => 2 | .y => 1
    (f.HasRoots ∧ (0 : ℚ) < 1 / 2 ∧ (1 / 2 : ℚ) ≤ 1 ∧ ∀ axis, 1 / 2 < max axis - 0) ∧
    ∃ r, rectangle (planePoint fun _ => (0 : ℚ)) (planePoint max) (.finite (1 / 2)) = .ok r ∧
      r.size = .ok (.finite 2) ∧ r.boundarySize = .ok (.finite 6) ∧
      (∃ b, r.barycenter = .ok (planePoint b) ∧ b .x = 1 ∧ b .y = 1 / 2) ∧
      r.check (planePoint fun _ => (1 / 2 : ℚ)) = .inside ∧
      r.check (planePoint fun _ => (3 / 4 : ℚ)) = .boundary ∧
      r.check (planePoint fun _ => (3 / 2 : ℚ)) = .outside := by
  intro f max
  have hf : f.HasRoots := Exact.Functions.hasRoots_rational
  have hs axis : 1 / 2 < max axis - 0 := by
    cases axis <;> norm_num [max]
  refine ⟨⟨hf, by norm_num, by norm_num, hs⟩, ?_⟩
  have ⟨r, hr, hsize, hboundary, ⟨b, hb, hm⟩, _, hc⟩ :=
    rectangle_queries hf (by norm_num) (by norm_num) hs
  refine ⟨r, hr, ?size, ?boundarySize, ⟨b, hb, ?abscissa, ?ordinate⟩, ?inside, ?boundary, ?outside⟩
  case size         => rw [hsize]; norm_num [max]
  case boundarySize => rw [hboundary]; norm_num [max]
  case abscissa     => exact (hm .x (by decide +kernel)).trans (by norm_num [max])
  case ordinate     => exact (hm .y (by decide +kernel)).trans (by norm_num [max])
  case inside       => rw [hc]; decide +kernel
  case boundary     => rw [hc]; decide +kernel
  case outside      => rw [hc]; decide +kernel

-- A rectangle can be so narrow that its lower and its upper side count as points of the right one.
theorem not_barycenter_rectangle :
    let f : Exact.Functions ℚ := .rational
    letI := f.metric
    f.HasRoots ∧ ¬∀ (min max : Axis → ℚ) (t : ℚ), 0 < t → t ≤ 1 →
      (∀ axis, t < max axis - min axis) →
      ∃ r, rectangle (planePoint min) (planePoint max) (.finite t) = .ok r ∧
        r.barycenter = .ok (planePoint fun axis => (min axis + max axis) / 2) := by
  intro f
  have hf : f.HasRoots := Exact.Functions.hasRoots_rational
  let max : Axis → ℚ := fun | .x => (2 ^ 1023)⁻¹ | .y => 1
  let t : ℚ := (2 ^ 1024)⁻¹
  refine ⟨hf, fun h => ?_⟩
  have hs : ∀ axis, t < max axis - 0 := by
    intro axis
    cases axis <;> decide +kernel
  have hlt axis : 0 < max axis := by
    cases axis <;> decide +kernel
  have ⟨r, hr, hb⟩ := h (fun _ => 0) max t (by decide +kernel) (by decide +kernel) hs
  rw [rectangle_eq hf hlt] at hr
  have he : (convex (S := plane (Exact ℚ)) ((edges (fun _ => 0) max).map (·.line t)) (.finite t) >>=
      barycenter).map Vec2.x ≠ .ok (.finite ((0 + max .x) / 2)) := by
    decide +kernel
  rw [hr] at he
  exact he (congrArg (Except.map Vec2.x) hb)

end Region
end SpacePartition
