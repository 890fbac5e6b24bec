import SpacePartition.Solid.Basic
import SpacePartition.Proofs.Line.Cover
import SpacePartition.Proofs.Scalar.Binary64

/-!
Sizes of regions that are full or empty, in rounded arithmetic. Cuts within them make no boundary.
The line finds the size of such a region in its cells; the flow through no boundary at all is zero,
which is the size of an empty region but not that of a full one.
-/

namespace SpacePartition

open Scalar

variable {R : Type}

namespace Region

-- Whether size and boundary are zero.
def Vanishes {S : Space R} [Scalar R] [Measured S] (r : Region S) : Prop :=
  ∃ x y, r.size = .ok x ∧ r.boundarySize = .ok y ∧ x == 0 ∧ y == 0

section Facets

variable {S : Space R} [Scalar R] {r : Region S}

theorem boundarySize_of_facets (h : r.facets = .ok []) : r.boundarySize = .ok (-0) := by
  rw [boundarySize, h]
  rfl

end Facets

section Line

variable [Scalar R] {r : Region (line R)}

theorem line_reunites : (line R).Reunites fun _ => True where
  split _ _ := trivial
  reunite {s _} _ _ := ⟨s, rfl, trivial⟩

variable [Orderly R]

theorem line_vanishes (h : r.isEmpty = true) : r.Vanishes := by
  have hn : r.tree.root.Uniform false := Node.isEmpty_iff.mp h
  have hb := boundarySize_of_facets <| hn.facets fun _ _ => ⟨_, line_reunites, trivial⟩
  have hs : r.size = .ok r.lineProperties.size := rfl
  refine ⟨_, _, hs, hb, ?_, Orderly.neg_zero_beq⟩
  rw [lineProperties]
  split
  case h_1 =>
    rw [not_isFull h]
    exact Orderly.zero_beq
  case h_2 =>
    have hi : r.intervals = [] := by rw [intervals, hn.insideCells_eq_nil, Interval.normalize_nil]
    simp only [hi]
    exact Orderly.neg_zero_beq

theorem size_line (h : r.isFull = true)
    (hc : ∀ s ∈ r.tree.root.cuts, isNaN (OrientedPoint.location s) = false) :
    r.size = .ok infinity := by
  have hn : r.tree.root.Uniform true := Node.isFull_iff.mp h
  have hs : r.size = .ok r.lineProperties.size := rfl
  rw [hs, lineProperties]
  split
  case h_1 => rw [h]; rfl
  case h_2 =>
    have hi : r.intervals = [⟨-infinity, infinity⟩] :=
      (hn.covers ⟨-infinity, infinity⟩ Orderly.isNaN_neg_infinity isNaN_infinity hc).normalize
    simp only [hi, List.map_cons, List.map_nil, Interval.size, Orderly.infinity_sub]
    exact congrArg Except.ok Orderly.zero_add_infinity

end Line

section Embedded

variable [Scalar R] [Orderly R] {E : Embedding R} {r : Region E.space}

-- Whether the cuts of a region have been made at tolerances that are numbers.
def Tolerable (r : Region E.space) : Prop :=
  ∀ s ∈ r.tree.root.cuts, isNaN (tolerance (Embedded.remaining s)) = false

omit [Orderly R] in
theorem Tolerable.facets (ht : r.Tolerable) {inside : Bool} (hn : r.tree.root.Uniform inside) :
    r.facets = .ok [] := by
  refine hn.facets fun s hs => ?_
  have ht : tolerance (Embedded.remaining s) == tolerance (Embedded.remaining s) := by
    simpa [isNaN] using ht s hs
  exact ⟨_, E.reunites ht, rfl⟩

-- The flow through no boundary is zero.
theorem divergence_of_facets
    (hE : Coordinates.dimension E.Point = 2 ∨ Coordinates.dimension E.Point = 3)
    (hf : r.facets = .ok []) :
    ∃ z, r.size = .ok z ∧
      if r.tree.root.isLeaf then z = if r.isFull then infinity else 0 else z == 0 := by
  have hs : r.size = (·.size) <$> r.divergence := rfl
  rw [hs, divergence, hf]
  split
  case isTrue => exact ⟨_, rfl, rfl⟩
  case isFalse =>
    refine ⟨0 / (Coordinates.dimension E.Point : Nat), ?_, Orderly.zero_div hE⟩
    simp only [bind, Except.bind, flow, if_neg Orderly.not_zero_lt]
    rfl

theorem sizes_embedded
    (hE : Coordinates.dimension E.Point = 2 ∨ Coordinates.dimension E.Point = 3)
    (ht : r.Tolerable) :
    (r.isEmpty = true → r.Vanishes) ∧
    (r.isFull = true →
      ∃ z, r.size = .ok z ∧ if r.tree.root.isLeaf then z = infinity else z == 0) := by
  refine ⟨fun h => ?empty, fun h => ?full⟩
  case empty =>
    have hf := ht.facets <| Node.isEmpty_iff.mp h
    have ⟨z, hs, hz⟩ := divergence_of_facets hE hf
    refine ⟨z, _, hs, boundarySize_of_facets hf, ?_, Orderly.neg_zero_beq⟩
    split at hz
    case isTrue  => rw [hz, not_isFull h]; exact Orderly.zero_beq
    case isFalse => exact hz
  case full =>
    have hd := divergence_of_facets hE <| ht.facets <| Node.isFull_iff.mp h
    rwa [h] at hd

end Embedded

-- A full region of the plane or of space measures as nothing if it has a cut.
theorem size_of_extremes [Metric R] [Orderly R] :
    (∀ r : Region (line R),
      (r.isEmpty = true → r.Vanishes) ∧
      (r.isFull = true → (∀ s ∈ r.tree.root.cuts, isNaN (OrientedPoint.location s) = false) →
        r.size = .ok infinity)) ∧
    (∀ r : Region (plane R), Tolerable r →
      (r.isEmpty = true → r.Vanishes) ∧
      (r.isFull = true →
        ∃ z, r.size = .ok z ∧ if r.tree.root.isLeaf then z = infinity else z == 0)) ∧
    (∀ r : Region (solid R), Tolerable r →
      (r.isEmpty = true → r.Vanishes) ∧
      (r.isFull = true →
        ∃ z, r.size = .ok z ∧ if r.tree.root.isLeaf then z = infinity else z == 0)) :=
  ⟨fun _ => ⟨line_vanishes, size_line⟩, fun _ => sizes_embedded (.inl rfl),
    fun _ => sizes_embedded (.inr rfl)⟩

theorem size_of_extremes_of_needless_cuts :
    let full {S : Space Float} (s : S.Sub) : Tree S Bool :=
      .ofParts s (.leaf (some true)) (.leaf (some true)) none
    let onLine : Region (line Float) :=
      ⟨.ofParts (⟨5, true, 1⟩ : OrientedPoint Float) (.leaf (some true))
        (full (⟨7, true, 1⟩ : OrientedPoint Float)) none, 1⟩
    let inPlane : Region (plane Float) :=
      ⟨.ofParts ((plane Float).whole ⟨1, 0, 0, 1⟩) (.leaf (some false)) (.leaf none) none, 1⟩
    let inSpace : Region (solid Float) :=
      ⟨full ((solid Float).whole ⟨⟨0, 0, 0⟩, ⟨1, 0, 0⟩, ⟨0, 1, 0⟩, ⟨0, 0, 1⟩, 0, 1⟩), 1⟩
    ((onLine.isFull = true ∧
        ∀ s ∈ onLine.tree.root.cuts, isNaN (OrientedPoint.location s) = false) ∧
      onLine.size = .ok infinity) ∧
    ((Tolerable inPlane ∧ inPlane.isEmpty = true) ∧ inPlane.Vanishes) ∧
    ((Tolerable inSpace ∧ inSpace.isFull = true) ∧ ∃ z, inSpace.size = .ok z ∧ z == 0) := by
  intro full onLine inPlane inSpace
  have hl : ∀ s ∈ onLine.tree.root.cuts, isNaN (OrientedPoint.location s) = false := by
    rintro s (- | ⟨_, - | ⟨_, ⟨⟩⟩⟩) <;> rfl
  have hp : Tolerable inPlane := by
    rintro s (- | ⟨_, ⟨⟩⟩)
    rfl
  have hs : Tolerable inSpace := by
    rintro s (- | ⟨_, ⟨⟩⟩)
    rfl
  have ⟨ofLine, ofPlane, ofSpace⟩ := size_of_extremes (R := Float)
  exact ⟨⟨⟨rfl, hl⟩, (ofLine onLine).2 rfl hl⟩, ⟨⟨hp, rfl⟩, (ofPlane inPlane hp).1 rfl⟩, ⟨hs, rfl⟩,
    (ofSpace inSpace hs).2 rfl⟩

-- The cut leaves the plane full, and takes its size.
theorem size_of_cut_plane :
    let cut : OrientedLine Float := ⟨1, 0, 0, 1⟩
    ∃ t, (Tree.leaf (some true)).insertCut [] cut = .ok (some t) ∧
      let r : Region (plane Float) := ⟨t, 1⟩
      r.isFull = true ∧ r.size = .ok 0 ∧ (0 : Float) ≠ infinity :=
  ⟨_, rfl, rfl, rfl, by decide +kernel⟩

end Region
end SpacePartition
