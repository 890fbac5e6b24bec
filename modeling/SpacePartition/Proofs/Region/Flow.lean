import Mathlib.Data.List.Forall2
import SpacePartition.Proofs.Line.Measure
import SpacePartition.Region.Measure

/-!
The flow through a boundary in exact arithmetic. It is the sum of what the facets add, so that
facets of known extents tell the size of the region.
-/

namespace Except

variable {ε β γ : Type} {f : β → Except ε γ} {xs : List β} {ys : List γ}

theorem ok_bind {x : β} : (ok x : Except ε β) >>= f = f x :=
  rfl

theorem mapM_eq_ok : xs.mapM f = .ok ys ↔ List.Forall₂ (fun x y => f x = .ok y) xs ys := by
  induction xs generalizing ys
  case nil =>
    rw [List.mapM_nil, List.forall₂_nil_left_iff]
    exact ⟨fun h => (Except.ok.inj h).symm, fun h => h ▸ rfl⟩
  case cons x xs hi =>
    simp only [List.mapM_cons, bind_eq_ok, List.forall₂_cons_left_iff, hi]
    constructor
    case mp  => exact fun ⟨y, hy, ys, hys, h⟩ => ⟨y, ys, hy, hys, (Except.ok.inj h).symm⟩
    case mpr => exact fun ⟨y, ys, hy, hys, h⟩ => ⟨y, hy, ys, hys, h ▸ rfl⟩

theorem exists_mapM {p : γ → Prop} (h : ∀ x ∈ xs, ∃ y, f x = .ok y ∧ p y) :
    ∃ ys, xs.mapM f = .ok ys ∧ ∀ y ∈ ys, p y := by
  induction xs
  case nil => exact ⟨[], rfl, nofun⟩
  case cons x xs hi =>
    have ⟨⟨y, hy, hp⟩, h⟩ := List.forall_mem_cons.mp h
    have ⟨ys, hys, hps⟩ := hi h
    exact ⟨y :: ys, by rw [List.mapM_cons, hy, hys]; rfl, List.forall_mem_cons.mpr ⟨hp, hps⟩⟩

-- The first error is the one that is told.
theorem mapM_eq_error {e : ε} {i : Nat} {x : β} (hx : xs[i]? = some x) (he : f x = .error e)
    (hf : ∀ j < i, ∀ y, xs[j]? = some y → ∃ z, f y = .ok z) : xs.mapM f = .error e := by
  induction xs generalizing i
  case nil => cases hx
  case cons y ys hi =>
    rw [List.mapM_cons]
    cases i
    case zero =>
      cases hx
      rw [he]
      rfl
    case succ i =>
      have ⟨z, hz⟩ := hf 0 i.succ_pos y rfl
      rw [hz, hi hx fun j hj => hf (j + 1) (Nat.succ_lt_succ hj)]
      rfl

end Except

namespace SpacePartition

variable {K : Type} [Field K] [LinearOrder K] {S : Space (Exact K)}

-- What a facet of finite size adds to a boundary.
structure Extent (S : Space (Exact K)) where
  area       : K
  -- The distance of the hyperplane from the origin, along the normal that leaves the region.
  height     : K
  barycenter : S.Point

namespace Extent

def flow (e : Extent S) : K :=
  e.area * e.height

-- The sum that leads to the barycenter of a region.
def moment (es : List (Extent S)) : S.Point :=
  es.foldl (fun m e => Coordinates.combine 1 m (.finite e.flow) e.barycenter) Coordinates.origin

end Extent

@[mk_iff]
structure Facet.Has (f : Facet S) (e : Extent S) : Prop where
  area       : S.size f.sub = .ok (.finite e.area)
  height     : S.offset (S.hyperplane f.sub) Coordinates.origin = .finite (match f.facing with
    | .plusOutside => -e.height
    | .plusInside  => e.height)
  barycenter : S.barycenter f.sub = .ok e.barycenter

instance [DecidableEq K] [DecidableEq S.Point] (f : Facet S) (e : Extent S) : Decidable (f.Has e) :=
  decidable_of_iff _ (Facet.has_iff f e).symm

namespace Region

variable {f : Facet S} {e : Extent S} {fs : List (Facet S)} {es : List (Extent S)} {r : Region S}

theorem flow_cons (h : f.Has e) (s : K) (moment : S.Point) :
    flow (f :: fs) (.finite s) moment = flow fs (.finite (s + e.flow))
      (Coordinates.combine 1 moment (.finite e.flow) e.barycenter) := by
  have ⟨ha, hh, hb⟩ := h
  simp only [flow, ha, hh, hb, Except.ok_bind, Exact.isInfinite_finite,
    Bool.false_eq_true, if_false]
  cases f.facing <;> simp [Extent.flow]

theorem flow_eq (h : List.Forall₂ Facet.Has fs es) :
    flow fs 0 Coordinates.origin =
      .ok (some (.finite (es.map (·.flow)).sum, Extent.moment es)) := by
  have hs (s : K) (moment : S.Point) : flow fs (.finite s) moment =
      .ok (some (.finite (s + (es.map (·.flow)).sum),
        es.foldl (fun m e => Coordinates.combine 1 m (.finite e.flow) e.barycenter) moment)) := by
    induction h generalizing s moment
    case nil => simp [flow]
    case cons f e fs es hf _ hi =>
      rw [flow_cons hf, hi, List.map_cons, List.sum_cons, ← add_assoc, List.foldl_cons]
  rw [Exact.zero_eq, hs, zero_add, Extent.moment]

-- The sizes of the facets add up too.
theorem boundarySize_eq (hr : r.facets = .ok fs) (h : List.Forall₂ Facet.Has fs es) :
    r.boundarySize = .ok (.finite (es.map (·.area)).sum) := by
  have hm : fs.mapM (S.size ·.sub) = .ok ((es.map (·.area)).map Exact.finite) := by
    rw [Except.mapM_eq_ok, List.map_map, List.forall₂_map_right_iff]
    exact h.imp fun _ _ he => he.area
  rw [boundarySize, hr, Except.ok_bind, hm, Except.ok_bind, Exact.sum_finite]
  rfl

variable [IsStrictOrderedRing K]

theorem divergence_eq (hl : r.tree.root.isLeaf = false) (hr : r.facets = .ok fs)
    (h : List.Forall₂ Facet.Has fs es) (hd : 0 < Coordinates.dimension S.Point) :
    let n : K := (Coordinates.dimension S.Point : ℕ)
    let size := (es.map (·.flow)).sum / n
    r.divergence = .ok (if size < 0 then unbounded else
      ⟨.finite size, Coordinates.combine (1 / .finite ((n + 1) * size)) (Extent.moment es) 0
        Coordinates.origin⟩) := by
  intro n size
  have hn : 0 < n := Nat.cast_pos.mpr hd
  have hs : Exact.finite (es.map (·.flow)).sum < 0 ↔ size < 0 := by
    rw [div_lt_iff₀ hn, zero_mul, Exact.zero_eq, Exact.finite_lt]
  have hf : (.finite (es.map (·.flow)).sum / (Coordinates.dimension S.Point : ℕ) : Exact K) =
      .finite size := Exact.finite_div hn.ne'
  simp only [divergence, hl, hr, flow_eq h, Except.ok_bind, Bool.false_eq_true, if_false, hf, hs]
  split <;> rfl

end Region
end SpacePartition
