import SpacePartition.Line.Interval
import SpacePartition.Proofs.Line.Layout

/-!
Regions of the line in exact arithmetic whose cuts keep the tolerance from the cuts above them.
-/

namespace SpacePartition

variable {K : Type} [Field K] [LinearOrder K]

namespace Region

variable {r a b : Region (line (Exact K))} {x y t : K}

-- The places of the cuts of a region.
def locations (r : Region (line (Exact K))) : Set K :=
  {x | ∃ s ∈ r.tree.root.cuts, s.location = .finite x}

-- Whether the cuts of a region have its tolerance and lie farther than the tolerance from the cuts
-- above them, on the sides of their own branches.
structure FittedAt (r : Region (line (Exact K))) (t : K) : Prop where
  tolerance : r.tolerance = .finite t
  fitted    : (Line.cells t .univ t).Fitted .univ r.tree.root

theorem FittedAt.tolerance_beq (ha : a.FittedAt t) (hb : b.FittedAt t) :
    a.tolerance == b.tolerance := by
  rw [ha.tolerance, hb.tolerance]
  exact Exact.finite_beq_self

theorem FittedAt.cells {d : K} {L : Set K} (h : r.FittedAt t) (hd : d ≤ t) (hL : r.locations ⊆ L) :
    (Line.cells d L t).Fitted .univ r.tree.root := by
  refine h.fitted.imp (· ⊆ ·) ?half ?spans subset_rfl
  case half  => exact fun hCD x hx => ⟨hCD hx.1, hx.2.mono hd⟩
  case spans =>
    intro C D s hs hCD ⟨htol, c, hc, hl⟩
    exact ⟨htol, c, ⟨hCD hc.1, hL ⟨s, hs, hl⟩⟩, hl⟩

theorem FittedAt.clear {L : Set K} (h : r.FittedAt t) (hL : r.locations ⊆ L) :
    (Line.clear L t).Fitted .univ r.tree.root := by
  refine h.fitted.imp (fun _ _ => True) (fun _ => trivial) ?_ trivial
  intro C D s hs _ ⟨htol, c, _, hl⟩
  exact ⟨htol, c, hL ⟨s, hs, hl⟩, hl⟩

theorem FittedAt.complement (h : r.FittedAt t) : r.complement.FittedAt t :=
  ⟨h.tolerance, Layout.fitted_complement.mpr h.fitted⟩

theorem locations_complement : r.complement.locations = r.locations := by
  simp only [locations, Region.complement, Node.cuts_complement]

theorem fittedAt_halfSpace {dir : Bool} :
    (halfSpace (S := line (Exact K)) (⟨.finite x, dir, .finite t⟩ : OrientedPoint (Exact K))
      (Exact.finite t)).FittedAt t :=
  ⟨rfl, ⟨rfl, x, ⟨trivial, trivial⟩, rfl⟩, trivial, trivial⟩

theorem locations_halfSpace {dir : Bool} {tol tolerance : Exact K} :
    (halfSpace (S := line (Exact K)) (⟨.finite x, dir, tol⟩ : OrientedPoint (Exact K))
      tolerance).locations = {x} := by
  ext y
  simp [locations, halfSpace, Tree.ofParts, Tree.leaf, Node.relabel, Node.cuts, eq_comm]

theorem tree_interval {tolerance : Exact K} :
    (interval (.finite x) (.finite y) tolerance).tree =
      .ofParts (⟨.finite x, false, tolerance⟩ : OrientedPoint (Exact K)) (.leaf (some false))
        (.ofParts (⟨.finite y, true, tolerance⟩ : OrientedPoint (Exact K)) (.leaf (some false))
          (.leaf (some true)) none) none := by
  have hx : (Scalar.toBEq.beq (Exact.finite x) (-Scalar.infinity)) = false := by
    change decide (Exact.finite x = Exact.infinite false ∧ _) = false
    simp
  have hy : (Scalar.toBEq.beq (Exact.finite y) Scalar.infinity) = false := by
    change decide (Exact.finite y = Exact.infinite true ∧ _) = false
    simp
  simp only [interval, hx, hy]

theorem locations_interval {tolerance : Exact K} :
    (interval (.finite x) (.finite y) tolerance).locations = {x, y} := by
  ext z
  simp [locations, tree_interval, Tree.ofParts, Tree.leaf, Node.relabel, Node.cuts, eq_comm]

variable [IsStrictOrderedRing K]

theorem fittedAt_interval (h : x + t < y) :
    (interval (.finite x) (.finite y) (.finite t)).FittedAt t := by
  have hb : OrientedPoint.Beyond t ⟨.finite x, false, .finite t⟩ .minus y := by
    rw [OrientedPoint.beyond_iff]
    exact h
  refine ⟨rfl, ?_⟩
  rw [tree_interval]
  exact ⟨⟨rfl, x, ⟨trivial, trivial⟩, rfl⟩, trivial,
    ⟨rfl, y, ⟨⟨trivial, hb⟩, trivial⟩, rfl⟩, trivial, trivial⟩

end Region
end SpacePartition
