import Mathlib.Data.List.Forall2
import SpacePartition.Proofs.Region.Carving
import SpacePartition.Proofs.Region.Flow
import SpacePartition.Region.Boundary

/-!
Chains that no hyperplane misses. A point is located by its offsets from the cuts of such a chain,
and the boundary consists of what each cut has on the minus sides of the others.
-/

namespace SpacePartition

variable {R : Type} {S : Space R} {ι : Type}

-- The cuts that hyperplanes make when each is cut into the cell that those before it leave.
inductive Cell.Fits : Cell S → List S.Hyperplane → List S.Sub → Prop
  | nil {cell : Cell S} : Fits cell [] []
  | cons {cell : Cell S} {h : S.Hyperplane} {hs : List S.Hyperplane} {cut : S.Sub}
        {cuts : List S.Sub} :
      cell.fit (S.whole h) = some cut → Fits (⟨cut, .minus⟩ :: cell) hs cuts →
      Fits cell (h :: hs) (cut :: cuts)

-- Whether a partition is outside on the plus side of each cut and inside where the cuts end.
inductive Node.IsChain : List S.Sub → Node S ι Bool → Prop
  | leaf (i : ι) : IsChain [] (.leaf i (some true))
  | fork {cut : S.Sub} {cuts : List S.Sub} {m : Node S ι Bool} (i : ι) (a : Option Bool) (j : ι) :
      IsChain cuts m → IsChain (cut :: cuts) (.fork i a cut (.leaf j (some false)) m)

theorem Node.IsChain.isLeaf_cons {n : Node S ι Bool} {cut : S.Sub} {cuts : List S.Sub}
    (hn : n.IsChain (cut :: cuts)) : n.isLeaf = false := by
  cases hn
  rfl

namespace Region

variable {t : Tree S Bool} {path : Path} {cell : Cell S} {hs : List S.Hyperplane}
variable {cuts : List S.Sub}

theorem chain_of_fits (hf : cell.Fits hs cuts) {i : ℕ}
    (hl : t.root.locate path = some (cell, .leaf i (some true))) :
    ∃ t' n, chain path t hs = (t', []) ∧ t'.root = t.root.modify (fun _ => n) path ∧
      n.IsChain cuts := by
  induction hf generalizing t path i
  case nil => exact ⟨t, _, rfl, (Node.modify_self hl).symm, .leaf i⟩
  case cons cell h hs cut cuts hc _ ih =>
    obtain ⟨hn, -⟩ | ⟨_, t', k, j, hc', hi, ht⟩ := Tree.insertCut_eq hl h
    case inl => cases hc.symm.trans hn
    case inr =>
      cases hc.symm.trans hc'
      have hr : (t'.setAttr (path ++ [.plus]) (some false)).root = t.root.modify
          (fun _ => .fork i none cut (.leaf k (some false)) (.leaf j (some true))) path := by
        rw [Tree.setAttr, Tree.modify, Node.modify_append, ht, Node.modify_modify]
        rfl
      have hu : (t'.setAttr (path ++ [.plus]) (some false)).root.locate (path ++ [.minus]) =
          some (⟨cut, .minus⟩ :: cell, .leaf j (some true)) := by
        rw [hr, Node.locate_modify hl]
        rfl
      obtain ⟨u, n, hch, hn, h⟩ := ih hu
      refine ⟨u, .fork i none cut (.leaf k (some false)) n, ?chain, ?root, .fork _ _ _ h⟩
      case chain => rw [chain, hi]; exact hch
      case root =>
        rw [hn, hr, Node.modify_append, Node.modify_modify]
        rfl

theorem convex_of_fits [BEq R] (tolerance : R) (hf : Cell.Fits [] hs cuts) (hn : hs ≠ []) :
    ∃ r, convex hs tolerance = .ok r ∧ r.tolerance = tolerance ∧ r.tree.root.IsChain cuts := by
  have hl : (Tree.leaf (S := S) (some true)).root.locate [] = some ([], .leaf 0 (some true)) := rfl
  obtain ⟨t, n, hc, ht, hch⟩ := chain_of_fits hf hl
  refine ⟨⟨t, tolerance⟩, ?_, rfl, ht ▸ hch⟩
  rw [convex, if_neg (by simpa using hn), hc]
  rfl

end Region

namespace Node

section Check

variable {K : Type} [Field K] [LinearOrder K] [IsStrictOrderedRing K] {S : Space (Exact K)}
variable {n : Node S ι Bool} {cuts : List S.Sub} {p : S.Point} {ds : List K} {t : K}

-- A point is close to a cut if its offset lies between `-t` and `t`.
theorem IsChain.check (hn : n.IsChain cuts) (ht : 0 < t)
    (hd : List.Forall₂ (fun cut d => S.offset (S.hyperplane cut) p = .finite d) cuts ds) :
    n.check (.finite t) p = if ∃ d ∈ ds, t ≤ d then .outside
      else if ∀ d ∈ ds, d ≤ -t then .inside else .boundary := by
  induction hn generalizing ds
  case leaf => cases hd; simp [Node.check]
  case fork cut cuts m i a j _ ih =>
    obtain ⟨d, ds, ho, hds, rfl⟩ := List.forall₂_cons_left_iff.mp hd
    have hf : (some false == some true) = false := rfl
    simp only [Node.check, ho, ih hds, hf, Exact.isNaN_finite, Exact.abs_finite, Exact.finite_le,
      Exact.zero_eq, List.exists_mem_cons_iff, List.forall_mem_cons, Bool.false_eq_true, if_false]
    by_cases h : t ≤ d
    case pos =>
      have h0 : ¬d ≤ 0 := (ht.trans_le h).not_ge
      simp [h, h0, h.trans (le_abs_self d)]
    case neg =>
      by_cases h' : d ≤ -t
      case pos =>
        have h0 : d ≤ 0 := h'.trans (neg_nonpos.mpr ht.le)
        simp [h, h', h0, (le_neg.mp h').trans (neg_le_abs d)]
      case neg =>
        have h0 : ¬t ≤ |d| := (abs_lt.mpr ⟨not_le.mp h', not_le.mp h⟩).not_ge
        simp only [h, h', h0, if_false, false_or, false_and]
        split_ifs <;> rfl

end Check

variable {n m : Node S ι Bool} {cut part : S.Sub} {cuts : List S.Sub} {c : Contact S}

-- All of a cut touches the outside on its plus side. What of it touches the inside on its minus
-- side is its facet.
theorem facetsOfCut_leaf {j : ι} (hc : m.contact cut = .ok c) (hp : c.inside = some part)
    (he : S.isEmpty part = false) :
    facetsOfCut cut (leaf j (some false)) m = .ok [⟨part, .plusOutside⟩] := by
  have hf : m.facetOn .plusOutside (some cut) = .ok [⟨part, .plusOutside⟩] := by
    simp only [facetOn, hc, hp, Except.ok_bind, Option.filter, he]
    rfl
  have ho : (leaf (S := S) j (some false)).contact cut = .ok ⟨none, some cut⟩ := rfl
  rw [facetsOfCut, ho, Except.ok_bind, hf]
  rfl

end Node
end SpacePartition
