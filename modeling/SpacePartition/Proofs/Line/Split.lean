import SpacePartition.Proofs.Arena.Fitting
import SpacePartition.Proofs.Line.Algebra

/-!
Splitting an arena of the line. However crowded the cuts are, and whether or not they lie in their
cells, a split changes the attribute of no point that keeps the tolerance from all of them.
-/

namespace SpacePartition

variable {K ι α : Type} [Field K] [LinearOrder K] {L : Set K} {t : K}

namespace Line

-- Cuts of one tolerance may be anywhere.
theorem fitted_clear {n : Node (line (Exact K)) ι α} {C : Set K}
    (h : ∀ s ∈ n.cuts,
      ∃ c ∈ L, ∃ dir, s = (⟨.finite c, dir, .finite t⟩ : OrientedPoint (Exact K))) :
    (clear L t).Fitted C n := by
  induction n generalizing C
  case leaf => trivial
  case fork cut p m hp hm =>
    have ⟨⟨c, hc, dir, he⟩, h⟩ := Node.forall_cuts_fork.mp h
    exact ⟨clear_spans.mpr ⟨c, dir, he, hc⟩, hp h.1, hm h.2⟩

variable [IsStrictOrderedRing K]

-- The half on the side of a point says of it what the whole says.
theorem verdict_close [Inhabited ι] [DecidableEq α] {n : Node (line (Exact K)) ι α}
    {s : OrientedPoint (Exact K)} {p : K} (ht : 0 ≤ t) (hn : (clear L t).Fitted .univ n)
    (hs : (clear L t).Spans .univ s) (hp : ∀ c ∈ L, p ≠ c ∧ t ≤ |p - c|) :
    ((n.split s).close s).verdict (outlook p) = n.verdict (outlook p) := by
  have hx : (clear L t).Sees (outlook p) p := by
    intro C s hs
    obtain ⟨c, dir, rfl, hc⟩ := clear_spans.mp hs
    exact ⟨beyond_outlook (hp c hc).1, fun c hc => (hp c hc).2⟩
  rw [Halves.close, Node.verdict_fork]
  exact (hn.split (clear_separating ht) .univ hs).verdict hx trivial

end Line

namespace Arena

variable [IsStrictOrderedRing K] [DecidableEq α]

-- Cuts may be redundant, repeat others or contradict them, and they may coincide with the cut that
-- splits.
theorem cellOf_split {a : Arena (line (Exact K)) α} (ha : a.WellFormed) (ht : 0 ≤ t)
    (hc : ∀ s ∈ a.cutsBelow a.root,
      ∃ c dir, s = (⟨.finite c, dir, .finite t⟩ : OrientedPoint (Exact K)))
    (x : K) (dir : Bool) :
    let s : OrientedPoint (Exact K) := ⟨.finite x, dir, .finite t⟩
    ∃ root a',
      (Index.split a.root s : Action _ α Unit Empty _) (a, ()) = some (.ok (root, a', ())) ∧
      (∃ l r u, a'.entries[root]? = some ⟨.fork s l r, none, u⟩) ∧
      ∀ p, p ≠ x → t ≤ |p - x| →
        (∀ s ∈ a.cutsBelow a.root, ∀ c, s.location = .finite c → p ≠ c ∧ t ≤ |p - c|) →
        ∃ i j q q' attr,
          (Index.cellOf (Exact.finite p) 0 a.root : Action _ α Unit Empty _) (a, ()) =
            some (.ok (i, a, ())) ∧
          (Index.cellOf (Exact.finite p) 0 root : Action _ α Unit Empty _) (a', ()) =
            some (.ok (j, a', ())) ∧
          a.entries[i]? = some ⟨.leaf, q, attr⟩ ∧ a'.entries[j]? = some ⟨.leaf, q', attr⟩ := by
  intro s
  obtain ⟨n, hn, hr, hd⟩ := ha.exists_holds
  have hs : (Index.split n.id s : Action _ α Unit Empty _).Yields a _ := Action.yields_split hn hd
  obtain ⟨root, a', ⟨⟩, hrun, h, rfl, hb, hh, -⟩ := hs.exists_ok ()
  rw [hr] at hrun
  refine ⟨h.id, a', hrun, ⟨_, _, _, hh.entry⟩, fun p hpx hpt hpc => ?_⟩
  obtain ⟨i, q, hi, hei⟩ := hn.exists_leaf (ε := Empty) (s := ()) (Exact.finite p)
  obtain ⟨j, q', hj, hej⟩ := hh.exists_leaf (ε := Empty) (s := ()) (Exact.finite p)
  rw [hr] at hi
  refine ⟨i, j, q, q', _, hi, hj, hei, ?_⟩
  let L : Set K := insert x {c | ∃ s ∈ a.cutsBelow a.root, s.location = .finite c}
  have hf : (Line.clear L t).Fitted .univ n.bare := by
    refine Layout.fitted_relabel.mpr <| Line.fitted_clear fun s hs => ?_
    have hs := hr ▸ hn.mem_cutsBelow.mpr hs
    obtain ⟨c, dir, rfl⟩ := hc s hs
    exact ⟨c, .inr ⟨_, hs, rfl⟩, dir, rfl⟩
  have hp : ∀ c ∈ L, p ≠ c ∧ t ≤ |p - c| := by
    rintro c (rfl | ⟨s, hs, hl⟩)
    case inl => exact ⟨hpx, hpt⟩
    case inr => exact hpc s hs c hl
  have hv : (h.close s).verdict (Line.outlook p) = n.verdict (Line.outlook p) := by
    have hv := Line.verdict_close ht hf (Line.clear_spans.mpr ⟨x, dir, rfl, .inl rfl⟩) hp
    rw [← hb] at hv
    exact Node.verdict_relabel.symm.trans <| hv.trans Node.verdict_relabel
  exact hej.trans <| congrArg (some <| Entry.mk .leaf q' ·) hv

-- The inner cut is beside its cell, and the new cut is as good as on it, facing the other way.
theorem cellOf_split_of_cut_beside_cell :
    let cut (x : ℚ) : OrientedPoint (Exact ℚ) := ⟨.finite x, true, .finite 1⟩
    let s : OrientedPoint (Exact ℚ) := ⟨.finite (21 / 2), false, .finite 1⟩
    let a : Arena (line (Exact ℚ)) Nat :=
      ⟨#[⟨.leaf, some 4, some 7⟩, ⟨.leaf, some 3, some 8⟩, ⟨.leaf, some 3, some 9⟩,
        ⟨.fork (cut 10) 1 2, some 4, none⟩, ⟨.fork (cut 5) 0 3, none, none⟩], 4⟩
    (a.WellFormed ∧ (0 : ℚ) ≤ 1 ∧
      ∀ c ∈ a.cutsBelow a.root,
        ∃ x dir, c = (⟨.finite x, dir, .finite 1⟩ : OrientedPoint (Exact ℚ))) ∧
    ∃ root a' j q,
      (Index.split 4 s : Action _ Nat Unit Empty _) (a, ()) = some (.ok (root, a', ())) ∧
      (Index.cellOf (Exact.finite 0) 0 root : Action _ Nat Unit Empty _) (a', ()) =
        some (.ok (j, a', ())) ∧
      a'.entries[j]? = some ⟨.leaf, q, some 9⟩ := by
  intro cut s a
  let n : Node (line (Exact ℚ)) Nat Nat :=
    .fork 4 none (cut 5) (.leaf 0 (some 7))
      (.fork 3 none (cut 10) (.leaf 1 (some 8)) (.leaf 2 (some 9)))
  have hn : a.Holds none n := ⟨rfl, rfl, rfl, rfl, rfl⟩
  have ha : a.WellFormed := hn.wellFormed rfl rfl (by decide : [0, 1, 2, 3, 4].Nodup)
  have mem_cuts {c : OrientedPoint (Exact ℚ)} (h : c ∈ a.cutsBelow 4) : c = cut 5 ∨ c = cut 10 := by
    simpa [n, Node.cuts] using hn.mem_cutsBelow.mp h
  have hc : ∀ c ∈ a.cutsBelow a.root,
      ∃ x dir, c = (⟨.finite x, dir, .finite 1⟩ : OrientedPoint (Exact ℚ)) :=
    fun c h => (mem_cuts h).elim (⟨5, true, ·⟩) (⟨10, true, ·⟩)
  refine ⟨⟨ha, zero_le_one, hc⟩, ?_⟩
  obtain ⟨root, a', hs, -, h⟩ := cellOf_split ha zero_le_one hc (21 / 2) false
  obtain ⟨i, j, q, q', attr, hi, hj, hei, hej⟩ :=
    h 0 (by norm_num) (by norm_num) fun c hc x hx => by
      rcases mem_cuts hc with rfl | rfl <;> cases hx <;> norm_num
  refine ⟨root, a', j, q', hs, hj, ?_⟩
  have hi' : i = (n.cellOf (Exact.finite 0) 0).id := by
    cases hi.symm.trans (Action.run_cellOf hn); rfl
  rw [hi', (by decide +kernel : (n.cellOf (Exact.finite 0) 0).id = 2)] at hei
  cases hei
  exact hej

end Arena
end SpacePartition
