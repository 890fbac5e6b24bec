import SpacePartition.Proofs.Line.Runs

/-!
Intersections of half-lines. Whichever cuts miss the chain of those before them, the region has the
points on the minus sides of all cuts, so that the order of the cuts does not matter.
-/

namespace SpacePartition

variable {K : Type} [Field K] [LinearOrder K] [IsStrictOrderedRing K] {p t : K}

-- Off a cut, the points of its minus side have negative offsets.
theorem Line.outlook_cut {h : K × Bool} (hp : p ≠ h.1) :
    Line.outlook p (Step.cut t h) = .minus ↔ (Step.cut t h).offset (.finite p) < 0 := by
  obtain ⟨c, dir⟩ := h
  rw [Step.cut, Line.outlook_eq, OrientedPoint.offset_finite, Exact.zero_eq, Exact.finite_lt]
  have he : (if dir then p - c else -(p - c)) ≠ 0 := by
    cases dir <;> simpa [sub_eq_zero, eq_comm] using hp
  rw [← he.le_iff_lt]
  split <;> simp_all

namespace Region

open Line

theorem exists_convex {hs : List (K × Bool)} (ht : 0 ≤ t) (hn : hs ≠ [])
    (hL : Spaced {x | ∃ h ∈ hs, h.1 = x} t) :
    ∃ r, convex (S := line (Exact K)) (hs.map (Step.cut t)) (.finite t) = .ok r ∧
      ∀ p, (∀ h ∈ hs, t < |p - h.1|) → r.check (Exact.finite p) =
        if ∀ h ∈ hs, (Step.cut t h).offset (.finite p) < 0 then .inside else .outside := by
  have ⟨r, hr, htol, hf, hh⟩ := Layout.holds_convex (hL.separating ht) (hL.tight ht)
    (Exact.finite_beq_self (x := t)) (Step.spans_cuts fun h hm => ⟨h, hm, rfl⟩) (by simpa using hn)
  refine ⟨r, hr, fun p hp => ?_⟩
  have hne (h) (hm : h ∈ hs) : p ≠ h.1 := by
    rintro rfl
    exact (hp h hm).not_ge (by simpa using ht)
  have hx : p ∉ {x | ∃ h ∈ hs, h.1 = x} := fun ⟨h, hm, he⟩ => hne h hm he.symm
  have hc : r.tree.root.check (Exact.finite t) (Exact.finite p) =
      .ofInside (r.tree.root.holds (outlook p)) := by
    refine Node.check_clear fun s hs => ?_
    obtain ⟨_, ⟨-, h, hm, rfl⟩, hl⟩ := cells_cuts hf hs
    have ho := lt_or_gt_of_ne (hne h hm)
    exact ⟨_, hl, (hp h hm).le, ho.imp (fun h => ⟨h, h⟩) fun h => ⟨h, h⟩⟩
  rw [check_finite r htol, hc, Location.ofInside]
  refine if_congr ?_ rfl rfl
  rw [hh (sees_outlook hx), List.forall_mem_map]
  exact forall₂_congr fun h hm => outlook_cut (hne h hm)

-- Cuts may be given twice, be implied by others or contradict them.
theorem check_convex {hs : List (K × Bool)} (ht : 0 ≤ t) (hn : hs ≠ [])
    (hL : Spaced {x | ∃ h ∈ hs, h.1 = x} t) :
    ∃ r, convex (S := line (Exact K)) (hs.map (Step.cut t)) (.finite t) = .ok r ∧
      (∀ p, (∀ h ∈ hs, t < |p - h.1|) → r.check (Exact.finite p) =
        if ∀ h ∈ hs, (Step.cut t h).offset (.finite p) < 0 then .inside else .outside) ∧
      ∀ hs' : List (K × Bool), hs'.Perm hs →
        ∃ r', convex (S := line (Exact K)) (hs'.map (Step.cut t)) (.finite t) = .ok r' ∧
          ∀ p, (∀ h ∈ hs, t < |p - h.1|) →
            r'.check (Exact.finite p) = r.check (Exact.finite p) := by
  have ⟨r, hr, hc⟩ := exists_convex ht hn hL
  refine ⟨r, hr, hc, fun hs' hp => ?_⟩
  have hm {h} : h ∈ hs' ↔ h ∈ hs := hp.mem_iff
  have hn' : hs' ≠ [] := fun h => hn (by simpa [h] using hp)
  have hL' : Spaced {x | ∃ h ∈ hs', h.1 = x} t := by simpa only [hm] using hL
  have ⟨r', hr', hc'⟩ := exists_convex ht hn' hL'
  refine ⟨r', hr', fun p h => ?_⟩
  rw [hc p h, hc' p fun h' hh => h h' (hm.mp hh)]
  simp only [hm]

-- The second cut is implied by the first, the third is the first again, and the last one leaves
-- what lies between.
theorem check_convex_of_redundant_cuts :
    let hs : List (ℚ × Bool) := [(10, true), (20, true), (10, true), (0, false)]
    ((0 : ℚ) ≤ 1 ∧ hs ≠ [] ∧ Spaced {x | ∃ h ∈ hs, h.1 = x} 1) ∧
    ∃ r, convex (S := line (Exact ℚ)) (hs.map (Step.cut 1)) (.finite 1) = .ok r ∧
      r.check (Exact.finite 5) = .inside ∧ r.check (Exact.finite 15) = .outside := by
  intro hs
  have hL : Spaced {x | ∃ h ∈ hs, h.1 = x} 1 := by
    intro x hx y hy
    simp only [hs, List.mem_cons, List.not_mem_nil, or_false, exists_eq_or_imp, exists_eq_left,
      Set.mem_ofPred_eq] at hx hy
    obtain rfl | rfl | rfl | rfl := hx <;> obtain rfl | rfl | rfl | rfl := hy <;> norm_num
  refine ⟨⟨zero_le_one, by simp [hs], hL⟩, ?_⟩
  obtain ⟨r, hr, hc, -⟩ := check_convex zero_le_one (by simp [hs]) hL
  refine ⟨r, hr, ?inside, ?outside⟩
  case inside =>
    rw [hc 5 (by simp only [hs]; norm_num)]
    decide +kernel
  case outside =>
    rw [hc 15 (by simp only [hs]; norm_num)]
    decide +kernel

end Region
end SpacePartition
