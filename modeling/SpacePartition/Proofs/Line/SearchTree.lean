import SpacePartition.Proofs.Line.Inside

/-!
Partitions of the line as search trees. If the cuts lie in their cells, they are in increasing order
from the lower side of a cut to its upper side, and each leaf has points that lead to it.
-/

namespace SpacePartition

variable {ι α : Type}

-- The places of the cuts, those below a cut before it and those above it after it.
def Node.inorder {R : Type} [Scalar R] : Node (line R) ι α → List R
  | leaf ..            => []
  | fork _ _ cut plus minus =>
    let cut : OrientedPoint R := cut
    if cut.direct
    then minus.inorder ++ cut.location :: plus.inorder
    else plus.inorder ++ cut.location :: minus.inorder

variable {K : Type} [Field K] [LinearOrder K]

namespace Interval

variable {cell : Interval (Exact K)} {c s x : K}

omit [Field K] [LinearOrder K] in
-- Cutting an interval makes no new bound but the cut.
theorem ends_cutAt_subset {above : Bool} : ends [cell.cutAt c above] ⊆ insert c (ends [cell]) := by
  intro e he
  simp only [ends, List.mem_singleton, exists_eq_left, Set.mem_insert_iff, Set.mem_ofPred_eq]
    at he ⊢
  cases above
  case false => exact he.elim (fun h => .inr (.inl h)) fun h => .inl (Exact.finite.inj h).symm
  case true  => exact he.elim (fun h => .inl (Exact.finite.inj h).symm) fun h => .inr (.inr h)

-- Whether a point lies in an interval, no closer than `s` to its bounds.
structure Keeps (s : K) (cell : Interval (Exact K)) (x : K) : Prop where
  mem   : x ∈ cell.interior
  lower : cell.lower ≤ .finite (x - s)
  upper : .finite (x + s) ≤ cell.upper

variable [IsStrictOrderedRing K]

theorem Keeps.of_cutAt (hc : c ∈ cell.interior) {above : Bool}
    (h : (cell.cutAt c above).Keeps s x) :
    cell.Keeps s x ∧ s ≤ |x - c| ∧ x ≠ c ∧ decide (c < x) = above := by
  have ⟨⟨hl, hu⟩, hls, hus⟩ := h
  cases above
  case false =>
    have hx : x < c := hu
    have hs : x + s ≤ c := Exact.finite_le.mp hus
    refine ⟨⟨⟨hl, Exact.lt_trans hu hc.2⟩, hls, .inl <| Exact.lt_of_le_of_lt hus hc.2⟩,
      ?far_below, hx.ne, ?below⟩
    case far_below => rw [le_abs]; exact .inr (by linarith)
    case below     => exact decide_eq_false hx.not_gt
  case true =>
    have hx : c < x := hl
    have hs : c ≤ x - s := Exact.finite_le.mp hls
    refine ⟨⟨⟨Exact.lt_trans hc.1 hl, hu⟩, .inl <| Exact.lt_of_lt_of_le hc.1 hls, hus⟩,
      ?far_above, hx.ne', ?above⟩
    case far_above => rw [le_abs]; exact .inl (by linarith)
    case above     => exact decide_eq_true hx

-- Between bounds that are well apart there is room for a distance from both.
theorem exists_keeps {L : Set K} {t : K} (hL : Line.Spaced L t) (hs : 0 ≤ s) (hst : s + s ≤ t)
    (hc : cell.lower < cell.upper) (he : ends [cell] ⊆ L) : ∃ x, cell.Keeps s x := by
  obtain ⟨l | (_ | _) | _, u | (_ | _) | _⟩ := cell <;> simp at hc
  case finite.finite =>
    have ha := hL l (he <| by simp [ends]) u (he <| by simp [ends])
    have ht : t < u - l := by
      rcases ha with rfl | ha
      case inl => exact absurd hc (lt_irrefl l)
      case inr => rwa [abs_sub_comm, abs_of_pos (by linarith)] at ha
    refine ⟨(l + u) / 2, ⟨?_, ?_⟩, ?_, ?_⟩ <;> simp only [Exact.finite_lt, Exact.finite_le] <;>
      linarith
  case finite.infinite.true =>
    refine ⟨l + s + 1, ⟨?_, rfl⟩, ?_, .inl rfl⟩ <;> simp only [Exact.finite_lt, Exact.finite_le] <;>
      linarith
  case infinite.false.finite =>
    refine ⟨u - s - 1, ⟨rfl, ?_⟩, .inl rfl, ?_⟩ <;> simp only [Exact.finite_lt, Exact.finite_le] <;>
      linarith
  case infinite.false.infinite.true => exact ⟨0, ⟨rfl, rfl⟩, .inl rfl, .inl rfl⟩

end Interval

namespace Line

variable {C L : Set K} {c s t x : K} {n plus minus : Node (line (Exact K)) ι α} {i : ι}
variable {a : Option α} {dir : Bool} {tol : Exact K} {path : Path}

theorem descend_fork (h : s ≤ |x - c|) :
    (Node.fork i a (⟨.finite c, dir, tol⟩ : OrientedPoint (Exact K)) plus minus).descend
      (Exact.finite x) (Exact.finite s) =
      let b := outlook x (⟨.finite c, dir, tol⟩ : OrientedPoint (Exact K))
      b :: (b.pick plus minus).descend (Exact.finite x) (Exact.finite s) := by
  refine Node.descend_fork <| Space.heading_eq_outlook _ ?_
  change ¬Scalar.abs (OrientedPoint.offset ..) < _
  rw [abs_offset, Exact.finite_lt]
  exact not_lt.mpr h

section InOrder

variable {below above : List (Exact K)}

-- The cuts below a cut come before it, and those above it after it.
theorem inorder_fork : (Node.fork i a (⟨.finite c, dir, tol⟩ : OrientedPoint (Exact K))
      plus minus).inorder =
    ((OrientedPoint.toward ⟨.finite c, dir, tol⟩ false).pick plus minus).inorder ++
      .finite c :: ((OrientedPoint.toward ⟨.finite c, dir, tol⟩ true).pick plus minus).inorder := by
  cases dir <;> rfl

theorem sorted_append_cons (hb : below.Pairwise (· < ·)) (ha : above.Pairwise (· < ·))
    (hbc : ∀ x ∈ below, x < .finite c) (hca : ∀ y ∈ above, .finite c < y) :
    (below ++ .finite c :: above).Pairwise (· < ·) := by
  refine List.pairwise_append.mpr ⟨hb, List.pairwise_cons.mpr ⟨hca, ha⟩, fun x hx y hy => ?_⟩
  rcases List.mem_cons.mp hy with rfl | hy
  case inl => exact hbc x hx
  case inr => exact Exact.lt_trans (hbc x hx) (hca y hy)

variable [IsStrictOrderedRing K]

-- What lies at places on a side of a cut lies at places of the cell, above the cut or below it.
theorem places_beyond {above : Bool} {xs : List (Exact K)} (h : ∀ x ∈ xs, ∃ e ∈ C ∩
      {x | OrientedPoint.Beyond 0 ⟨.finite c, dir, tol⟩
        (OrientedPoint.toward ⟨.finite c, dir, tol⟩ above) x} ∩ L, x = .finite e) :
    ∀ x ∈ xs, (∃ e ∈ C ∩ L, x = .finite e) ∧ if above then .finite c < x else x < .finite c := by
  intro x hx
  obtain ⟨e, ⟨⟨heC, he⟩, heL⟩, rfl⟩ := h x hx
  rw [Set.mem_ofPred_eq, OrientedPoint.beyond_toward, add_zero, add_zero] at he
  refine ⟨⟨e, ⟨heC, heL⟩, rfl⟩, ?_⟩
  cases above <;> exact he

-- A search tree has its cuts in order, and each of them within its bounds.
theorem inorder_sorted (hn : (cells 0 L t).Fitted C n) :
    n.inorder.Pairwise (· < ·) ∧ ∀ x ∈ n.inorder, ∃ c ∈ C ∩ L, x = .finite c := by
  induction n generalizing C
  case leaf => exact ⟨.nil, nofun⟩
  case fork i a cut plus minus hp hm =>
    have ⟨hs, hf⟩ := Layout.fitted_fork.mp hn
    obtain ⟨c, dir, rfl, hc, hcL⟩ := cells_spans.mp hs
    let cut : OrientedPoint (Exact K) := ⟨.finite c, dir, .finite t⟩
    have side (b : Branch) : (b.pick plus minus).inorder.Pairwise (· < ·) ∧
        ∀ x ∈ (b.pick plus minus).inorder,
          ∃ e ∈ C ∩ {x | OrientedPoint.Beyond 0 cut b x} ∩ L, x = .finite e := by
      cases b
      case plus  => exact hp (hf .plus)
      case minus => exact hm (hf .minus)
    have ⟨hsl, hl⟩ := side (cut.toward false)
    have ⟨hsu, hu⟩ := side (cut.toward true)
    have hl := places_beyond hl
    have hu := places_beyond hu
    rw [inorder_fork]
    constructor
    case left  => exact sorted_append_cons hsl hsu (fun x h => (hl x h).2) fun y h => (hu y h).2
    case right =>
      refine List.forall_mem_append.mpr
        ⟨fun x hx => ?below, List.forall_mem_cons.mpr ⟨?self, fun x hx => ?above⟩⟩
      case below => exact (hl x hx).1
      case self  => exact ⟨c, ⟨hc, hcL⟩, rfl⟩
      case above => exact (hu x hx).1

end InOrder

variable [IsStrictOrderedRing K]

-- No leaf is hidden: some point leads to it, even if cuts within half of the tolerance end the way.
theorem exists_descend (hL : Spaced L t) (hs : 0 ≤ s) (hst : s + s ≤ t) {cell : Interval (Exact K)}
    (hn : (cells 0 L t).Fitted cell.interior n) (hc : cell.lower < cell.upper)
    (he : Interval.ends [cell] ⊆ L) (hp : n.at? path = some (.leaf i a)) :
    ∃ x, cell.Keeps s x ∧ n.descend (Exact.finite x) (Exact.finite s) = path := by
  induction n generalizing cell path
  case leaf =>
    have ⟨x, hx⟩ := Interval.exists_keeps hL hs hst hc he
    cases path
    case nil  => exact ⟨x, hx, rfl⟩
    case cons => cases hp
  case fork j d cut plus minus ihp ihm =>
    have ⟨hsp, hf⟩ := Layout.fitted_fork.mp hn
    obtain ⟨c, dir, rfl, hcC, hcL⟩ := cells_spans.mp hsp
    cases path
    case nil => cases hp
    case cons b path =>
      have hp : (b.pick plus minus).at? path = some (.leaf i a) := by cases b <;> exact hp
      let cut : OrientedPoint (Exact K) := ⟨.finite c, dir, .finite t⟩
      obtain ⟨above, rfl⟩ := cut.exists_toward b
      have hlt := Interval.cutAt_lt hcC above
      have hf : (cells 0 L t).Fitted (cell.cutAt c above).interior _ :=
        Interval.interior_cutAt hcC above ▸ hf (cut.toward above)
      have he' : Interval.ends [cell.cutAt c above] ⊆ L :=
        Interval.ends_cutAt_subset.trans (Set.insert_subset hcL he)
      obtain ⟨x, hx, hd⟩ : ∃ x, (cell.cutAt c above).Keeps s x ∧
          ((cut.toward above).pick plus minus).descend
            (Exact.finite x) (Exact.finite s) = path := by
        change (cells 0 L t).Fitted _ ((cut.toward above).pick plus minus) at hf
        change ((cut.toward above).pick plus minus).at? path = _ at hp
        generalize cut.toward above = b at hf hp ⊢
        cases b
        case plus  => exact ihp hf hlt he' hp
        case minus => exact ihm hf hlt he' hp
      obtain ⟨hk, hxs, hxc, hab⟩ := hx.of_cutAt hcC
      refine ⟨x, hk, ?_⟩
      rw [descend_fork hxs, outlook_toward hxc, hab]
      exact congrArg _ hd

end Line
end SpacePartition
