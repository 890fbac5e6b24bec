import Mathlib.Algebra.Order.Field.Rat
import SpacePartition.Line.Basic
import SpacePartition.Proofs.Arena.WellFormed
import SpacePartition.Proofs.Node.Condensed
import SpacePartition.Proofs.Scalar.Orderly

/-!
Arenas simplified in place. Simplifying changes no more of an arena than the partition that it
holds, and ends in the one arena of the normal form.
-/

namespace SpacePartition

variable {R : Type} {S : Space R} {ι α β γ σ ε : Type}

theorem Tree.simplify_simplify [DecidableEq α] (t : Tree S α) :
    t.simplify.simplify = t.simplify := by
  have h : (t.root.simplify.number 0).Condensed :=
    Node.condensed_number.mpr t.root.condensed_simplify
  simp only [simplify, ofNode, h.simplify_eq, Node.number_number, Node.size_number]

namespace Arena

variable {a b : Arena S α} {p : Option Nat} {n : Node S Nat α} {i : Nat}

theorem Holds.entry_eq (ha : a.Holds p n) (hb : b.Holds p n) (hi : i ∈ n.ids) :
    a.entries[i]? = b.entries[i]? := by
  induction n generalizing p
  case leaf =>
    cases List.mem_singleton.mp hi
    exact ha.trans hb.symm
  case fork hl hr =>
    rcases Node.mem_ids_fork.mp hi with hi | hi | rfl
    case inl     => exact hl ha.2.1 hb.2.1 hi
    case inr.inl => exact hr ha.2.2 hb.2.2 hi
    case inr.inr => exact ha.1.trans hb.1.symm

-- A partition has one arena.
theorem Represents.unique {n : Node S ι α} (ha : a.Represents (.ofNode n))
    (hb : b.Represents (.ofNode n)) : a = b := by
  have hroot : a.root = b.root := ha.root.symm.trans hb.root
  have hentries : a.entries = b.entries := by
    refine Array.ext_getElem? fun i => ?_
    by_cases hi : i < n.size
    case pos =>
      refine ha.holds.entry_eq hb.holds ?_
      simpa [Tree.ofNode] using hi
    case neg =>
      have hge {c : Arena S α} (hc : c.Represents (.ofNode n)) : c.entries.size ≤ i :=
        hc.size.trans_le (Nat.le_of_not_lt hi)
      rw [Array.getElem?_eq_none (hge ha), Array.getElem?_eq_none (hge hb)]
  exact congr (congrArg Arena.mk hentries) hroot

theorem WellFormed.exists_represents (h : a.WellFormed) :
    ∃ t, a.Represents t ∧ t.root.ids.Nodup := by
  obtain ⟨n, hn, hr, hd⟩ := h.exists_holds
  exact ⟨⟨n, a.entries.size⟩, ⟨hn, hr, rfl⟩, hd⟩

namespace Action

open Index

section Rooted

variable {x : Action S α σ ε β} {f : β → Action S α σ ε γ}

-- Whether an action leaves the root where it is.
def Rooted (x : Action S α σ ε β) : Prop :=
  ∀ ⦃a s b a' s'⦄, x (a, s) = some (.ok (b, a', s')) → a'.root = a.root

theorem Yields.rooted {Q : β → Arena S α → Prop} (h : x.Yields a Q) (hx : x.Rooted) :
    x.Yields a fun b a' => Q b a' ∧ a'.root = a.root := by
  intro s
  obtain ⟨outcome, hs, ho⟩ := h s
  refine ⟨outcome, hs, ?_⟩
  rcases outcome with (_ | _ | _ | _ | _) | ⟨b, a', s'⟩
  case ok            => exact ⟨ho, hx hs⟩
  case error.refused => trivial
  all_goals exact ho

theorem rooted_pure {b : β} : (pure b : Action S α σ ε β).Rooted := by
  rintro a s b a' s' ⟨⟩
  rfl

theorem rooted_throw {e : Panic ε} : (throw e : Action S α σ ε β).Rooted :=
  nofun

theorem rooted_bind (hx : x.Rooted) (hf : ∀ b, (f b).Rooted) : (x >>= f).Rooted := by
  intro a s c a' s' h
  change Option.bind (x (a, s)) _ = _ at h
  obtain ⟨outcome, hs, h⟩ := Option.bind_eq_some_iff.mp h
  rcases outcome with e | ⟨b, a₁, s₁⟩
  case error => cases h
  case ok    => exact (hf b h).trans (hx hs)

theorem rooted_entry : (entry i : Action S α σ ε _).Rooted := by
  refine rooted_bind (fun a s b a' s' h => by cases h; rfl) fun a => ?_
  split
  case h_1 => exact rooted_pure
  case h_2 => exact rooted_throw

theorem rooted_update {f : Entry S α → Entry S α} : (update i f : Action S α σ ε _).Rooted := by
  refine rooted_bind rooted_entry fun e a s b a' s' h => ?_
  cases h
  rfl

theorem rooted_children : (children i : Action S α σ ε _).Rooted := by
  refine rooted_bind rooted_entry fun e => ?_
  split <;> exact rooted_pure

theorem rooted_isLeaf : (isLeaf i : Action S α σ ε _).Rooted :=
  rooted_bind rooted_children fun _ => rooted_pure

theorem rooted_makeLeaf {t : Option α} : (makeLeaf i t : Action S α σ ε _).Rooted := by
  refine rooted_bind rooted_children fun pm => ?_
  rcases pm with _ | ⟨p, m⟩
  case none => exact rooted_update
  case some =>
    exact rooted_bind rooted_update fun _ => rooted_bind rooted_update fun _ => rooted_update

theorem rooted_condense [DecidableEq α] : (condense i : Action S α σ ε _).Rooted := by
  refine rooted_bind rooted_children fun pm => ?_
  rcases pm with _ | ⟨p, m⟩
  case none => exact rooted_pure
  case some =>
    refine rooted_bind ?test fun b => ?change
    case test =>
      refine rooted_bind rooted_isLeaf fun b => ?_
      cases b
      case false => exact rooted_pure
      case true  => exact rooted_isLeaf
    case change =>
      cases b
      case false => exact rooted_pure
      case true  =>
        refine rooted_bind rooted_entry fun plus => rooted_bind rooted_entry fun minus => ?_
        split
        case isTrue  => exact rooted_makeLeaf
        case isFalse => exact rooted_pure

end Rooted

variable [DecidableEq α]

theorem yields_simplifyFrom (h : a.Holds p n) (hn : n.ids.Nodup) :
    (Index.simplify n.id : Action S α σ ε Unit).Yields a fun _ a' =>
      Reworks a p n a' n.simplify ∧ a'.root = a.root := by
  induction n generalizing a p
  case leaf =>
    rw [Index.simplify]
    exact yields_bind <| yields_children_leaf h <| yields_pure ⟨reworks_refl h hn, rfl⟩
  case fork i t c l r hl hr =>
    obtain ⟨nl, nr, -⟩ := Node.nodup_fork.mp hn
    rw [Index.simplify]
    refine yields_bind <| yields_children_fork h.1 <| yields_bind ?_
    refine (hl h.2.1 nl).imp fun _ a₁ ⟨h₁, r₁⟩ => yields_bind ?_
    have h₁ := h₁.plus h hn
    refine (hr h₁.holds.2.2 nr).imp fun _ a₂ ⟨h₂, r₂⟩ => ?_
    have h₂ := h₁.trans <| h₂.minus h₁.holds h₁.nodup
    refine ((yields_condense h₂.holds h₂.nodup).rooted rooted_condense).imp fun _ a₃ ⟨h₃, r₃⟩ => ?_
    exact ⟨h₂.trans h₃, r₃.trans <| r₂.trans r₁⟩

theorem yields_simplify {t : Tree S α} (h : a.Represents t) (ht : t.root.ids.Nodup) :
    (simplify : Action S α σ ε Unit).Yields a fun _ c => c.Represents t.simplify := by
  refine yields_bind <| yields_arena <| yields_bind ?_
  rw [← h.root]
  refine (yields_simplifyFrom h.holds ht).imp fun _ a' ⟨h', hr⟩ => ?_
  exact yields_compact h'.holds <| h'.id.trans <| h.root.trans hr.symm

end Action

-- A well-formed arena is simplified to one that has no entries but the reachable ones, and that
-- stays as it is when it is simplified again. The partition loses forks between leaves of one
-- attribute, and nothing else; of a point whose offsets are numbers it says what it said before.
theorem simplify_normalizes [Scalar R] [Scalar.Magnitudes R] :
    (∀ (α : Type) [DecidableEq α] (a : Arena S α), a.WellFormed → ∃ t c,
      a.Represents t ∧ c.Represents t.simplify ∧
      (Action.simplify : Action S α Unit Empty Unit) (a, ()) = some (.ok ((), c, ())) ∧
      (Action.simplify : Action S α Unit Empty Unit) (c, ()) = some (.ok ((), c, ())) ∧
      c.WellFormed ∧ (∀ i < c.entries.size, c.Reachable i) ∧
      t.simplify.root.Condensed ∧
      (∀ path j x cut l r, t.simplify.root.at? path = some (.fork j x cut l r) →
        ∃ i l' r', t.root.at? path = some (.fork i x cut l' r')) ∧
      ∀ p, (t.simplify.root.cellOf p 0).attr = (t.root.cellOf p 0).attr) ∧
    ∀ (t : Tree S Bool) (p : S.Point),
      (∀ cut ∈ t.root.cuts, Scalar.isNaN (S.offset (S.hyperplane cut) p) = false) →
      ∀ tolerance, Region.check ⟨t.simplify, tolerance⟩ p = Region.check ⟨t, tolerance⟩ p := by
  refine ⟨fun α _ a ha => ?arena, fun t p hp tolerance => ?check⟩
  case arena =>
    obtain ⟨t, ht, hd⟩ := ha.exists_represents
    obtain ⟨_, c, _, hac, hc⟩ := (Action.yields_simplify (ε := Empty) ht hd).exists_ok ()
    obtain ⟨_, d, _, hcd, hd⟩ :=
      (Action.yields_simplify (ε := Empty) hc Node.nodup_number).exists_ok ()
    rw [Tree.simplify_simplify] at hd
    cases hc.unique hd
    refine ⟨t, c, ht, hc, hac, hcd, hc.wellFormed, hc.reachable,
      Node.condensed_number.mpr t.root.condensed_simplify,
      fun path j x cut l r h => ?fork, fun p => ?point⟩
    case fork =>
      obtain ⟨i, l', r', h⟩ := Node.at?_number h
      obtain ⟨l', r', h⟩ := Node.at?_simplify h
      exact ⟨i, l', r', h⟩
    case point =>
      have habs : ∀ x : R, ¬Scalar.abs x < 0 := Scalar.Magnitudes.not_abs_lt_zero
      rw [Node.attr_cellOf habs, Node.attr_cellOf habs, Tree.simplify, Tree.ofNode,
        Node.verdict_number, Node.verdict_simplify]
  case check =>
    simp only [Region.check, Tree.simplify, Tree.ofNode, Node.check_number, Node.check_simplify hp]

-- One fork is lost after the other below the plus side of the root, and an entry is dropped to
-- which no link leads. The point lies within the tolerance of both lost cuts.
theorem simplify_normalizes_of_cascade :
    let cut (x : ℚ) : OrientedPoint (Exact ℚ) := ⟨.finite x, true, .finite 1⟩
    let a : Arena (line (Exact ℚ)) Bool := ⟨#[⟨.leaf, some 2, some true⟩,
      ⟨.leaf, some 2, some true⟩, ⟨.fork (cut 8) 0 1, some 5, none⟩, ⟨.leaf, none, none⟩,
      ⟨.leaf, some 5, some true⟩, ⟨.fork (cut 7) 2 4, some 7, none⟩,
      ⟨.leaf, some 7, some false⟩, ⟨.fork (cut 0) 5 6, none, none⟩], 7⟩
    let t : Tree (line (Exact ℚ)) Bool := ⟨.fork 7 none (cut 0) (.fork 5 none (cut 7)
      (.fork 2 none (cut 8) (.leaf 0 (some true)) (.leaf 1 (some true))) (.leaf 4 (some true)))
      (.leaf 6 (some false)), 8⟩
    let c : Arena (line (Exact ℚ)) Bool := ⟨#[⟨.leaf, some 2, some true⟩,
      ⟨.leaf, some 2, some false⟩, ⟨.fork (cut 0) 0 1, none, none⟩], 2⟩
    let p : Exact ℚ := .finite (15 / 2)
    a.WellFormed ∧ ¬a.Reachable 3 ∧
      (Action.simplify : Action _ _ Unit Empty Unit) (a, ()) = some (.ok ((), c, ())) ∧
      (Action.simplify : Action _ _ Unit Empty Unit) (c, ()) = some (.ok ((), c, ())) ∧
      (∀ s ∈ t.root.cuts, Scalar.isNaN (OrientedPoint.offset s p) = false) ∧
      Region.check ⟨t.simplify, .finite 1⟩ p = Region.check ⟨t, .finite 1⟩ p := by
  intro cut a t c p
  have hold : a.Holds none t.root := ⟨rfl, ⟨rfl, ⟨rfl, rfl, rfl⟩, rfl⟩, rfl⟩
  have ha : a.WellFormed := hold.wellFormed rfl rfl (by decide : [0, 1, 2, 4, 5, 6, 7].Nodup)
  have hr : ¬a.Reachable 3 := fun h => by
    exact absurd ((hold.reachable_iff rfl).mp h) (by decide : 3 ∉ [0, 1, 2, 4, 5, 6, 7])
  have hp : ∀ s ∈ t.root.cuts, Scalar.isNaN (OrientedPoint.offset s p) = false := by decide +kernel
  obtain ⟨t', c', ht', hc', hac, hcc, -⟩ := simplify_normalizes.1 Bool a ha
  have hc : c.Represents t'.simplify := by
    rw [Tree.simplify, ht'.holds.unique hold ht'.root]
    exact ⟨⟨rfl, rfl, rfl⟩, rfl, rfl⟩
  cases hc'.unique hc
  exact ⟨ha, hr, hac, hcc, hp, simplify_normalizes.2 t p hp _⟩

end Arena
end SpacePartition
