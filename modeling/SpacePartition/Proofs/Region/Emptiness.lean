import SpacePartition.Proofs.Plane.Layout
import SpacePartition.Proofs.Region.Itself

/-!
Empty parts of hyperplanes. Two halves of a partition have its inside leaves between them, so that a
hyperplane that crosses a part leaves no empty parts, and leaves some part of what is not empty. One
that runs beside a part does not look at what is left of it, and gives an empty part back.
-/

namespace SpacePartition

variable {R : Type}

namespace Node

variable {S : Space R} {ι : Type} {n : Node S ι Bool} {sub : S.Sub}

theorem isEmpty_split [Inhabited ι] :
    (∀ b, ((n.split sub).on b).isEmpty = true) ↔ n.isEmpty = true := by
  have hs : some true ∉ n.leafAttrs ↔
      some true ∉ (n.split sub).plus.leafAttrs ∧ some true ∉ (n.split sub).minus.leafAttrs :=
    (not_congr mem_leafAttrs_split).symm.trans not_or
  simp only [isEmpty_iff_leafAttrs, hs]
  constructor
  case mp  => exact fun h => ⟨h .plus, h .minus⟩
  case mpr =>
    rintro ⟨hp, hm⟩ (_ | _)
    case plus  => exact hp
    case minus => exact hm

end Node

namespace Embedded

variable [Scalar R] {E : Embedding R} {s part : Embedded E} {h : E.Hyperplane} {b : Branch}
variable {c : E.inner.Hyperplane} {half : Node E.inner Nat Bool}

-- Whether a part has another hyperplane within the tolerance of its own.
def LiesOn (s : Embedded E) (h : E.Hyperplane) : Prop :=
  ∃ d, E.trace s.hyperplane h = .parallel d ∧
    ¬d < -E.tolerance s.hyperplane ∧ ¬E.tolerance s.hyperplane < d

omit [Scalar R] in
theorem isEmpty_part (hp : s.part c half = some part) : part.isEmpty = false := by
  rw [Embedded.part] at hp
  split at hp
  case isTrue => cases hp
  case isFalse h =>
    cases hp
    rw [isEmpty, Region.isEmpty, ← Bool.not_eq_true, Node.isEmpty_iff_leafAttrs]
    rw [Node.isEmpty_iff_leafAttrs] at h
    simpa [Tree.ofParts, Tree.leaf, Tree.ofNode, Node.leafAttrs] using h

omit [Scalar R] in
theorem part_eq_none : s.part c half = none ↔ half.isEmpty = true := by
  simp [Embedded.part]

-- What lies beside a hyperplane is its own part.
theorem eq_of_part_of_parallel {d : R} (ht : E.trace s.hyperplane h = .parallel d)
    (hp : (s.split h).on b = some part) : part = s := by
  rw [split_of_parallel ht] at hp
  split at hp
  case isTrue => cases b <;> cases hp; rfl
  case isFalse =>
    split at hp
    case isTrue  => cases b <;> cases hp; rfl
    case isFalse => cases b <;> cases hp

theorem isEmpty_part_iff (hp : (s.split h).on b = some part) :
    part.isEmpty = true ↔ s.isEmpty = true ∧ ∃ d, E.trace s.hyperplane h = .parallel d := by
  cases ht : E.trace s.hyperplane h
  case parallel d => simp [eq_of_part_of_parallel ht hp]
  case crossing c =>
    rw [split_of_crossing ht] at hp
    simp [isEmpty_part hp]

theorem side_split_eq_within : (s.split h).side = .within ↔
    s.LiesOn h ∨ s.isEmpty = true ∧ ∃ c, E.trace s.hyperplane h = .crossing c := by
  cases ht : E.trace s.hyperplane h
  case parallel d =>
    rw [split_of_parallel ht]
    simp only [LiesOn, ht, Trace.parallel.injEq, exists_eq_left', reduceCtorEq, exists_false,
      and_false, or_false]
    split_ifs <;> simp_all [Parts.side]
  case crossing c =>
    have hn : ¬s.LiesOn h := by
      rintro ⟨d, hd, -⟩
      cases ht.symm.trans hd
    simp only [Parts.side_eq_within, split_of_crossing ht, part_eq_none, Node.isEmpty_split, hn,
      false_or, Trace.crossing.injEq, exists_eq', and_true]
    rfl

-- An empty part comes only from an empty one that lies beside the hyperplane, and what is not empty
-- loses both of its parts only where it lies on the hyperplane.
theorem emptiness_of_split (s : Embedded E) (h : E.Hyperplane) :
    (∀ b part, (s.split h).on b = some part →
      (part.isEmpty = true ↔ s.isEmpty = true ∧ ∃ d, E.trace s.hyperplane h = .parallel d)) ∧
    ((s.split h).side = .within ↔
      s.LiesOn h ∨ s.isEmpty = true ∧ ∃ c, E.trace s.hyperplane h = .crossing c) :=
  ⟨fun _ _ => isEmpty_part_iff, side_split_eq_within⟩

theorem emptiness_of_split_of_crossing :
    let t : Exact ℚ := .finite (1 / 4)
    let s : SubLine (Exact ℚ) := ⟨⟨1, 0, 0, t⟩, Region.interval (.finite 0) (.finite 10) t⟩
    let upright : OrientedLine (Exact ℚ) := ⟨0, 1, .finite (-4), t⟩
    ∃ p m, ((s.split upright).on .plus = some p ∧ (s.split upright).on .minus = some m) ∧
      p.isEmpty = false ∧ m.isEmpty = false ∧ ¬s.LiesOn upright := by
  intro t s upright
  have hs : ¬s.isEmpty = true := by decide +kernel
  have ⟨hp, hm⟩ : ((s.split upright).on .plus).isSome ∧ ((s.split upright).on .minus).isSome := by
    decide +kernel
  obtain ⟨p, hp⟩ := Option.isSome_iff_exists.mp hp
  obtain ⟨m, hm⟩ := Option.isSome_iff_exists.mp hm
  have ⟨empty, within⟩ := emptiness_of_split s upright
  refine ⟨p, m, ⟨hp, hm⟩, ?plus, ?minus, fun hl => ?both⟩
  case plus  => exact Bool.eq_false_iff.mpr fun h => hs ((empty .plus p hp).mp h).1
  case minus => exact Bool.eq_false_iff.mpr fun h => hs ((empty .minus m hm).mp h).1
  case both  => exact absurd (within.mpr (.inl hl)) (by decide +kernel)

-- Nothing of a line is still a part of it, for a line that runs beside it.
theorem isEmpty_part_of_parallel :
    let line y : OrientedLine (Exact ℚ) := ⟨1, 0, .finite y, .finite (1 / 4)⟩
    let s : SubLine (Exact ℚ) := ⟨line 1, .empty (.finite (1 / 4))⟩
    ∃ part, (s.split (line 0)).on .minus = some part ∧ part.isEmpty = true := by
  intro line s
  have h : ((s.split (line 0)).on .minus).any (·.isEmpty) = true := by decide +kernel
  exact (Option.any_eq_true _ _).mp h

end Embedded
end SpacePartition
