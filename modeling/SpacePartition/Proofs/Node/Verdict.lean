import SpacePartition.Node.Lemmas
import SpacePartition.Node.Split
import SpacePartition.Region.Basic

/-!
What a partition says of a point: the attribute of the leaf that is reached by taking, at each cut,
the side on which the point lies.
-/

namespace SpacePartition

variable {R : Type} {S : Space R} {ι κ α : Type}

namespace Branch

variable {β : Type} {b : Branch} {x y : β}

def flip : Branch → Branch
  | plus  => minus
  | minus => plus

def side : Branch → Side
  | plus  => .plus
  | minus => .minus

@[simp]
theorem flip_ne : b.flip ≠ b := by
  cases b <;> nofun

theorem eq_or_eq_flip (b b' : Branch) : b' = b ∨ b' = b.flip := by
  cases b <;> cases b' <;> simp [flip]

theorem pick_flip : b.flip.pick x y = b.pick y x := by
  cases b <;> rfl

theorem apply_pick {γ : Type} (f : β → γ) : f (b.pick x y) = b.pick (f x) (f y) := by
  cases b <;> rfl

end Branch

theorem Parts.side_eq {parts : Parts α} {b : Branch} :
    parts.side = b.side ↔ (∃ part, parts.on b = some part) ∧ parts.on b.flip = none := by
  obtain ⟨_ | _, _ | _⟩ := parts <;> cases b <;>
    simp [Parts.side, Parts.on, Branch.side, Branch.flip]

theorem Parts.side_eq_both {parts : Parts α} :
    parts.side = .both ↔ ∃ f : Branch → α, ∀ b, parts.on b = some (f b) := by
  have ⟨p, m⟩ := parts
  constructor
  case mp =>
    intro h
    cases p <;> cases m <;> cases h
    exact ⟨fun b => b.pick _ _, fun | .plus => rfl | .minus => rfl⟩
  case mpr =>
    intro ⟨_, h⟩
    cases h .plus
    cases h .minus
    rfl

theorem Parts.side_eq_within {parts : Parts α} :
    parts.side = .within ↔ ∀ b, parts.on b = none := by
  obtain ⟨_ | _, _ | _⟩ := parts <;> simp only [Parts.side, reduceCtorEq, false_iff, true_iff]
  case none.none => exact fun b => by cases b <;> rfl
  case none.some => exact fun h => nomatch h .minus
  all_goals exact fun h => nomatch h .plus

-- The sides of the hyperplanes on which a point lies.
abbrev Outlook (S : Space R) :=
  S.Hyperplane → Branch

-- The outlook of a point by the signs of its offsets. A hyperplane belongs to its minus side.
def Space.outlook [Scalar R] (S : Space R) (p : S.Point) : Outlook S :=
  fun h => if S.offset h p ≤ 0 then .minus else .plus

theorem Space.heading_eq_outlook [Scalar R] (S : Space R) {h : S.Hyperplane} {tolerance : R}
    {p : S.Point} (hd : ¬Scalar.abs (S.offset h p) < tolerance) :
    S.heading h tolerance p = some (S.outlook p h) := by
  simp only [heading, hd, if_false, outlook]
  split <;> rfl

def Halves.on (h : Halves S ι α) (b : Branch) : Node S ι α :=
  b.pick h.plus h.minus

namespace Node

variable {look : Outlook S}

def verdict (look : Outlook S) : Node S ι α → Option α
  | leaf _ a       => a
  | fork _ _ c p m => (look (S.hyperplane c)).pick (p.verdict look) (m.verdict look)

theorem verdict_fork {i : ι} {a : Option α} {c : S.Sub} {p m : Node S ι α} :
    (fork i a c p m).verdict look = ((look (S.hyperplane c)).pick p m).verdict look :=
  Branch.apply_pick _ |>.symm

@[simp]
theorem verdict_condense [DecidableEq α] {n : Node S ι α} :
    n.condense.verdict look = n.verdict look := by
  fun_cases condense n
  case case1 _ _ c _ _ _ => cases h : look (S.hyperplane c) <;> simp [verdict, h, Branch.pick]
  all_goals rfl

@[simp]
theorem verdict_relabel {f : ι → κ} {n : Node S ι α} :
    (n.relabel f).verdict look = n.verdict look := by
  induction n <;> simp_all [relabel, verdict]

@[simp]
theorem verdict_number {k} {n : Node S ι α} : (n.number k).verdict look = n.verdict look := by
  induction n generalizing k <;> simp_all [number, verdict]

@[simp]
theorem verdict_clearForks {n : Node S ι α} : n.clearForks.verdict look = n.verdict look := by
  induction n <;> simp_all [clearForks, verdict]

@[simp]
theorem verdict_simplify [DecidableEq α] {n : Node S ι α} :
    n.simplify.verdict look = n.verdict look := by
  induction n <;> simp_all [simplify, verdict]

-- Whether the leaf that is reached lies inside.
def holds (look : Outlook S) (n : Node S ι Bool) : Bool :=
  n.verdict look == some true

theorem holds_leaf {i : ι} {a : Option Bool} : (leaf (S := S) i a).holds look = (a == some true) :=
  rfl

theorem holds_fork {i : ι} {a : Option Bool} {c : S.Sub} {p m : Node S ι Bool} :
    (fork i a c p m).holds look = ((look (S.hyperplane c)).pick p m).holds look := by
  rw [holds, verdict_fork, holds]

@[simp]
theorem holds_relabel {f : ι → κ} {n : Node S ι Bool} :
    (n.relabel f).holds look = n.holds look := by
  rw [holds, verdict_relabel, holds]

@[simp]
theorem holds_number {k} {n : Node S ι Bool} : (n.number k).holds look = n.holds look := by
  rw [holds, verdict_number, holds]

@[simp]
theorem holds_clearForks {n : Node S ι Bool} : n.clearForks.holds look = n.holds look := by
  rw [holds, verdict_clearForks, holds]

@[simp]
theorem holds_simplify {n : Node S ι Bool} : n.simplify.holds look = n.holds look := by
  rw [holds, verdict_simplify, holds]

@[simp]
theorem holds_condense {n : Node S ι Bool} : n.condense.holds look = n.holds look := by
  rw [holds, verdict_condense, holds]

theorem holds_complement {n : Node S ι Bool} : n.complement.holds look = !n.holds look := by
  induction n
  case leaf a => rcases a with _ | _ | _ <;> rfl
  case fork c _ _ hp hm =>
    simp only [holds, complement, verdict] at hp hm ⊢
    cases look (S.hyperplane c)
    case plus  => exact hp
    case minus => exact hm

theorem at?_cons {i : ι} {a : Option α} {c : S.Sub} {p m : Node S ι α} {b : Branch} {path : Path} :
    (fork i a c p m).at? (b :: path) = (b.pick p m).at? path := by
  cases b <;> rfl

section Descend

variable [Scalar R] {tolerance : R} {x : S.Point} {i : ι} {a : Option α} {c : S.Sub} {b : Branch}
variable {p m : Node S ι α}

theorem cellOf_fork (hb : S.heading (S.hyperplane c) tolerance x = some b) :
    (fork i a c p m).cellOf x tolerance = (b.pick p m).cellOf x tolerance := by
  rw [cellOf, hb]
  cases b <;> rfl

theorem descend_fork (hb : S.heading (S.hyperplane c) tolerance x = some b) :
    (fork i a c p m).descend x tolerance = b :: (b.pick p m).descend x tolerance := by
  rw [descend, hb]
  cases b <;> rfl

end Descend

-- A descent that stops at no cut ends in a leaf. It goes by the signs of the offsets alone.
theorem cellOf_eq_leaf [Scalar R] (h : ∀ x : R, ¬Scalar.abs x < 0) (p : S.Point) (n : Node S ι α) :
    ∃ i, n.cellOf p 0 = leaf i (n.verdict (S.outlook p)) := by
  induction n
  case leaf i t => exact ⟨i, rfl⟩
  case fork c _ _ hp hm =>
    rw [cellOf_fork <| S.heading_eq_outlook <| h _, verdict_fork]
    cases S.outlook p (S.hyperplane c)
    case plus  => exact hp
    case minus => exact hm

theorem attr_cellOf [Scalar R] (h : ∀ x : R, ¬Scalar.abs x < 0) (p : S.Point) (n : Node S ι α) :
    (n.cellOf p 0).attr = n.verdict (S.outlook p) := by
  have ⟨i, hi⟩ := n.cellOf_eq_leaf h p
  rw [hi, attr]

end Node

namespace Region

variable [Scalar R]

-- Whether the leaf is inside to which the signs of the offsets lead from the root.
def covers (r : Region S) (p : S.Point) : Bool :=
  (r.tree.root.cellOf p 0).isInside

theorem covers_eq (h : ∀ x : R, ¬Scalar.abs x < 0) (r : Region S) (p : S.Point) :
    r.covers p = r.tree.root.holds (S.outlook p) := by
  rw [covers, Node.isInside, Node.attr_cellOf h, Node.holds]

end Region
end SpacePartition
