import Mathlib.Algebra.Order.Field.Rat
import SpacePartition.Line.Basic
import SpacePartition.Proofs.Node.Layout
import SpacePartition.Proofs.Region.Location
import SpacePartition.Proofs.Scalar.Orderly

/-!
The leaves where a point is looked up. From a cut that the point is clear of only the side of the
point is looked at, and from a cut close to it both sides are. The location of the point sums up the
leaves that are found that way.
-/

namespace SpacePartition

variable {R : Type} [Scalar R] {S : Space R} {ι α : Type}

-- Whether a point is looked up on a side of a hyperplane.
def Space.Admits (S : Space R) (h : S.Hyperplane) (tolerance : R) (x : S.Point) (b : Branch) :
    Prop :=
  tolerance ≤ Scalar.abs (S.offset h x) → b = S.outlook x h

namespace Node

-- Whether the point has no offset from the cut of a fork.
def Undecided (x : S.Point) : Node S ι α → Prop
  | leaf ..        => False
  | fork _ _ c _ _ => Scalar.isNaN (S.offset (S.hyperplane c) x)

instance (x : S.Point) : (n : Node S ι α) → Decidable (n.Undecided x)
  | leaf ..        => inferInstanceAs (Decidable False)
  | fork _ _ c _ _ => inferInstanceAs (Decidable (Scalar.isNaN (S.offset (S.hyperplane c) x)))

inductive Reaches (tolerance : R) (x : S.Point) : Node S ι α → Node S ι α → Prop
  | self {n : Node S ι α} : Reaches tolerance x n n
  | side {i a c b} {p m k : Node S ι α} :
    Scalar.isNaN (S.offset (S.hyperplane c) x) = false →
    S.Admits (S.hyperplane c) tolerance x b →
    Reaches tolerance x (b.pick p m) k →
    Reaches tolerance x (fork i a c p m) k

-- The leaves where a point is looked up.
def found (tolerance : R) (x : S.Point) (n : Node S ι α) : Set (Node S ι α) :=
  {k | n.Reaches tolerance x k ∧ k.isLeaf}

variable {tolerance : R} {x : S.Point} {i : ι} {c : S.Sub} {b : Branch}

section Reaches

variable {a : Option α} {n p m k : Node S ι α}

theorem reaches_leaf : (leaf i a).Reaches tolerance x k ↔ k = leaf i a := by
  constructor
  case mp  => rintro ⟨⟩; rfl
  case mpr => rintro rfl; exact .self

variable (hn : Scalar.isNaN (S.offset (S.hyperplane c) x) = false)

include hn

theorem reaches_fork : (fork i a c p m).Reaches tolerance x k ↔
    k = fork i a c p m ∨ ∃ b, S.Admits (S.hyperplane c) tolerance x b ∧
      (b.pick p m).Reaches tolerance x k := by
  constructor
  case mp =>
    rintro (_ | ⟨-, hb, hk⟩)
    case self => exact .inl rfl
    case side => exact .inr ⟨_, hb, hk⟩
  case mpr =>
    rintro (rfl | ⟨b, hb, hk⟩)
    case inl => exact .self
    case inr => exact .side hn hb hk

theorem reaches_beyond (h : tolerance ≤ Scalar.abs (S.offset (S.hyperplane c) x)) :
    (fork i a c p m).Reaches tolerance x k ↔
      k = fork i a c p m ∨ ((S.outlook x (S.hyperplane c)).pick p m).Reaches tolerance x k := by
  simp [reaches_fork hn, Space.Admits, h]

theorem reaches_near (h : ¬tolerance ≤ Scalar.abs (S.offset (S.hyperplane c) x)) :
    (fork i a c p m).Reaches tolerance x k ↔
      k = fork i a c p m ∨ p.Reaches tolerance x k ∨ m.Reaches tolerance x k := by
  have hb {Q : Branch → Prop} : (∃ b, Q b) ↔ Q .plus ∨ Q .minus :=
    ⟨fun ⟨b, h⟩ => by cases b <;> simp [h], fun h => h.elim (⟨_, ·⟩) (⟨_, ·⟩)⟩
  simp [reaches_fork hn, Space.Admits, h, hb, Branch.pick]

theorem found_beyond (h : tolerance ≤ Scalar.abs (S.offset (S.hyperplane c) x)) :
    (fork i a c p m).found tolerance x =
      ((S.outlook x (S.hyperplane c)).pick p m).found tolerance x := by
  ext k
  simp only [found, Set.mem_ofPred_eq, reaches_beyond hn h]
  cases k <;> simp [isLeaf]

theorem found_near (h : ¬tolerance ≤ Scalar.abs (S.offset (S.hyperplane c) x)) :
    (fork i a c p m).found tolerance x = m.found tolerance x ∪ p.found tolerance x := by
  ext k
  simp only [found, Set.mem_ofPred_eq, Set.mem_union, reaches_near hn h]
  cases k <;> simp [isLeaf, or_comm]

end Reaches

section Check

variable {a : Option Bool} {n p m : Node S ι Bool}

theorem check_leaf : (leaf (S := S) i a).check tolerance x = .ofInside (a == some true) :=
  rfl

theorem check_undecided (h : n.Undecided x) : n.check tolerance x = .undefined := by
  cases n
  case leaf => exact h.elim
  case fork => exact if_pos h

section Fork

variable (hn : Scalar.isNaN (S.offset (S.hyperplane c) x) = false)

include hn

theorem check_beyond (h : tolerance ≤ Scalar.abs (S.offset (S.hyperplane c) x)) :
    (fork i a c p m).check tolerance x =
      ((S.outlook x (S.hyperplane c)).pick p m).check tolerance x := by
  simp only [check, hn, h, Bool.false_eq_true, if_false, if_true, Space.outlook]
  split <;> rfl

theorem check_near (h : ¬tolerance ≤ Scalar.abs (S.offset (S.hyperplane c) x)) :
    (fork i a c p m).check tolerance x = (m.check tolerance x).join (p.check tolerance x) := by
  simp only [check, hn, h, Bool.false_eq_true, if_false]

end Fork

-- A point that no cut is close to is located by the leaf of its cell.
theorem check_of_clear (h : ∀ s ∈ n.cuts, Scalar.isNaN (S.offset (S.hyperplane s) x) = false ∧
    tolerance ≤ Scalar.abs (S.offset (S.hyperplane s) x)) :
    n.check tolerance x = .ofInside (n.holds (S.outlook x)) := by
  induction n
  case leaf => rfl
  case fork c _ _ hp hm =>
    obtain ⟨⟨hn, ht⟩, cp, cm⟩ := forall_cuts_fork.mp h
    rw [check_beyond hn ht, holds_fork]
    cases S.outlook x (S.hyperplane c)
    case plus  => exact hp cp
    case minus => exact hm cm

theorem check_eq_undefined_iff : n.check tolerance x = .undefined ↔
    ∃ k, n.Reaches tolerance x k ∧ k.Undecided x := by
  induction n
  case leaf i a =>
    simp only [reaches_leaf, exists_eq_left, Undecided, iff_false, check_leaf]
    cases a == some true <;> nofun
  case fork i a c p m hp hm =>
    by_cases hu : (fork i a c p m).Undecided x
    case pos => exact iff_of_true (check_undecided hu) ⟨_, .self, hu⟩
    case neg =>
      have hn : Scalar.isNaN (S.offset (S.hyperplane c) x) = false := Bool.eq_false_iff.mpr hu
      by_cases ht : tolerance ≤ Scalar.abs (S.offset (S.hyperplane c) x)
      case pos =>
        simp only [check_beyond hn ht, reaches_beyond hn ht, or_and_right, exists_or,
          exists_eq_left, hu, false_or]
        cases S.outlook x (S.hyperplane c)
        case plus  => exact hp
        case minus => exact hm
      case neg =>
        simp only [check_near hn ht, reaches_near hn ht, or_and_right, exists_or, exists_eq_left,
          hu, false_or, Location.join_eq_undefined, hp, hm, or_comm]

theorem sums_check (h : ∀ k, n.Reaches tolerance x k → ¬k.Undecided x) :
    (n.check tolerance x).Sums (n.found tolerance x) {k | k.isInside} := by
  induction n
  case leaf i a =>
    have hne : ((leaf i a).found (S := S) tolerance x).Nonempty := ⟨_, .self, rfl⟩
    refine (Location.sums_ofInside hne (a == some true)).congr fun k hk => ?_
    rw [reaches_leaf.mp hk.1]
    rfl
  case fork i a c p m hp hm =>
    have hn : Scalar.isNaN (S.offset (S.hyperplane c) x) = false :=
      Bool.eq_false_iff.mpr (h _ .self)
    by_cases ht : tolerance ≤ Scalar.abs (S.offset (S.hyperplane c) x)
    case pos =>
      have h k hk := h k <| (reaches_beyond hn ht).mpr (.inr hk)
      rw [check_beyond hn ht, found_beyond hn ht]
      cases ho : S.outlook x (S.hyperplane c) <;> rw [ho] at h
      case plus  => exact hp h
      case minus => exact hm h
    case neg =>
      have h k hk := h k <| (reaches_near hn ht).mpr (.inr hk)
      rw [check_near hn ht, found_near hn ht]
      exact (hm fun k hk => h k (.inr hk)).join (hp fun k hk => h k (.inl hk))

theorem check_complement : n.complement.check tolerance x = (n.check tolerance x).opposite := by
  induction n
  case leaf i a => rcases a with _ | _ | _ <;> rfl
  case fork i a c p m hp hm =>
    simp only [complement, check, hp, hm]
    split
    case isTrue  => rfl
    case isFalse =>
      split
      case isTrue  => split <;> rfl
      case isFalse => exact Location.opposite_join.symm

end Check

-- A descent that ends at a leaf is clear of all cuts on its way.
theorem check_of_cellOf [Scalar.Orderly R] [Scalar.Magnitudes R] {n : Node S ι Bool}
    (ht : Scalar.isNaN tolerance = false) (hl : (n.cellOf x tolerance).isLeaf)
    (hd : ∀ path k, path <+: n.descend x tolerance → n.at? path = some k → ¬k.Undecided x) :
    n.check tolerance x = .ofInside (n.cellOf x tolerance).isInside := by
  induction n
  case leaf => rfl
  case fork i a c p m hp hm =>
    have hn : Scalar.isNaN (S.offset (S.hyperplane c) x) = false :=
      Bool.eq_false_iff.mpr <| hd [] _ List.nil_prefix rfl
    have hc : ¬Scalar.abs (S.offset (S.hyperplane c) x) < tolerance := by
      intro h
      simp [cellOf, Space.heading, h, isLeaf] at hl
    have ha : tolerance ≤ Scalar.abs (S.offset (S.hyperplane c) x) :=
      Scalar.le_of_not_lt ht ((Scalar.Magnitudes.isNaN_abs _).trans hn) hc
    have hb := S.heading_eq_outlook hc
    rw [cellOf_fork hb] at hl ⊢
    rw [descend_fork hb] at hd
    have hd path k (hpath : path <+: _) (hk : _ = some k) :=
      hd (_ :: path) k ((List.prefix_cons_inj _).mpr hpath) (at?_cons.trans hk)
    rw [check_beyond hn ha]
    cases ho : S.outlook x (S.hyperplane c) <;> rw [ho] at hl hd
    case plus  => exact hp hl hd
    case minus => exact hm hl hd

end Node

namespace Region

-- A point is looked up at all nodes that can be reached from the root: it is undefined if it has no
-- offset from the cut of one of them, and its location sums up their leaves if it has all offsets.
-- The complement has the opposite location everywhere. Where the descent to the cell of a point
-- comes to a leaf, that leaf is the only one.
theorem check_reached [Scalar.Orderly R] [Scalar.Magnitudes R] (r : Region S) (x : S.Point) :
    (Coordinates.isNaN x → r.check x = .undefined) ∧
    (¬Coordinates.isNaN x →
      (r.check x = .undefined ↔ ∃ k, r.tree.root.Reaches r.tolerance x k ∧ k.Undecided x) ∧
      ((∀ k, r.tree.root.Reaches r.tolerance x k → ¬k.Undecided x) →
        (r.check x = .inside ↔
          ∀ k, r.tree.root.Reaches r.tolerance x k → k.isLeaf → k.isInside) ∧
        (r.check x = .outside ↔
          ∀ k, r.tree.root.Reaches r.tolerance x k → k.isLeaf → ¬k.isInside) ∧
        (r.check x = .boundary ↔
          (∃ k, r.tree.root.Reaches r.tolerance x k ∧ k.isLeaf ∧ k.isInside) ∧
          ∃ k, r.tree.root.Reaches r.tolerance x k ∧ k.isLeaf ∧ ¬k.isInside)) ∧
      (Scalar.isNaN r.tolerance = false → (r.tree.root.cellOf x r.tolerance).isLeaf →
        (∀ path k, path <+: r.tree.root.descend x r.tolerance → r.tree.root.at? path = some k →
          ¬k.Undecided x) →
        r.check x = if (r.tree.root.cellOf x r.tolerance).isInside then .inside else .outside)) ∧
    r.complement.check x = (r.check x).opposite := by
  refine ⟨fun hx => ?nan, fun hx => ?defined, ?complement⟩
  case nan => exact if_pos hx
  case complement =>
    by_cases hx : Coordinates.isNaN x
    case pos => simp only [check, hx, if_true, Location.opposite]
    case neg =>
      simp only [check, hx, Bool.false_eq_true, if_false, complement, Node.check_complement]
  case defined =>
    have hc : r.check x = r.tree.root.check r.tolerance x := if_neg hx
    rw [hc]
    refine ⟨Node.check_eq_undefined_iff, fun hd => ?leaves, fun ht hl hd => ?cell⟩
    case cell => exact Node.check_of_cellOf ht hl hd
    case leaves =>
      have hs := Node.sums_check hd
      refine ⟨hs.inside.trans ?_, hs.outside.trans ?_, hs.boundary.trans ?_⟩
      all_goals simp [Node.found, Set.subset_def, and_assoc]

-- The point at one quarter is close to two cuts, the one at three to none, and the one at infinity
-- has no offset from the cut there.
theorem check_reached_on_line :
    let cut (x : Exact ℚ) : OrientedPoint (Exact ℚ) := ⟨x, true, .finite 1⟩
    let root : Node (line (Exact ℚ)) Nat Bool :=
      .fork 6 none (cut 0) (.fork 5 none (cut (.finite (1 / 2)))
        (.fork 4 none (cut (.infinite true)) (.leaf 0 (some true)) (.leaf 1 (some true)))
        (.leaf 2 none)) (.leaf 3 (some false))
    let r : Region (line (Exact ℚ)) := ⟨⟨root, 7⟩, .finite 1⟩
    let quarter : Exact ℚ := .finite (1 / 4)
    let three : Exact ℚ := .finite 3
    r.check .undefined = .undefined ∧
    (∃ k, root.Reaches r.tolerance (.infinite true : Exact ℚ) k ∧
      k.Undecided (.infinite true : Exact ℚ)) ∧
    (∀ k, root.Reaches r.tolerance quarter k → ¬k.Undecided quarter) ∧
    (∃ k, root.Reaches r.tolerance quarter k ∧ k.isLeaf ∧ k.isInside) ∧
    (∃ k, root.Reaches r.tolerance quarter k ∧ k.isLeaf ∧ ¬k.isInside) ∧
    (root.cellOf three r.tolerance).isLeaf ∧
    (∀ path k, path <+: root.descend three r.tolerance → root.at? path = some k →
      ¬k.Undecided three) ∧
    r.check three = .inside ∧ r.complement.check three = .outside := by
  intro cut root r quarter three
  obtain ⟨-, hi, -⟩ := check_reached r (.infinite true : Exact ℚ)
  obtain ⟨hu, -⟩ := hi (by decide +kernel)
  obtain ⟨-, hq, -⟩ := check_reached r quarter
  obtain ⟨hqu, hql, -⟩ := hq (by decide +kernel)
  have hqd : ∀ k, root.Reaches r.tolerance quarter k → ¬k.Undecided quarter :=
    fun k hk hu => absurd (hqu.mpr ⟨k, hk, hu⟩) (by decide +kernel)
  obtain ⟨hin, hout⟩ := (hql hqd).2.2.mp (by decide +kernel)
  obtain ⟨-, ht, hc⟩ := check_reached r three
  have hd : ∀ path k, path <+: root.descend three r.tolerance → root.at? path = some k →
      ¬k.Undecided three := by
    have hdescend : root.descend three r.tolerance = [.plus, .plus, .minus] := by decide +kernel
    intro path k hpath hk
    rw [hdescend, ← List.mem_inits] at hpath
    simp only [List.inits, List.map_cons, List.map_nil, List.mem_cons, List.not_mem_nil,
      or_false] at hpath
    rcases hpath with rfl | rfl | rfl | rfl <;> cases hk <;> decide +kernel
  have hl : (root.cellOf three r.tolerance).isLeaf := by decide +kernel
  have h3 : r.check three = .inside :=
    ((ht (by decide +kernel)).2.2 (by decide +kernel) hl hd).trans (by decide +kernel)
  exact ⟨(check_reached r .undefined).1 (by decide +kernel), hu.mp (by decide +kernel),
    hqd, hin, hout, hl, hd, h3, hc.trans (by rw [h3]; rfl)⟩

end Region
end SpacePartition
