import SpacePartition.Proofs.Node.Layout
import SpacePartition.Tree.Basic

/-!
The normal form of a partition. Simplifying leaves no fork between leaves of one attribute; what is
left of the partition says of every point what the whole of it said, next to a lost cut too.
-/

namespace SpacePartition

variable {R : Type} {S : Space R} {ι κ α : Type}

namespace Node

variable {n p m l r : Node S ι α} {i : ι} {a : Option α} {c : S.Sub} {path : Path} {k : Nat}

-- Whether a fork between two nodes partitions nothing.
def Idle (p m : Node S ι α) : Prop :=
  p.isLeaf ∧ m.isLeaf ∧ p.attr = m.attr

def Condensed : Node S ι α → Prop
  | leaf ..        => True
  | fork _ _ _ p m => p.Condensed ∧ m.Condensed ∧ ¬p.Idle m

section Condense

variable [DecidableEq α]

theorem condense_of_idle (h : p.Idle m) : (fork i a c p m).condense = leaf i p.attr := by
  obtain ⟨hp, hm, ha⟩ := h
  cases p <;> cases hp
  cases m <;> cases hm
  exact if_pos ha

theorem condense_of_not_idle (h : ¬p.Idle m) : (fork i a c p m).condense = fork i a c p m := by
  cases p
  case fork => rfl
  case leaf =>
    cases m
    case fork => rfl
    case leaf => exact if_neg fun ha => h ⟨rfl, rfl, ha⟩

theorem condensed_condense (hp : p.Condensed) (hm : m.Condensed) :
    (fork i a c p m).condense.Condensed := by
  by_cases h : p.Idle m
  case pos => rw [condense_of_idle h]; trivial
  case neg => rw [condense_of_not_idle h]; exact ⟨hp, hm, h⟩

theorem condensed_simplify (n : Node S ι α) : n.simplify.Condensed := by
  induction n
  case leaf           => trivial
  case fork hp hm     => exact condensed_condense hp hm

theorem Condensed.simplify_eq (h : n.Condensed) : n.simplify = n := by
  induction n
  case leaf => rfl
  case fork hp hm =>
    obtain ⟨cp, cm, hn⟩ := h
    rw [simplify, hp cp, hm cm, condense_of_not_idle hn]

theorem simplify_simplify (n : Node S ι α) : n.simplify.simplify = n.simplify :=
  n.condensed_simplify.simplify_eq

theorem simplify_condense (n : Node S ι α) : n.condense.simplify = n.simplify := by
  fun_cases condense n
  case case1 => simp [simplify, condense]
  all_goals rfl

-- A fork that is left has been at its place before.
theorem at?_condense (h : n.condense.at? path = some (fork i a c l r)) :
    n.at? path = some (fork i a c l r) := by
  cases n
  case leaf => exact h
  case fork p m =>
    by_cases hi : p.Idle m
    case pos =>
      rw [condense_of_idle hi] at h
      cases path <;> cases h
    case neg => rwa [condense_of_not_idle hi] at h

theorem at?_simplify (h : n.simplify.at? path = some (fork i a c l r)) :
    ∃ l' r', n.at? path = some (fork i a c l' r') := by
  induction n generalizing path
  case leaf => cases path <;> cases h
  case fork hp hm =>
    have h := at?_condense h
    rcases path with _ | ⟨_ | _, path⟩
    case nil        => cases h; exact ⟨_, _, rfl⟩
    case cons.plus  => exact hp h
    case cons.minus => exact hm h

end Condense

section Number

theorem isLeaf_number : (n.number k).isLeaf = n.isLeaf := by
  cases n <;> rfl

theorem attr_number : (n.number k).attr = n.attr := by
  cases n <;> rfl

theorem condensed_number : (n.number k).Condensed ↔ n.Condensed := by
  induction n generalizing k <;> simp_all [number, Condensed, Idle, isLeaf_number, attr_number]

theorem number_number {k' : Nat} : (n.number k).number k' = n.number k' := by
  induction n generalizing k k' <;> simp_all [number]

theorem at?_number {j : Nat} {l r : Node S Nat α}
    (h : (n.number k).at? path = some (fork j a c l r)) :
    ∃ i l' r', n.at? path = some (fork i a c l' r') := by
  induction n generalizing k path
  case leaf => cases path <;> cases h
  case fork hp hm =>
    rcases path with _ | ⟨_ | _, path⟩
    case nil        => cases h; exact ⟨_, _, _, rfl⟩
    case cons.plus  => exact hp h
    case cons.minus => exact hm h

end Number

section Check

variable [Scalar R] {tolerance : R} {x : S.Point} {n p m : Node S ι Bool} {a : Option Bool}

theorem check_of_isLeaf (h : n.isLeaf) :
    n.check tolerance x = if n.attr == some true then .inside else .outside := by
  cases n <;> cases h
  rfl

-- A cut between two leaves of one attribute says nothing of a point, as long as it can be told how
-- far off the point is.
theorem check_condense_fork (hc : Scalar.isNaN (S.offset (S.hyperplane c) x) = false) :
    (fork i a c p m).condense.check tolerance x = (fork i a c p m).check tolerance x := by
  by_cases hi : p.Idle m
  case neg => rw [condense_of_not_idle hi]
  case pos =>
    have ⟨hp, hm, ha⟩ := hi
    have hs : m.check tolerance x = p.check tolerance x := by
      rw [check_of_isLeaf hp, check_of_isLeaf hm, ha]
    calc (fork i a c p m).condense.check tolerance x
        = (leaf i p.attr).check tolerance x := by rw [condense_of_idle hi]
      _ = p.check tolerance x := (check_of_isLeaf hp).symm
      _ = (fork i a c p m).check tolerance x := by simp [check, hc, hs, Location.join]

theorem check_simplify (h : ∀ s ∈ n.cuts, Scalar.isNaN (S.offset (S.hyperplane s) x) = false) :
    n.simplify.check tolerance x = n.check tolerance x := by
  induction n
  case leaf => rfl
  case fork hp hm =>
    obtain ⟨hc, cp, cm⟩ := forall_cuts_fork.mp h
    rw [simplify, check_condense_fork hc, check, check, hp cp, hm cm]

@[simp]
theorem check_number : (n.number k).check tolerance x = n.check tolerance x := by
  induction n generalizing k <;> simp_all [number, check]

end Check

end Node
end SpacePartition
