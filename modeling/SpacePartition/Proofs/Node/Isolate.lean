import Mathlib.Data.List.Infix
import SpacePartition.Proofs.Arena.Extract

/-!
Partitions that tell a node from the rest. Only the cuts on the way to the node are kept, and a
point is led along the way for as long as it was before.
-/

namespace SpacePartition

variable {R : Type} {S : Space R} {ι α : Type}

namespace Node

variable {n m k l r : Node S ι α} {up down path : Path} {i : ι} {t : Option α} {c : S.Sub}
variable {b : Branch}

section Descend

variable [Scalar R] {x : S.Point} {tolerance : R}

theorem descend_eq_nil : (fork i t c l r).descend x tolerance = [] ↔
    S.heading (S.hyperplane c) tolerance x = none := by
  rw [descend]
  split <;> simp_all

theorem cons_prefix_descend : b :: path <+: (fork i t c l r).descend x tolerance ↔
    S.heading (S.hyperplane c) tolerance x = some b ∧
      path <+: (b.pick l r).descend x tolerance := by
  rw [descend]
  split <;> cases b <;> simp_all [Branch.pick]

-- A descent that gets to a node goes on as one that starts there.
theorem descend_eq_append (h : n.at? up = some k) (hu : up <+: n.descend x tolerance) :
    n.descend x tolerance = up ++ k.descend x tolerance := by
  induction up generalizing n
  case nil => cases h; rfl
  case cons b up ih =>
    cases n
    case leaf => cases h
    case fork =>
      obtain ⟨hb, hu⟩ := cons_prefix_descend.mp hu
      rw [descend_fork hb, ih (at?_cons ▸ h) hu]
      rfl

theorem append_prefix_descend (h : n.at? up = some k) : up ++ path <+: n.descend x tolerance ↔
    up <+: n.descend x tolerance ∧ path <+: k.descend x tolerance := by
  constructor
  case mp =>
    intro hp
    have hu := (List.prefix_append up path).trans hp
    exact ⟨hu, (List.prefix_append_right_inj up).mp <| descend_eq_append h hu ▸ hp⟩
  case mpr =>
    rintro ⟨hu, hp⟩
    rw [descend_eq_append h hu]
    exact (List.prefix_append_right_inj up).mpr hp

theorem descend_eq_iff (h : n.at? up = some k) : n.descend x tolerance = up ↔
    up <+: n.descend x tolerance ∧ k.descend x tolerance = [] := by
  constructor
  case mp =>
    intro hd
    have hu : up <+: n.descend x tolerance := hd ▸ List.prefix_rfl
    exact ⟨hu, by simpa [hd] using descend_eq_append h hu⟩
  case mpr =>
    rintro ⟨hu, hk⟩
    rw [descend_eq_append h hu, hk, List.append_nil]

theorem descend_number {j : Nat} : (n.number j).descend x tolerance = n.descend x tolerance := by
  induction n generalizing j <;> simp_all [number, descend]

end Descend

theorem exists_at?_number {j : Nat} (h : n.at? path = some m) :
    ∃ j', (n.number j).at? path = some (m.number j') := by
  induction path generalizing n j
  case nil => cases h; exact ⟨j, rfl⟩
  case cons b path ih =>
    rcases n with _ | ⟨_, _, _, l, r⟩
    case leaf => cases h
    case fork =>
      rw [number]
      cases b
      case plus  => exact ih (n := l) h
      case minus => exact ih (n := r) h

-- Keeps the forks on a path, with leaves on their other sides and at the end of the path.
def prune (attr rest inner : Option α) : Path → Node S ι α → Node S Unit α
  | b :: path, fork _ _ c l r =>
    forkOn () inner c b ((b.pick l r).prune attr rest inner path) (leaf () rest)
  | _, _ => leaf () attr

variable {attr rest inner : Option α}

theorem prune_cons : (fork i t c l r).prune attr rest inner (b :: path) =
    forkOn () inner c b ((b.pick l r).prune attr rest inner path) (leaf () rest) :=
  rfl

theorem prune_nil : n.prune attr rest inner [] = leaf () attr := by
  cases n <;> rfl

theorem size_prune (h : n.at? path = some m) :
    (n.prune attr rest inner path).size = 2 * path.length + 1 := by
  induction path generalizing n
  case nil => rw [prune_nil]; rfl
  case cons b path ih =>
    cases n
    case leaf => cases h
    case fork =>
      have hs := ih (at?_cons ▸ h)
      rw [prune_cons, List.length_cons]
      cases b <;> simp only [forkOn, Branch.pick, size] at hs ⊢ <;> omega

-- What is below a node on the path is pruned as the node would be.
theorem at?_prune (h : n.at? up = some k) :
    (n.prune attr rest inner (up ++ down)).at? up = some (k.prune attr rest inner down) := by
  induction up generalizing n
  case nil => cases h; rfl
  case cons b up ih =>
    cases n
    case leaf => cases h
    case fork =>
      rw [List.cons_append, prune_cons, forkOn, at?_cons]
      have := ih (at?_cons ▸ h)
      cases b <;> exact this

section Descend

variable [Scalar R] {x : S.Point} {tolerance : R}

theorem prefix_descend_prune (h : n.at? up = some k) :
    up <+: (n.prune attr rest inner (up ++ down)).descend x tolerance ↔
      up <+: n.descend x tolerance := by
  induction up generalizing n
  case nil => simp
  case cons b up ih =>
    cases n
    case leaf => cases h
    case fork =>
      rw [List.cons_append, prune_cons, forkOn, cons_prefix_descend, cons_prefix_descend]
      refine and_congr_right fun _ => ?_
      have := ih (at?_cons ▸ h)
      cases b <;> exact this

-- A point is led to the end of the path if it was led there before, wherever it was led from there.
theorem descend_prune_eq_path (h : n.at? path = some m) :
    (n.prune attr rest inner path).descend x tolerance = path ↔ path <+: n.descend x tolerance := by
  have hk : (n.prune attr rest inner (path ++ [])).at? path = some (leaf () attr) :=
    (at?_prune h).trans <| congrArg some prune_nil
  have hp : path <+: (n.prune attr rest inner (path ++ [])).descend x tolerance ↔ _ :=
    prefix_descend_prune h
  rw [List.append_nil] at hk hp
  exact (descend_eq_iff hk).trans <| (and_iff_left rfl).trans hp

-- A point is kept at a fork on the path if it was kept there before.
theorem descend_prune_eq_up (h : n.at? up = some (fork i t c l r)) :
    (n.prune attr rest inner (up ++ b :: down)).descend x tolerance = up ↔
      n.descend x tolerance = up := by
  rw [descend_eq_iff (at?_prune h), descend_eq_iff h, prefix_descend_prune h, prune_cons, forkOn,
    descend_eq_nil, descend_eq_nil]

-- A point is led off the path where it was led off before.
theorem descend_prune_eq_off (h : n.at? up = some (fork i t c l r)) :
    (n.prune attr rest inner (up ++ b :: down)).descend x tolerance = up ++ [b.flip] ↔
      up ++ [b.flip] <+: n.descend x tolerance := by
  have hk : (n.prune attr rest inner (up ++ b :: down)).at? up = _ := at?_prune h
  have hoff :
      (n.prune attr rest inner (up ++ b :: down)).at? (up ++ [b.flip]) = some (leaf () rest) := by
    rw [at?_append, hk, prune_cons]
    cases b <;> rfl
  rw [descend_eq_iff hoff, append_prefix_descend hk, append_prefix_descend h,
    prefix_descend_prune h, prune_cons, forkOn, cons_prefix_descend, cons_prefix_descend]
  simp [descend]

end Descend

-- Puts a wall around a partition, with a leaf on its other side.
def around (rest inner : Option α) (near : Node S Unit α) (wall : Wall S) : Node S Unit α :=
  forkOn () inner wall.cut wall.side near (leaf () rest)

-- The walls of a cell, put around a leaf one after the other, are the cuts on the way to the cell.
theorem foldl_around {cell cell' : Cell S} (h : n.locateIn cell path = some (cell', m)) :
    cell'.foldl (around rest inner) (leaf () attr) =
      cell.foldl (around rest inner) (n.prune attr rest inner path) := by
  fun_induction locateIn cell path n
  case case1    => cases h; rw [prune_nil]
  case case2    => cases h
  case case3 ih => exact ih h
  case case4 ih => exact ih h

end Node

namespace Tree

theorem isolate_eq_around {cell : Cell S} {attr rest inner : Option α} :
    isolate attr rest inner cell = ofNode (cell.foldl (.around rest inner) (.leaf () attr)) := by
  have hl : leaf attr = ofNode (.leaf () attr : Node S Unit α) := rfl
  rw [isolate, hl]
  generalize Node.leaf () attr = near
  induction cell generalizing near
  case nil => rfl
  case cons wall cell ih =>
    rw [List.foldl_cons, List.foldl_cons, ← ih]
    obtain ⟨cut, _ | _⟩ := wall
    case plus  => exact congrArg (List.foldl _ · cell) <| ofParts_ofNode (r := .leaf () rest)
    case minus => exact congrArg (List.foldl _ · cell) <| ofParts_ofNode (l := .leaf () rest)

theorem isolate_eq_prune {n m : Node S ι α} {cell : Cell S} {path : Path}
    {attr rest inner : Option α} (h : n.locate path = some (cell, m)) :
    isolate attr rest inner cell = ofNode (n.prune attr rest inner path) :=
  isolate_eq_around.trans <| congrArg ofNode <| Node.foldl_around h

end Tree
end SpacePartition
