import Mathlib.Algebra.Order.Field.Rat
import SpacePartition.Proofs.Node.Pure
import SpacePartition.Proofs.Region.Itself
import SpacePartition.Tree.Merge

/-!
Partitions of the line whose cuts have their places below each other. Such a partition is fitted
without a change, so that a merge that always keeps it brings it back, out of the pieces of whatever
it is merged with.
-/

namespace SpacePartition

variable {R : Type} {S : Space R} {ι κ α : Type}

namespace Node

-- Whether every cut lies on its own side of each cut above it.
def Settled : Cell S → Node S ι α → Prop
  | _, leaf ..            => True
  | cell, fork _ _ c p m =>
    (∀ wall ∈ cell, (S.split c (S.hyperplane wall.cut)).side = wall.side.side) ∧
    p.Settled (⟨c, .plus⟩ :: cell) ∧ m.Settled (⟨c, .minus⟩ :: cell)

instance decidableSettled : (cell : Cell S) → (n : Node S ι α) → Decidable (n.Settled cell)
  | _, leaf ..            => isTrue trivial
  | cell, fork _ _ c p m =>
    have := decidableSettled (⟨c, .plus⟩ :: cell) p
    have := decidableSettled (⟨c, .minus⟩ :: cell) m
    inferInstanceAs (Decidable (_ ∧ _ ∧ _))

section Refit

variable [DecidableEq α]

theorem refit_condense {cell : Cell S} {i a c} {p m : Node S ι α}
    (hc : cell.fit (S.whole (S.hyperplane c)) = some c) :
    (fork i a c p m).condense.refit cell = (fork i a c p m).condense := by
  by_cases h : p.Idle m
  case pos => rw [condense_of_idle h, refit]
  case neg => rw [condense_of_not_idle h, refit, hc, Option.getD_some]

end Refit

section Line

variable [Scalar R] {cell walls : Cell (line R)} {wall : Wall (line R)} {n o : Node (line R) ι α}
variable {s : OrientedPoint R}

-- A cut on the side of a wall is all that the wall leaves of it there.
theorem split_on_side (h : (s.split wall.cut).side = wall.side.side) :
    (s.split wall.cut).on wall.side = some s := by
  obtain ⟨⟨part, hp⟩, -⟩ := Parts.side_eq.mp h
  exact OrientedPoint.part_eq hp ▸ hp

theorem fit_of_side (h : ∀ wall ∈ walls, (s.split wall.cut).side = wall.side.side) :
    walls.fit s = some s := by
  induction walls
  case nil => rfl
  case cons ih =>
    obtain ⟨hs, h⟩ := List.forall_mem_cons.mp h
    exact Option.bind_eq_some_iff.mpr ⟨s, split_on_side hs, ih h⟩

theorem Settled.chop (hn : n.Settled cell) (hw : wall ∈ cell) (cell' : Cell (line R)) :
    n.chop .refuse wall.cut wall.side cell' = .ok n := by
  induction n generalizing cell cell'
  case leaf => rfl
  case fork c p m hp hm =>
    obtain ⟨hc, sp, sm⟩ := hn
    have hs : (c.split wall.cut).on wall.side = some c := split_on_side (hc wall hw)
    simp only [Node.chop, hp sp (List.mem_cons_of_mem _ hw), hm sm (List.mem_cons_of_mem _ hw),
      Except.bind_eq_ok, hs]
    exact ⟨p, rfl, m, rfl, rfl⟩

theorem Settled.chopAll (hn : n.Settled cell) (hw : walls ⊆ cell) (cell' : Cell (line R)) :
    n.chopAll .refuse cell' walls = .ok n := by
  induction walls
  case nil => rfl
  case cons ih =>
    obtain ⟨hw, hws⟩ := List.cons_subset.mp hw
    rw [Node.chopAll, hn.chop hw, Except.bind_eq_ok]
    refine ⟨n, rfl, ?_⟩
    cases n
    case leaf => rfl
    case fork => exact ih hws

variable [DecidableEq α]

theorem Settled.insertIn (hn : n.Settled cell) : n.insertIn .refuse cell = .ok n.condense :=
  Except.map_eq_ok.mpr ⟨n, hn.chopAll (List.Subset.refl _) cell, rfl⟩

-- The induction is on the partition that is kept. What comes out is condensed here and there.
theorem Settled.merge [Inhabited ι] (hn : n.Settled cell) : ∃ r,
    n.merge (fun e => e.ours.insertIn .refuse e.cell) cell o = .ok r ∧
      r.simplify.Alike n.simplify := by
  induction n generalizing cell o
  case leaf i a => exact ⟨leaf i a, insertIn_leaf _, alike_refl _⟩
  case fork i a c p m hp hm =>
    cases o
    case leaf =>
      refine ⟨_, hn.insertIn, ?_⟩
      rw [simplify_condense]
      exact alike_refl _
    case fork j b d q l =>
      obtain ⟨hc, sp, sm⟩ := hn
      set h := (fork j b d q l).split c
      obtain ⟨p', hp', ap⟩ := hp (o := h.plus) sp
      obtain ⟨m', hm', am⟩ := hm (o := h.minus) sm
      refine ⟨(fork h.id h.attr c p' m').condense, ?merge, ?alike⟩
      case merge =>
        simp only [Node.merge, Except.bind_eq_ok]
        exact ⟨p', hp', m', hm', congrArg Except.ok <| refit_condense <| fit_of_side hc⟩
      case alike =>
        rw [simplify_condense]
        exact Alike.condense ⟨rfl, ap, am⟩

end Line
end Node

-- No handler is asked for anything in a merge that always keeps the node of the instance, which
-- ends with the instance up to what simplifying takes away.
theorem Tree.merge_keeping_instance [Scalar R] [DecidableEq α] {t : Tree (line R) α}
    (ht : t.root.Settled []) (u : Tree (line R) α) :
    ∃ r : Tree (line R) α,
      (∀ (m : Type → Type) [Monad m] [LawfulMonad m]
        (vanish : Encounter (line R) Nat α → Handler (line R) Nat α m),
        t.merge (fun e => e.ours.insertIn (vanish e) e.cell) u = pure r) ∧
      r.simplify.root.Alike t.simplify.root := by
  obtain ⟨n, hn, ha⟩ := ht.merge (o := u.root.relabel (t.capacity + ·))
  refine ⟨ofNode n, fun m _ _ vanish => ?merge, ?alike⟩
  case merge =>
    rw [Tree.merge, Node.merge_eq_pure (fun e k hk => Node.insertIn_eq_pure hk (vanish e)) hn,
      map_pure]
  case alike =>
    have hr : (n.number 0).simplify.Alike t.root.simplify :=
      (Node.alike_number.mpr <| Node.alike_refl n).simplify.trans ha
    exact Node.alike_number.mpr (Node.alike_number.mpr hr.symm).symm

-- The instance has a needless cut, a leaf without attribute and cuts of both directions; the cuts
-- of the argument contradict each other and have tolerances of their own.
theorem Tree.merge_keeping_instance_of_needless_cut :
    let cut (x : ℚ) (direct : Bool) (t : ℚ) : OrientedPoint (Exact ℚ) :=
      ⟨.finite x, direct, .finite t⟩
    let t : Tree (line (Exact ℚ)) Nat := ⟨.fork 6 none (cut 0 true 1)
      (.fork 2 (some 9) (cut 5 true 1) (.leaf 0 (some 1)) (.leaf 1 (some 1)))
      (.fork 5 none (cut (-4) false 1) (.leaf 3 (some 2)) (.leaf 4 none)), 7⟩
    let u : Tree (line (Exact ℚ)) Nat := ⟨.fork 4 none (cut 3 true 7)
      (.fork 2 none (cut (-10) true 0) (.leaf 0 (some 3)) (.leaf 1 (some 4))) (.leaf 3 none), 5⟩
    t.root.Settled [] ∧ ∃ r : Tree (line (Exact ℚ)) Nat,
      (∀ (m : Type → Type) [Monad m] [LawfulMonad m]
        (vanish : Encounter (line (Exact ℚ)) Nat Nat → Handler (line (Exact ℚ)) Nat Nat m),
        t.merge (fun e => e.ours.insertIn (vanish e) e.cell) u = pure r) ∧
      r.simplify.root.Alike t.simplify.root := by
  intro cut t u
  have ht : t.root.Settled [] := by decide +kernel
  exact ⟨ht, Tree.merge_keeping_instance ht u⟩

end SpacePartition
