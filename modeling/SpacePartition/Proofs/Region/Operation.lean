import SpacePartition.Region.Algebra
import SpacePartition.Proofs.Node.Pure

/-!
The four boolean operations as one. They differ in the node that they keep where a leaf meets a
node, and in what becomes of a fork whose cut vanishes; all else they share.
-/

namespace SpacePartition

variable {R : Type} {S : Space R} {ι : Type}

inductive Operation
  | union
  | intersection
  | xor
  | difference
  deriving DecidableEq, Repr

namespace Operation

def holds : Operation → Bool → Bool → Bool
  | union, x, y        => x || y
  | intersection, x, y => x && y
  | xor, x, y          => x != y
  | difference, x, y   => x && !y

-- The node that takes the place of a leaf and the node that faces it.
def keep (e : Encounter S ι Bool) : Operation → Node S ι Bool
  | union        => if e.leaf.isInside then e.leaf else e.other
  | intersection => if e.leaf.isInside then e.other else e.leaf
  | xor          => if e.leaf.isInside then e.other.complement else e.other
  | difference   => if e.leaf.isInside then e.theirs.complement else e.ours

section Merger

variable {m : Type → Type} [Monad m]

def merger (op : Operation) (vanish : Encounter S ι Bool → Handler S ι Bool m) :
    Merger S ι Bool m :=
  fun e => (op.keep e).insertIn (vanish e) e.cell

def place (op : Operation) (choose : Encounter S ι Bool → Choice S ι Bool)
    (e : Encounter S ι Bool) : Node S ι Bool :=
  (op.keep e).placeIn (choose e) e.cell

-- Sides that agree decide, and else the leaf of the encounter.
def settle (e : Encounter S ι Bool) : Choice S ι Bool :=
  fun _ n => n.agreed (some e.leaf.isInside)

theorem union_eq : (Merger.union : Merger S ι Bool m) = union.merger fun e _ n =>
    pure (n.agreed (some e.leaf.isInside)) := by
  funext e
  simp only [Merger.union, merger, keep]
  split <;> simp_all <;> rfl

theorem intersection_eq : (Merger.intersection : Merger S ι Bool m) =
    intersection.merger fun e _ n => pure (n.agreed (some e.leaf.isInside)) := by
  funext e
  simp only [Merger.intersection, merger, keep]
  split <;> simp_all <;> rfl

theorem xor_eq :
    (Merger.xor : Merger S ι Bool m) = xor.merger fun _ _ n => pure (n.agreed (some true)) :=
  rfl

theorem difference_eq (vanish : Handler S ι Bool m) :
    Merger.difference vanish = difference.merger fun _ => vanish := by
  funext e
  simp only [Merger.difference, merger, keep]
  split <;> rfl

theorem merger_pure [LawfulMonad m] (op : Operation) (choose : Encounter S ι Bool → Choice S ι Bool)
    (e : Encounter S ι Bool) :
    op.merger (fun e cell n => (pure (choose e cell n) : m _)) e = pure (op.place choose e) :=
  Node.insertIn_pure _ _ _

end Merger

section Apply

variable [Scalar R] [Measured S]

def apply (op : Operation) (a b : Region S) : Except (Violation R) (Region S) :=
  match op with
  | union        => a.union b
  | intersection => a.intersection b
  | xor          => a.xor b
  | difference   => a.difference b

-- What an operation does about a fork without cut.
def handler (a b : Region S) (op : Operation) (e : Encounter S Nat Bool) :
    Handler S Nat Bool (Except (Violation R)) :=
  match op with
  | union        => fun _ n => pure (n.agreed (some e.leaf.isInside))
  | intersection => fun _ n => pure (n.agreed (some e.leaf.isInside))
  | xor          => fun _ n => pure (n.agreed (some true))
  | difference   => fun cell _ => some <$> a.probe b cell

theorem apply_eq (op : Operation) (a b : Region S) :
    op.apply a b = Region.combine (op.merger (op.handler a b)) a b := by
  cases op
  case union        => rw [apply, Region.union, union_eq]; rfl
  case intersection => rw [apply, Region.intersection, intersection_eq]; rfl
  case xor          => rw [apply, Region.xor, xor_eq]; rfl
  case difference   => rw [apply, Region.difference, difference_eq]; rfl

end Apply
end Operation

namespace Region

-- A merged partition with the tolerance it was merged at.
def ofMerged (n : Node S ι Bool) (tolerance : R) : Region S :=
  ⟨.ofNode (n.number 0).clearForks.simplify, tolerance⟩

-- The root of the argument of a merge, numbered to follow the nodes of the instance.
def follower (a b : Region S) : Node S Nat Bool :=
  b.tree.root.relabel (a.tree.capacity + ·)

variable [BEq R] {a b : Region S} {merger : Merger S Nat Bool (Except (Violation R))}
  {place : Encounter S Nat Bool → Node S Nat Bool}

theorem combine_of_merge (ht : a.tolerance == b.tolerance) {n : Node S Nat Bool}
    (hm : a.tree.root.merge merger [] (a.follower b) = .ok n) :
    combine merger a b = .ok (ofMerged n a.tolerance) := by
  have hmerge : a.tree.merge merger b.tree = .ok (.ofNode n) := Except.map_eq_ok.mpr ⟨n, hm, rfl⟩
  simp only [combine, hmerge, ht, if_true]
  rfl

theorem combine_pure (ht : a.tolerance == b.tolerance)
    (h : ∀ e ∈ a.tree.root.encounters [] (a.follower b), merger e = pure (place e)) :
    combine merger a b =
      .ok (ofMerged (a.tree.root.mergeBy place [] (a.follower b)) a.tolerance) :=
  combine_of_merge ht (Node.merge_pure h)

end Region
end SpacePartition
