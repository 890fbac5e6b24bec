import SpacePartition.Proofs.Region.Reunion

/-!
What cuts inherit. A property that parts of a sub-hyperplane have from it, and all of its hyperplane
too, stays with the cuts of partitions when these are split or merged.
-/

namespace SpacePartition

variable {R : Type} {S : Space R} {ι κ α : Type}

structure Space.Inherits (S : Space R) (Q : S.Sub → Prop) : Prop where
  part {s h b part} : Q s → (S.split s h).on b = some part → Q part
  whole {s} : Q s → Q (S.whole (S.hyperplane s))

-- Whether all cuts of a partition have a property.
def Node.AllCuts (Q : S.Sub → Prop) (n : Node S ι α) : Prop :=
  ∀ s ∈ n.cuts, Q s

variable {Q : S.Sub → Prop}

theorem Space.Inherits.fit (hQ : S.Inherits Q) {cell : Cell S} {s part : S.Sub} (hs : Q s)
    (h : cell.fit s = some part) : Q part := by
  induction cell generalizing s
  case nil => cases h; exact hs
  case cons wall walls ih =>
    have ⟨s', hs', hp⟩ := Option.bind_eq_some_iff.mp h
    exact ih (hQ.part hs hs') hp

namespace Node

variable {n p m : Node S ι α} {i : ι} {t : Option α} {c : S.Sub} {cell walls : Cell S}

theorem allCuts_leaf : (leaf i t : Node S ι α).AllCuts Q :=
  nofun

theorem allCuts_fork : (fork i t c p m).AllCuts Q ↔ Q c ∧ p.AllCuts Q ∧ m.AllCuts Q :=
  forall_cuts_fork

namespace AllCuts

theorem relabel {f : ι → κ} (h : n.AllCuts Q) : (n.relabel f).AllCuts Q := by
  rwa [AllCuts, cuts_relabel]

theorem number {k : Nat} (h : n.AllCuts Q) : (n.number k).AllCuts Q := by
  rwa [AllCuts, cuts_number]

theorem clearForks (h : n.AllCuts Q) : n.clearForks.AllCuts Q := by
  rwa [AllCuts, cuts_clearForks]

section Condense

variable [DecidableEq α]

theorem condense (h : n.AllCuts Q) : n.condense.AllCuts Q :=
  fun s hs => h s (cuts_condense_subset hs)

theorem simplify (h : n.AllCuts Q) : n.simplify.AllCuts Q := by
  induction n
  case leaf => exact h
  case fork hp hm =>
    obtain ⟨hc, cp, cm⟩ := allCuts_fork.mp h
    exact condense <| allCuts_fork.mpr ⟨hc, hp cp, hm cm⟩

end Condense

variable (hQ : S.Inherits Q)

include hQ

theorem refit (h : n.AllCuts Q) : (n.refit cell).AllCuts Q := by
  cases n
  case leaf => exact h
  case fork c p m =>
    obtain ⟨hc, cp, cm⟩ := allCuts_fork.mp h
    refine allCuts_fork.mpr ⟨?_, cp, cm⟩
    cases hf : cell.fit (S.whole (S.hyperplane c))
    case none => exact hc
    case some => exact hQ.fit (hQ.whole hc) hf

theorem trim {choose : Choice S ι α} {h : S.Hyperplane} {keep : Branch} (hn : n.AllCuts Q) :
    (n.trim choose h keep cell).AllCuts Q := by
  induction n generalizing cell
  case leaf => exact hn
  case fork c p m hp hm =>
    obtain ⟨hc, cp, cm⟩ := allCuts_fork.mp hn
    rw [trim_fork]
    cases hs : (S.split c h).on keep
    case none => exact allCuts_leaf
    case some => exact allCuts_fork.mpr ⟨hQ.part hc hs, hp cp, hm cm⟩

variable [DecidableEq α]

theorem placeIn {choose : Choice S ι α} (h : n.AllCuts Q) : (n.placeIn choose cell).AllCuts Q := by
  have all (walls : Cell S) : (n.trimAll choose cell walls).AllCuts Q := by
    induction walls generalizing n
    case nil     => exact h
    case cons ih => exact ih <| h.trim hQ
  exact (all cell).condense

variable [Inhabited ι]

-- The halves have no part of the sub-hyperplane that makes them.
theorem split (h : n.AllCuts Q) (sub : S.Sub) :
    (n.split sub).plus.AllCuts Q ∧ (n.split sub).minus.AllCuts Q := by
  have kept {c : S.Sub} {h : S.Hyperplane} {b : Branch} (hc : Q c) :
      Q (((S.split c h).on b).getD c) := by
    cases hs : (S.split c h).on b
    case none => exact hc
    case some => exact hQ.part hc hs
  induction n generalizing sub
  case leaf => exact ⟨allCuts_leaf, allCuts_leaf⟩
  case fork i t c p m hp hm =>
    obtain ⟨hc, cp, cm⟩ := allCuts_fork.mp h
    rw [Node.split]
    dsimp only
    split
    case h_1 =>
      obtain ⟨near, far⟩ := hp cp sub
      split
      case h_1 => exact ⟨(allCuts_fork.mpr ⟨hc, near, cm⟩).condense, far⟩
      case h_2 => exact ⟨near, (allCuts_fork.mpr ⟨hc, far, cm⟩).condense⟩
    case h_2 =>
      obtain ⟨near, far⟩ := hm cm sub
      split
      case h_1 => exact ⟨(allCuts_fork.mpr ⟨hc, cp, near⟩).condense, far⟩
      case h_2 => exact ⟨near, (allCuts_fork.mpr ⟨hc, cp, far⟩).condense⟩
    case h_3 subPlus subMinus _ =>
      obtain ⟨pp, pm⟩ := hp cp subPlus
      obtain ⟨mp, mm⟩ := hm cm subMinus
      exact ⟨(allCuts_fork.mpr ⟨kept (b := .plus) hc, pp, mp⟩).condense,
        (allCuts_fork.mpr ⟨kept (b := .minus) hc, pm, mm⟩).condense⟩
    case h_4 =>
      split
      case isTrue  => exact ⟨cp, cm⟩
      case isFalse => exact ⟨cm, cp⟩

-- Where every encounter leaves cuts with the property, so does the merge.
theorem mergeBy {place : Encounter S ι α → Node S ι α} {other : Node S ι α}
    (hp : ∀ e, e.other.AllCuts Q → (place e).AllCuts Q) (hn : n.AllCuts Q) (ho : other.AllCuts Q) :
    (n.mergeBy place cell other).AllCuts Q := by
  induction n generalizing cell other
  case leaf => exact hp _ ho
  case fork c p m ihp ihm =>
    obtain ⟨hc, cp, cm⟩ := allCuts_fork.mp hn
    cases other
    case leaf => exact hp _ hn
    case fork =>
      obtain ⟨op, om⟩ := ho.split hQ c
      rw [mergeBy_fork_fork]
      exact (allCuts_fork.mpr ⟨hc, ihp cp op, ihm cm om⟩).condense.refit hQ

end AllCuts
end Node

namespace Region

variable [BEq R] {a b r : Region S}

-- Nothing but tolerances keeps two regions from having a union.
theorem exists_union_iff : (∃ r, a.union b = .ok r) ↔ a.tolerance == b.tolerance := by
  constructor
  case mp =>
    rintro ⟨r, hr⟩
    cases ht : a.tolerance == b.tolerance
    case true  => rfl
    case false =>
      rw [union, combine, ht] at hr
      cases hr
  case mpr => exact fun ht => (exists_union ht).imp fun _ h => h.1

-- The cuts of a union have what the cuts of both regions have.
theorem allCuts_union (hQ : S.Inherits Q) (ha : a.tree.root.AllCuts Q) (hb : b.tree.root.AllCuts Q)
    (h : a.union b = .ok r) : r.tree.root.AllCuts Q := by
  have hu := combine_pure (exists_union_iff.mp ⟨r, h⟩) fun e _ => Operation.merger_pure .union
    (m := Except (Violation R)) (fun e _ n => n.agreed (some e.leaf.isInside)) e
  rw [← Operation.union_eq, ← union, h] at hu
  cases hu
  refine (Node.AllCuts.mergeBy hQ (fun e he => ?_) ha hb.relabel).number.clearForks.simplify.number
  have keep : (Operation.union.keep e).AllCuts Q := by
    rw [Operation.keep]
    split
    case isTrue  => exact Node.allCuts_leaf
    case isFalse => exact he
  exact keep.placeIn hQ

end Region
end SpacePartition
