import SpacePartition.Proofs.Arena.Located

/-!
Actions that only look at an arena, and what they find there.
-/

namespace SpacePartition.Arena

variable {R : Type} {S : Space R} {α β γ σ ε : Type}
variable {a : Arena S α} {p : Option Nat} {n : Node S Nat α} {i : Nat} {t : Option α} {cut : S.Sub}
variable {e : Entry S α}

-- What comes of a sub-hyperplane on the way up from an entry: at each fork, the part of it on the
-- side of the way. Where it misses that side, nothing is left of it. The way ends at an entry
-- without parent, or with one that has become a leaf.
inductive Fits (a : Arena S α) : Index → S.Sub → Option S.Sub → Prop
  | root {i link t sub} : a.entries[i]? = some ⟨link, none, t⟩ → a.Fits i sub (some sub)
  | loose {i link q p t u sub} : a.entries[i]? = some ⟨link, some q, t⟩ →
    a.entries[q]? = some ⟨.leaf, p, u⟩ → a.Fits i sub (some sub)
  | miss {i link q c l r p t u sub} : a.entries[i]? = some ⟨link, some q, t⟩ →
    a.entries[q]? = some ⟨.fork c l r, p, u⟩ →
      (S.split sub (S.hyperplane c)).on (if l = i then .plus else .minus) = none → a.Fits i sub none
  | wall {i link q c l r p t u sub part o} : a.entries[i]? = some ⟨link, some q, t⟩ →
    a.entries[q]? = some ⟨.fork c l r, p, u⟩ →
      (S.split sub (S.hyperplane c)).on (if l = i then .plus else .minus) = some part →
        a.Fits q part o → a.Fits i sub o

-- What is left of a sub-hyperplane is its part in the cell of the entry.
theorem Above.fits {up : Option Slot} {cell : Cell S} {forks : List Nat} {link : Link S}
    {sub : S.Sub} (hu : a.Above up cell forks)
    (he : a.entries[i]? = some ⟨link, up.map Prod.fst, t⟩) (hh : a.Hangs i up) :
    a.Fits i sub (cell.fit sub) := by
  induction hu generalizing i link t sub
  case root => exact .root he
  case wall q b up c l r t cell forks hq hq' _ _ ih =>
    obtain ⟨c', l', r', p', t', hh, rfl⟩ := hh
    cases hh.symm.trans hq
    rw [Cell.fit]
    cases hs : (S.split sub (S.hyperplane c)).on (if l = i then .plus else .minus)
    case none => exact .miss he hq hs
    case some => exact .wall he hq hs <| ih hq hq'

namespace Action

open Index

section Runs

variable {x : Action S α σ ε β} {g : β → Action S α σ ε γ} {b : β} {st st' : Arena S α × σ} {s : σ}

theorem run_bind (h : x st = some (.ok (b, st'))) : (x >>= g) st = g b st' := by
  change Option.bind (x st) _ = _
  rw [h]
  rfl

theorem run_arena : (arena : Action S α σ ε _) (a, s) = some (.ok (a, a, s)) :=
  rfl

theorem run_entry (he : a.entries[i]? = some e) :
    (entry i : Action S α σ ε _) (a, s) = some (.ok (e, a, s)) := by
  refine (run_bind run_arena).trans ?_
  rw [he]
  rfl

theorem run_update {f : Entry S α → Entry S α} (he : a.entries[i]? = some e) :
    (update i f : Action S α σ ε Unit) (a, s) = some (.ok ((), a.put i (f e), s)) :=
  run_bind (run_entry he)

theorem run_add : (add e : Action S α σ ε _) (a, s) = some (.ok (a.entries.size, a.push e, s)) :=
  rfl

theorem run_children (he : a.entries[i]? = some e) : (children i : Action S α σ ε _) (a, s) =
    some (.ok (match e.link with | .leaf => none | .fork _ l r => some (l, r), a, s)) := by
  refine (run_bind (run_entry he)).trans ?_
  cases e.link <;> rfl

theorem run_cut {l r : Nat} (he : a.entries[i]? = some ⟨.fork cut l r, p, t⟩) :
    (Action.cut i : Action S α σ ε _) (a, s) = some (.ok (cut, a, s)) :=
  run_bind (run_entry he)

section Slot

variable {link : Link S} {q l r : Nat} {p' : Option Nat} {t' : Option α}

theorem run_slot_root (he : a.entries[i]? = some ⟨link, none, t⟩) :
    (slot i : Action S α σ ε _) (a, s) = some (.ok (none, a, s)) :=
  run_bind (run_entry he)

theorem run_slot_loose (he : a.entries[i]? = some ⟨link, some q, t⟩)
    (hq : a.entries[q]? = some ⟨.leaf, p', t'⟩) :
    (slot i : Action S α σ ε _) (a, s) = some (.ok (none, a, s)) := by
  refine (run_bind (run_entry he)).trans ?_
  exact run_bind (run_children hq)

theorem run_slot_fork (he : a.entries[i]? = some ⟨link, some q, t⟩)
    (hq : a.entries[q]? = some ⟨.fork cut l r, p', t'⟩) : (slot i : Action S α σ ε _) (a, s) =
      some (.ok (some (q, if l = i then .plus else .minus), a, s)) := by
  refine (run_bind (run_entry he)).trans ?_
  exact run_bind (run_children hq)

theorem run_fit {sub : S.Sub} {o : Option S.Sub} (h : a.Fits i sub o) :
    (fit i sub : Action S α σ ε _) (a, s) = some (.ok (o, a, s)) := by
  induction h
  case root he =>
    rw [fit]
    exact run_bind (run_slot_root he)
  case loose he hq =>
    rw [fit]
    exact run_bind (run_slot_loose he hq)
  case miss he hq hs =>
    rw [fit]
    refine (run_bind (run_slot_fork he hq)).trans <| (run_bind (run_cut hq)).trans ?_
    rw [hs]
    rfl
  case wall he hq hs _ ih =>
    rw [fit]
    refine (run_bind (run_slot_fork he hq)).trans <| (run_bind (run_cut hq)).trans ?_
    rwa [hs]

end Slot

theorem run_cellOf [Scalar R] {x : S.Point} {tolerance : R} (h : a.Holds p n) :
    (Index.cellOf x tolerance n.id : Action S α σ ε _) (a, s) =
      some (.ok ((n.cellOf x tolerance).id, a, s)) := by
  induction n generalizing p
  case leaf =>
    rw [Index.cellOf]
    exact run_bind (run_entry h)
  case fork c l r hl hr =>
    rw [Index.cellOf, Node.cellOf]
    refine (run_bind (run_entry h.1)).trans ?_
    dsimp only
    rcases S.heading (S.hyperplane c) tolerance x with _ | _ | _
    case none       => rfl
    case some.plus  => exact hl h.2.1
    case some.minus => exact hr h.2.2

end Runs

end Action
end SpacePartition.Arena
