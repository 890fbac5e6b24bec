import SpacePartition.Proofs.Arena.Operations

/-!
Arenas and partitions as values. The boolean operations come to the same on both: where a merge of
trees has a result, the merge of arenas that represent the trees can only end in an arena that
represents the result.
-/

namespace SpacePartition

variable {R : Type} {S : Space R} {ι α ε : Type}

-- Whether a handler has no more answers than another one gives.
def Handler.Agrees (vanish : Handler S ι α (Except ε)) (vanish' : Handler S Unit α SetM) : Prop :=
  ∀ ⦃cell n x x'⦄, vanish cell n = .ok x → x' ∈ (vanish' cell n.bare).run → x' = x

namespace Node

variable {n m : Node S ι α} {m' : Node S Unit α} {h : S.Hyperplane} {b : Branch}
variable {cell walls : Cell S} {vanish : Handler S ι α (Except ε)} {vanish' : Handler S Unit α SetM}

theorem agrees_chop (hv : vanish.Agrees vanish') (hm : n.chop vanish h b cell = .ok m)
    (hm' : m' ∈ (n.bare.chop vanish' h b cell).run) : m' = m.bare := by
  induction n generalizing cell m m'
  case leaf i t =>
    cases hm
    exact hm'
  case fork i t c l r hl hr =>
    rw [chop, Except.bind_eq_ok] at hm
    obtain ⟨l', hl', hm⟩ := hm
    rw [Except.bind_eq_ok] at hm
    obtain ⟨r', hr', hm⟩ := hm
    simp only [bare_fork, chop, SetM.mem_run_bind] at hm'
    obtain ⟨l'', hl'', r'', hr'', hm'⟩ := hm'
    cases hl hl' hl''
    cases hr hr' hr''
    cases hs : (S.split c h).on b
    case some part =>
      rw [hs] at hm hm'
      cases hm
      exact hm'
    case none =>
      simp only [hs, Except.bind_eq_ok, SetM.mem_run_bind] at hm hm'
      obtain ⟨x, hx, hm⟩ := hm
      obtain ⟨x', hx', hm'⟩ := hm'
      cases hm
      cases hv hx hx'
      exact hm'

theorem agrees_chopAll (hv : vanish.Agrees vanish') (hm : n.chopAll vanish cell walls = .ok m)
    (hm' : m' ∈ (n.bare.chopAll vanish' cell walls).run) : m' = m.bare := by
  induction walls generalizing n m m'
  case nil =>
    cases hm
    exact hm'
  case cons wall walls ih =>
    rw [chopAll, Except.bind_eq_ok] at hm
    rw [chopAll, SetM.mem_run_bind] at hm'
    obtain ⟨c, hc, hm⟩ := hm
    obtain ⟨c', hc', hm'⟩ := hm'
    cases agrees_chop hv hc hc'
    cases c
    case leaf => cases hm; exact hm'
    case fork => exact ih hm hm'

variable [DecidableEq α]

theorem agrees_insertIn (hv : vanish.Agrees vanish') (hm : n.insertIn vanish cell = .ok m)
    (hm' : m' ∈ (n.bare.insertIn vanish' cell).run) : m' = m.bare := by
  obtain ⟨c', hc', rfl⟩ := SetM.mem_run_map.mp hm'
  rw [insertIn] at hm
  cases hc : n.chopAll vanish cell cell
  case error => rw [hc] at hm; cases hm
  case ok c =>
    rw [hc] at hm
    cases hm
    rw [agrees_chopAll hv hc hc', bare_condense]

theorem bare_split [Inhabited ι] {sub : S.Sub} : (n.split sub).bare = n.bare.split sub := by
  induction n generalizing sub
  case leaf => rfl
  case fork i t c l r hl hr =>
    rw [bare_fork, split, split]
    split
    case h_1 =>
      rw [← hl]
      split <;> simp [Halves.bare, bare_condense]
    case h_2 =>
      rw [← hr]
      split <;> simp [Halves.bare, bare_condense]
    case h_3 =>
      rw [← hl, ← hr]
      simp [Halves.bare, bare_condense]
    case h_4 => split <;> rfl

end Node

def Encounter.bare (e : Encounter S ι α) : Encounter S Unit α :=
  ⟨(), e.attr, e.other.bare, e.cell, e.fromInstance⟩

def Merger.Agrees (merger : Merger S ι α (Except ε)) (merger' : Merger S Unit α SetM) : Prop :=
  ∀ ⦃e n n'⦄, merger e = .ok n → n' ∈ (merger' e.bare).run → n' = n.bare

theorem Node.agrees_merge [Inhabited ι] [DecidableEq α] {merger : Merger S ι α (Except ε)}
    {merger' : Merger S Unit α SetM} {n o m : Node S ι α} {m' : Node S Unit α} {cell : Cell S}
    (hg : merger.Agrees merger') (hm : n.merge merger cell o = .ok m)
    (hm' : m' ∈ (n.bare.merge merger' cell o.bare).run) : m' = m.bare := by
  induction n generalizing cell o m m'
  case leaf i t => exact hg (e := ⟨i, t, o, cell, true⟩) hm hm'
  case fork i t c l r hl hr =>
    cases o
    case leaf j x => exact hg (e := ⟨j, x, .fork i t c l r, cell, false⟩) hm hm'
    case fork j x c' l' r' =>
      simp only [merge, Except.bind_eq_ok] at hm
      simp only [bare_fork, merge, SetM.mem_run_bind] at hm'
      obtain ⟨ml, hl₁, mr, hr₁, hm⟩ := hm
      obtain ⟨ml', hl₂, mr', hr₂, hm'⟩ := hm'
      cases hm
      rw [← bare_fork (i := j), ← bare_split] at hl₂ hr₂ hm'
      rw [hl hl₁ hl₂, hr hr₁ hr₂] at hm'
      rw [SetM.mem_run_pure.mp hm', bare_refit, bare_condense]
      rfl

theorem Node.bare_complement {n : Node S ι Bool} : n.complement.bare = n.bare.complement := by
  induction n <;> simp_all [complement]

theorem Node.agreed_bare [DecidableEq α] {n : Node S ι α} {fallback : Option α} :
    n.bare.agreed fallback = n.agreed fallback := by
  rcases n with _ | ⟨_, _, _, _ | _, _ | _⟩ <;> rfl

theorem Node.isInside_bare {n : Node S ι Bool} : n.bare.isInside = n.isInside := by
  cases n <;> rfl

namespace Encounter

variable {e : Encounter S ι α}

theorem leaf_bare : e.bare.leaf = e.leaf.bare :=
  rfl

theorem ours_bare : e.bare.ours = e.ours.bare :=
  (apply_ite Node.bare e.fromInstance e.leaf e.other).symm

theorem theirs_bare : e.bare.theirs = e.theirs.bare :=
  (apply_ite Node.bare e.fromInstance e.other e.leaf).symm

end Encounter

theorem Operation.keep_bare {op : Operation} {e : Encounter S ι Bool} :
    op.keep e.bare = (op.keep e).bare := by
  have hother : e.bare.other = e.other.bare := rfl
  cases op <;> simp only [keep, Encounter.leaf_bare, Encounter.ours_bare, Encounter.theirs_bare,
    hother, Node.isInside_bare, ← Node.bare_complement, apply_ite Node.bare]

theorem Handler.agrees_agreed {fallback : Option Bool} :
    Handler.Agrees (fun _ n => pure (n.agreed fallback) : Handler S ι Bool (Except ε))
      fun _ n => pure (n.agreed fallback) := by
  intro cell n x x' hx hx'
  cases hx
  exact (SetM.mem_run_pure.mp hx').trans Node.agreed_bare

section Operation

variable [Scalar R] [Measured S] {r s : Region S} (op : Operation)

theorem Operation.agrees :
    Merger.Agrees (op.merger (op.handler r s)) (op.merger (op.answers r s)) := by
  intro e n n' hn hn'
  rw [merger, keep_bare] at hn'
  refine Node.agrees_insertIn ?_ hn hn'
  cases op
  case difference =>
    intro cell n x x' hx hx'
    obtain ⟨y, hy, rfl⟩ := hx'
    obtain ⟨z, hz, rfl⟩ := Except.map_eq_ok.mp hx
    rw [Except.ok.inj <| hy.symm.trans hz]
  all_goals
    simp only [handler, answers, Encounter.leaf_bare, Node.isInside_bare]
    exact Handler.agrees_agreed

namespace Arena

variable {a b : Arena S Bool} {t : Tree S Bool} {σ : Type}

theorem represents_merge (ha : a.WellFormed) (hb : b.WellFormed) (hr : a.Represents r.tree)
    (hs : b.Represents s.tree) (ht : r.tree.merge (op.merger (op.handler r s)) s.tree = .ok t) :
    (Action.merge (Action.attaching (op.decider r s)) b :
      Action S Bool σ (Violation R) Unit).Yields a fun _ c => c.Represents t := by
  obtain ⟨n, hn, hrn, dn⟩ := ha.exists_holds
  obtain ⟨o, ho, hro, dO⟩ := hb.exists_holds
  obtain ⟨m, hm, rfl⟩ := Except.map_eq_ok.mp ht
  cases hr.holds.unique hn (hr.root.trans hrn.symm)
  cases hs.holds.unique ho (hs.root.trans hro.symm)
  refine (Action.yields_merge (Action.acts_attaching <| Action.decides_operation r s op)
    hn hrn dn ho hro dO).imp fun _ c hc => ?_
  obtain ⟨m', hm', hc⟩ := hc
  have hm := Node.agrees_merge op.agrees hm (by rwa [Node.bare_relabel])
  rwa [hm, Tree.ofNode_bare] at hc

end Arena
end Operation
end SpacePartition
