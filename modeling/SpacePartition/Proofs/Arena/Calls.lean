import Mathlib.Data.List.Forall2
import SpacePartition.Proofs.Arena.Operations
import SpacePartition.Proofs.Arena.Quiet

/-!
The calls of a merger. Each leaf of the arena that is merged into comes before the merger once, in a
partition that has not been touched, and with what there is of the argument in its cell.
-/

namespace SpacePartition

variable {R : Type} {S : Space R} {ι α β γ σ τ ε : Type}

namespace Node

-- The leaves, the plus side of a cut before its minus side.
def leaves : Node S ι α → List (ι × Option α)
  | leaf i t       => [(i, t)]
  | fork _ _ _ l r => l.leaves ++ r.leaves

-- What there is of another partition below the node at a path: of the halves of each split by a cut
-- on the way, the one on the side that the way takes.
def part [DecidableEq α] : Path → Node S ι α → Node S Unit α → Node S Unit α
  | [], _, o                       => o
  | _ :: _, leaf .., o             => o
  | b :: path, fork _ _ c l r, o => (b.pick l r).part path ((o.split c).on b)

theorem leaves_sublist {n : Node S ι α} : (n.leaves.map Prod.fst).Sublist n.ids := by
  induction n
  case leaf => exact .refl _
  case fork hl hr =>
    rw [leaves, List.map_append]
    exact (hl.append hr).trans (List.sublist_append_left _ _)

end Node

namespace Arena

structure Call (S : Space R) (α : Type) where
  -- What the merger finds when it is called.
  arena        : Arena S α
  leaf         : Index
  other        : Index
  place        : Option Slot
  fromInstance : Bool

namespace Call

def ours (call : Call S α) : Index :=
  if call.fromInstance then call.leaf else call.other

def theirs (call : Call S α) : Index :=
  if call.fromInstance then call.other else call.leaf

end Call

namespace Action

-- An action beside a state that it does not know.
def framed (x : Action S α σ ε β) : Action S α (σ × τ) ε β := fun (a, s, t) => do
  let (z, a', s') ← x (a, s)
  return (z, a', s', t)

-- A merger that keeps a list of its calls.
def recorded (merger : Merger S α σ ε) : Merger S α (σ × List (Call S α)) ε :=
  fun leaf other place fromInstance => do
    modify fun (a, s, calls) => (a, s, calls ++ [⟨a, leaf, other, place, fromInstance⟩])
    framed (merger leaf other place fromInstance)

-- What comes of two actions that differ in the list of calls, which only the first one keeps. The
-- calls made on its way are put behind those that have been made before.
def Calls (x : Action S α (σ × List (Call S α)) ε β) (y : Action S α σ ε β) (a : Arena S α)
    (Q : β → Arena S α → List (Call S α) → Prop) : Prop :=
  ∀ s log, ∃ outcome, x (a, s, log) = some outcome ∧
    y (a, s) = some (outcome.map fun r => (r.1, r.2.1, r.2.2.1)) ∧
    match outcome with
    | .ok (z, a', _, log') => ∃ calls, log' = log ++ calls ∧ Q z a' calls
    | .error (.refused _)  => True
    | .error _             => False

section Recorded

variable {a : Arena S α} {x : Action S α σ ε β} {s : σ} {t : τ}
variable {merger : Merger S α σ ε} {i j : Nat} {place : Option Slot} {fromInstance : Bool}
variable {P : Nat → Arena S α → Prop}

theorem run_framed {outcome : Except (Panic ε) (β × Arena S α × σ)} (h : x (a, s) = some outcome) :
    framed x (a, s, t) = some (outcome.map fun r => (r.1, r.2.1, r.2.2, t)) := by
  change Option.bind (x (a, s)) _ = _
  rw [h]
  cases outcome <;> rfl

theorem yields_recorded (h : (merger i j place fromInstance).Yields a P) :
    (recorded merger i j place fromInstance).Yields a P := by
  rintro ⟨s, log⟩
  obtain ⟨outcome, hs, ho⟩ := h s
  refine ⟨_, run_framed hs, ?_⟩
  rcases outcome with (_ | _ | _ | _ | _) | _ <;> exact ho

theorem calls_recorded (h : (merger i j place fromInstance).Yields a P) :
    (recorded merger i j place fromInstance).Calls (merger i j place fromInstance) a
      fun _ _ calls => calls = [⟨a, i, j, place, fromInstance⟩] := by
  intro s log
  obtain ⟨outcome, hs, ho⟩ := h s
  refine ⟨_, run_framed hs, ?_⟩
  rcases outcome with (_ | _ | _ | _ | _) | _
  case ok            => exact ⟨hs, _, rfl, rfl⟩
  case error.refused => exact ⟨hs, trivial⟩
  all_goals exact ho.elim

end Recorded

section Calls

variable {a : Arena S α} {x : Action S α (σ × List (Call S α)) ε β} {y : Action S α σ ε β}
variable {q : (τ : Type) → Action S α τ ε β}
variable {f : β → Action S α (σ × List (Call S α)) ε γ} {g : β → Action S α σ ε γ}
variable {P Q : β → Arena S α → List (Call S α) → Prop}

theorem Calls.imp (h : x.Calls y a P) (hi : ∀ z a' calls, P z a' calls → Q z a' calls) :
    x.Calls y a Q := by
  intro s log
  obtain ⟨outcome, hx, hy, ho⟩ := h s log
  refine ⟨outcome, hx, hy, ?_⟩
  rcases outcome with (_ | _ | _ | _ | _) | _
  case ok            => exact ho.imp fun _ hc => ⟨hc.1, hi _ _ _ hc.2⟩
  case error.refused => trivial
  all_goals exact ho

theorem Calls.and_yields {P : β → Arena S α → Prop} (h : x.Calls y a Q) (hy : x.Yields a P) :
    x.Calls y a fun z a' calls => Q z a' calls ∧ P z a' := by
  intro s log
  obtain ⟨outcome, hx, hs, ho⟩ := h s log
  obtain ⟨outcome', hx', hp⟩ := hy (s, log)
  cases hx.symm.trans hx'
  refine ⟨outcome, hx, hs, ?_⟩
  rcases outcome with (_ | _ | _ | _ | _) | _
  case ok            => exact ho.imp fun _ hc => ⟨hc.1, hc.2, hp⟩
  case error.refused => trivial
  all_goals exact ho

theorem calls_bind {Q : γ → Arena S α → List (Call S α) → Prop}
    (h : x.Calls y a fun z a' calls =>
      (f z).Calls (g z) a' fun z' a'' calls' => Q z' a'' (calls ++ calls')) :
    (x >>= f).Calls (y >>= g) a Q := by
  intro s log
  obtain ⟨outcome, hx, hy, ho⟩ := h s log
  change ∃ outcome, Option.bind (x (a, s, log)) _ = some outcome ∧ Option.bind (y (a, s)) _ = _ ∧ _
  rw [hx, hy]
  rcases outcome with (_ | _ | _ | _ | e) | ⟨z, a', s', log'⟩
  case error.refused => exact ⟨_, rfl, rfl, trivial⟩
  case ok =>
    obtain ⟨calls, rfl, hf⟩ := ho
    obtain ⟨outcome, hf, hg, ho⟩ := hf s' (log ++ calls)
    refine ⟨outcome, hf, hg, ?_⟩
    rcases outcome with (_ | _ | _ | _ | _) | ⟨z', a'', s'', log''⟩
    case ok =>
      obtain ⟨calls', rfl, hq⟩ := ho
      exact ⟨_, List.append_assoc .., hq⟩
    case error.refused => trivial
    all_goals exact ho
  all_goals exact ho.elim

theorem calls_pure {z : β} (h : Q z a []) :
    (pure z : Action S α (σ × _) ε β).Calls (pure z) a Q :=
  fun s log => ⟨.ok (z, a, s, log), rfl, rfl, [], (List.append_nil _).symm, h⟩

-- An action that does not know the list makes no calls.
theorem calls_of_quiet {P : β → Arena S α → Prop} (hq : Quiet q a) (h : (q Unit).Yields a P) :
    (q (σ × List (Call S α))).Calls (q σ) a fun z a' calls => calls = [] ∧ P z a' := by
  intro s log
  obtain ⟨outcome, hr, ho⟩ := h ()
  refine ⟨_, (hq _ (s, log)).trans (congrArg _ hr), ?_⟩
  rw [hq, hr]
  rcases outcome with (_ | _ | _ | _ | _) | _
  case ok            => exact ⟨rfl, [], (List.append_nil _).symm, rfl, ho⟩
  case error.refused => exact ⟨rfl, trivial⟩
  all_goals exact ho.elim

theorem calls_bind_of_quiet {Q : γ → Arena S α → List (Call S α) → Prop} (hq : Quiet q a)
    (h : (q Unit).Yields a fun z a' => (f z).Calls (g z) a' Q) :
    (q (σ × List (Call S α)) >>= f).Calls (q σ >>= g) a Q := by
  refine calls_bind <| (calls_of_quiet hq h).imp fun z a' calls hc => ?_
  obtain ⟨rfl, hc⟩ := hc
  exact hc

end Calls

end Action

-- Whether a call has before it, on the side of the one who is merged into, an untouched partition
-- `m` at a path in `n`, and on the other side `k`, which is what there is of `o` below `n` at this
-- path. None of the nodes of `k` have been there before but given ones.
structure Call.Hands (call : Call S α) [DecidableEq α] (a : Arena S α) (X : Nat → Prop)
    (n : Node S Nat α) (o : Node S Unit α) (path : Path) (m k : Node S Nat α) : Prop where
  ours   : m.id = call.ours
  theirs : k.id = call.theirs
  isLeaf : if call.fromInstance then m.isLeaf else k.isLeaf
  at?    : n.at? path = some m
  same   : ∀ j ∈ m.ids, call.arena.entries[j]? = a.entries[j]?
  holds  : ∃ q, call.arena.Holds q k
  part   : k.bare = n.part path o
  madeOf : a.MadeOf X k

section Hands

variable [DecidableEq α] {call : Call S α} {a a' : Arena S α} {X Y Z : Nat → Prop}
variable {n m k l r : Node S Nat α} {o : Node S Unit α} {path : Path} {i : Nat} {t : Option α}
variable {c : S.Sub} {b : Branch} {p : Option Nat}

theorem Call.Hands.fork (h : call.Hands a X (b.pick l r) ((o.split c).on b) path m k) :
    call.Hands a X (.fork i t c l r) o (b :: path) m k where
  ours   := h.ours
  theirs := h.theirs
  isLeaf := h.isLeaf
  at?    := Node.at?_cons.trans h.at?
  same   := h.same
  holds  := h.holds
  part   := h.part
  madeOf := h.madeOf

-- A call hands the same in an arena that has been before.
theorem Call.Hands.before (h : call.Hands a' X n o path m k) (ev : a.Evolves Z a')
    (hn : a.Holds p n) (hd : ∀ j ∈ n.ids, ¬Z j) (hX : ∀ j, X j → a.Free Y j) :
    call.Hands a Y n o path m k where
  ours   := h.ours
  theirs := h.theirs
  isLeaf := h.isLeaf
  at?    := h.at?
  same j hj := by
    have hj' := Node.ids_subset h.at? hj
    rw [h.same j hj, ev.same fun hf => hd j hj' <| hf <| hn.lt hj']
  holds  := h.holds
  part   := h.part
  madeOf := ev.madeOf hX h.madeOf

-- Whether calls have before them, one after the other, the leaves of a partition.
def Offers (a : Arena S α) (X : Nat → Prop) (n : Node S Nat α) (o : Node S Unit α)
    (calls : List (Call S α)) : Prop :=
  ∃ ms : List (Node S Nat α),
    calls.Forall₂ (fun call m => ∃ path k, call.Hands a X n o path m k) ms ∧
      ms.flatMap Node.leaves = n.leaves

theorem offers_singleton (h : call.Hands a X n o [] n k) : Offers a X n o [call] :=
  ⟨[n], .cons ⟨[], k, h⟩ .nil, by simp⟩

theorem Offers.before {calls : List (Call S α)} (h : Offers a' X n o calls) (ev : a.Evolves Z a')
    (hn : a.Holds p n) (hd : ∀ j ∈ n.ids, ¬Z j) (hX : ∀ j, X j → a.Free Y j) :
    Offers a Y n o calls := by
  obtain ⟨ms, hms, hl⟩ := h
  exact ⟨ms, hms.imp fun _ _ ⟨path, k, h⟩ => ⟨path, k, h.before ev hn hd hX⟩, hl⟩

theorem Offers.fork {calls calls' : List (Call S α)} (hl : Offers a X l (o.split c).plus calls)
    (hr : Offers a X r (o.split c).minus calls') :
    Offers a X (.fork i t c l r) o (calls ++ calls') := by
  obtain ⟨ms, hms, hl⟩ := hl
  obtain ⟨ms', hms', hr⟩ := hr
  refine ⟨ms ++ ms', List.rel_append (hms.imp ?plus) (hms'.imp ?minus), ?leaves⟩
  case plus   => exact fun _ _ ⟨path, k, h⟩ => ⟨.plus :: path, k, h.fork (b := .plus)⟩
  case minus  => exact fun _ _ ⟨path, k, h⟩ => ⟨.minus :: path, k, h.fork (b := .minus)⟩
  case leaves => rw [List.flatMap_append, hl, hr, Node.leaves]

end Hands

section Sides

variable [DecidableEq α] {a a₁ a₂ : Arena S α} {place : Option Slot} {cell : Cell S}
variable {forks : List Nat} {p q : Option Nat} {l r o m : Node S Nat α} {i : Nat} {t : Option α}
variable {c : S.Sub} {halves : Halves S Nat α} {calls calls' : List (Call S α)}

-- The calls for the minus sides come after something has taken the place of the plus sides.
theorem Meet.offers (h : a.Meet place cell forks p q (.fork i t c l r) o)
    (h₁ : Places a (· ∈ o.ids) place cell forks a₁ (halves.close c))
    (hb : halves.bare = o.bare.split c)
    (h₂ : Places a₁ (fun j => j ∈ l.ids ∨ j ∈ halves.plus.ids) (some (halves.id, .plus))
      (⟨c, .plus⟩ :: cell) (halves.id :: forks) a₂ m)
    (hl : Offers a₁ (· ∈ halves.plus.ids) l halves.plus.bare calls)
    (hr : Offers a₂ (· ∈ halves.minus.ids) r halves.minus.bare calls') :
    Offers a (· ∈ o.ids) (.fork i t c l r) o.bare (calls ++ calls') := by
  obtain ⟨hn, hd⟩ := h.spared h₁
  obtain ⟨-, -, hlr, -, -⟩ := Node.nodup_fork.mp h.nodup.1
  have plus : Offers a₁ (· ∈ (halves.close c).ids) l (o.bare.split c).plus calls := by
    rw [← hb]
    refine hl.before (Z := fun _ => False) evolves_refl hn.2.1 (fun _ _ hf => hf) fun j hj _ => ?_
    exact Node.mem_ids_fork.mpr <| .inl hj
  have minus : Offers a₁ (· ∈ (halves.close c).ids) r (o.bare.split c).minus calls' := by
    rw [← hb]
    refine hr.before h₂.evolves hn.2.2 (fun j hj => ?spared) fun j hj _ => ?within
    case spared =>
      have hj' := (hd j <| Node.mem_ids_fork.mpr <| .inr <| .inl hj).1
      rintro ((hjl | hju) | hjk)
      case inl.inl => exact hlr j hjl hj
      case inl.inr => exact hj' <| Node.mem_ids_fork.mpr <| .inl hju
      case inr     => cases hjk; exact hj' Node.id_mem_ids
    case within => exact Node.mem_ids_fork.mpr <| .inr <| .inl hj
  exact (plus.fork minus).before h₁.evolves h.ours h.outside h₁.madeOf

end Sides

namespace Action

open Index

variable [DecidableEq α] {merger : Merger S α σ ε} {result : SpacePartition.Merger S Unit α SetM}
variable {a b : Arena S α} {place : Option Slot} {cell : Cell S} {forks : List Nat}
variable {p q : Option Nat} {n o : Node S Nat α}

omit [DecidableEq α] in
theorem acts_recorded (hm : merger.Acts result) : (recorded merger).Acts result :=
  fun _ _ _ _ _ _ _ _ _ _ h => yields_recorded (hm h)

theorem calls_mergeNodes (hm : merger.Acts result) (h : a.Meet place cell forks p q n o) :
    (mergeNodes (recorded merger) n.id o.id place).Calls (mergeNodes merger n.id o.id place) a
      fun _ _ calls => Offers a (· ∈ o.ids) n o.bare calls := by
  have hm' := acts_recorded hm
  induction n generalizing a place cell forks p q o
  case leaf i t =>
    unfold mergeNodes
    refine calls_bind_of_quiet quiet_children <| yields_children_leaf h.ours ?_
    refine (calls_recorded (hm h)).imp ?_
    rintro _ _ _ rfl
    exact offers_singleton (k := o)
      ⟨rfl, rfl, rfl, rfl, fun _ _ => rfl, ⟨q, h.theirs⟩, rfl, fun j hj _ => hj⟩
  case fork i t c l r hl hr =>
    unfold mergeNodes
    refine calls_bind_of_quiet quiet_children <| yields_children_fork h.ours.1 ?_
    refine calls_bind_of_quiet quiet_isLeaf ?_
    cases o
    case leaf j x =>
      refine yields_isLeaf_leaf h.theirs ?_
      refine (calls_recorded (hm h.symm)).imp ?_
      rintro _ _ _ rfl
      exact offers_singleton (k := .leaf j x)
        ⟨rfl, rfl, rfl, rfl, fun _ _ => rfl, ⟨q, h.theirs⟩, rfl, fun j hj _ => hj⟩
    case fork j x c' l' r' =>
      refine yields_isLeaf_fork h.theirs.1 ?_
      refine calls_bind_of_quiet quiet_cut <| yields_cut h.ours.1 ?_
      refine calls_bind_of_quiet (quiet_splitIn h.theirs h.nodup.2) <| (yields_splitIn h).imp ?_
      intro root a₁ h₁
      obtain ⟨halves, rfl, hb, h₁⟩ := h₁
      obtain ⟨hn₁, hd⟩ := h.spared h₁
      refine calls_bind_of_quiet quiet_twoChildren ?_
      refine yields_twoChildren h₁.located.holds.1 ?_
      have hplus := h₁.located.meet_plus hn₁ h.nodup.1 hd
      refine calls_bind <| ((hl hplus).and_yields <| yields_mergeNodes hm' hplus).imp ?_
      intro _ a₂ calls h₂
      obtain ⟨hc, m, rfl, h₂, -⟩ := h₂
      obtain ⟨hk₂, hminus⟩ := h₂.meet_minus hn₁ h.nodup.1 h₁.located hd
      refine calls_bind <| ((hr hminus).and_yields <| yields_mergeNodes hm' hminus).imp ?_
      intro _ a₃ calls' h₃
      obtain ⟨hc', m', rfl, h₃, -⟩ := h₃
      have hk₃ := h₂.fork_sides hn₁ h.nodup.1 h₁.located hd h₃
      refine calls_bind_of_quiet quiet_condense ?_
      refine (yields_condense hk₃.holds hk₃.nodup).imp fun _ a₄ h₄ => ?_
      have hk₄ := hk₃.reworks h₄
      rw [show halves.id = _ from h₄.id.symm]
      refine calls_bind_of_quiet (quiet_refit hk₄) <| (yields_refit hk₄).imp fun _ a₅ _ => ?_
      refine calls_pure ?_
      rw [List.append_nil]
      exact h.offers h₁ hb h₂ hc hc'

theorem calls_merge (hm : merger.Acts result) (ha : a.Holds none n) (hra : n.id = a.root)
    (hn : n.ids.Nodup) (hb : b.Holds none o) (hrb : o.id = b.root) (ho : o.ids.Nodup) :
    (merge (recorded merger) b).Calls (merge merger b) a fun _ _ calls =>
      Offers a (fun _ => False) n o.bare calls := by
  refine calls_bind_of_quiet quiet_absorb <| (yields_absorb hb hrb ho).imp ?_
  intro root a₁ h₁
  obtain ⟨rfl, hr₁, ho₁, ev₁⟩ := h₁
  have hmeet := ha.meet hn ho ho₁ ev₁
  refine calls_bind_of_quiet quiet_arena <| yields_arena ?_
  rw [hr₁, ← hra]
  refine calls_bind <| ((calls_mergeNodes hm hmeet).and_yields <|
    yields_mergeNodes (acts_recorded hm) hmeet).imp fun root a₂ calls h₂ => ?_
  obtain ⟨hc, m, rfl, h₂, -⟩ := h₂
  have hm₂ := h₂.located
  refine (calls_of_quiet
    (quiet_close hm₂.holds hm₂.nodup) (yields_close hm₂.holds hm₂.nodup)).imp ?_
  rintro _ _ _ ⟨rfl, -⟩
  rw [List.append_nil, ← Node.bare_relabel (f := (· + a.entries.size))]
  refine hc.before ev₁ ha (fun _ _ hf => hf) fun j hj hlt => ?_
  rw [Node.ids_relabel, List.mem_map] at hj
  obtain ⟨k, -, rfl⟩ := hj
  exact absurd hlt (Nat.not_lt.mpr <| Nat.le_add_left ..)

end Action

variable [DecidableEq α] {a b : Arena S α} {decide : Decider S α σ ε}

-- In a merge with a merger that hangs one of two nodes, each leaf of the arena that is merged into
-- is handed to the merger once, the plus side of a cut before its minus side, as part of a
-- partition that is as it was in the beginning. What is handed against it is made of none of its
-- nodes, but of what there is of the argument in the cell. To keep a list of the calls does not
-- change the merge.
theorem merge_recorded (hd : decide.Observes) (ha : a.WellFormed) (hb : b.WellFormed) (s : σ) :
    ∃ n o, a.Holds none n ∧ n.id = a.root ∧ b.Holds none o ∧ o.id = b.root ∧
      (n.leaves.map Prod.fst).Nodup ∧
      ∃ outcome,
        Action.merge (Action.recorded <| Action.attaching decide) b (a, s, []) = some outcome ∧
        Action.merge (Action.attaching decide) b (a, s) =
          some (outcome.map fun r => (r.1, r.2.1, r.2.2.1)) ∧
        match outcome with
        | .ok (_, _, _, calls) => Offers a (fun _ => False) n o.bare calls
        | .error (.refused _)  => True
        | .error _             => False := by
  obtain ⟨n, hn, hrn, dn⟩ := ha.exists_holds
  obtain ⟨o, ho, hro, dO⟩ := hb.exists_holds
  obtain ⟨outcome, hr, hs, hc⟩ :=
    Action.calls_merge (Action.acts_attaching hd.decides) hn hrn dn ho hro dO s []
  refine ⟨n, o, hn, hrn, ho, hro, dn.sublist Node.leaves_sublist, outcome, hr, hs, ?_⟩
  rcases outcome with (_ | _ | _ | _ | _) | ⟨_, _, _, log⟩
  case ok =>
    obtain ⟨calls, rfl, hc⟩ := hc
    exact hc
  case error.refused => trivial
  all_goals exact hc

-- Two rays, of which the first one has its entries in another order and one that no link leads to.
theorem merge_recorded_of_rays :
    let cut (x : ℚ) : OrientedPoint (Exact ℚ) := ⟨.finite x, true, .finite 1⟩
    let a : Arena (line (Exact ℚ)) Bool := ⟨#[⟨.fork (cut 0) 3 1, none, none⟩,
      ⟨.leaf, some 0, some true⟩, ⟨.leaf, none, none⟩, ⟨.leaf, some 0, some false⟩], 0⟩
    let b : Arena (line (Exact ℚ)) Bool := ⟨#[⟨.leaf, some 2, some false⟩,
      ⟨.leaf, some 2, some true⟩, ⟨.fork (cut 5) 0 1, none, none⟩], 2⟩
    let n : Node (line (Exact ℚ)) Nat Bool :=
      .fork 0 none (cut 0) (.leaf 3 (some false)) (.leaf 1 (some true))
    let o : Node (line (Exact ℚ)) Nat Bool :=
      .fork 2 none (cut 5) (.leaf 0 (some false)) (.leaf 1 (some true))
    let merger : Merger (line (Exact ℚ)) Bool Unit Empty := Action.attaching .union
    a.WellFormed ∧ b.WellFormed ∧ ∃ c calls,
      Action.merge (Action.recorded merger) b (a, (), []) = some (.ok ((), c, (), calls)) ∧
      Action.merge merger b (a, ()) = some (.ok ((), c, ())) ∧
      Offers a (fun _ => False) n o.bare calls ∧ n.leaves = [(3, some false), (1, some true)] := by
  intro cut a b n o merger
  have hn : a.Holds none n := ⟨rfl, rfl, rfl⟩
  have ho : b.Holds none o := ⟨rfl, rfl, rfl⟩
  have ha : a.WellFormed := hn.wellFormed rfl rfl (by decide : [3, 1, 0].Nodup)
  have hb : b.WellFormed := ho.wellFormed rfl rfl (by decide : [0, 1, 2].Nodup)
  obtain ⟨n', o', hn', hrn, ho', hro, -, outcome, hr, hs, hc⟩ :=
    merge_recorded (observes_union (ε := Empty)) ha hb ()
  cases hn'.unique hn hrn
  cases ho'.unique ho hro
  rcases outcome with (_ | _ | _ | _ | e) | ⟨_, c, _, calls⟩
  case ok            => exact ⟨ha, hb, c, calls, hr, hs, hc, rfl⟩
  case error.refused => cases e
  all_goals exact hc.elim

end Arena
end SpacePartition
