import Mathlib.Algebra.Order.Field.Rat
import SpacePartition.Line.Interval
import SpacePartition.Region.Cached
import SpacePartition.Proofs.Scalar.Exact

/-!
Regions that remember answer as if they did not. What is remembered counts only in the generation it
is of, so that a change of the tree makes it void, and copies that go separate ways each have a
memory and a generation of their own.
-/

namespace SpacePartition

variable {R : Type} {S : Space R}

-- What a region can be asked for.
inductive Query
  | properties
  | size
  | barycenter
  | boundarySize
  deriving DecidableEq, Repr

inductive Answer (S : Space R)
  | properties (p : Properties S)
  | number (x : R)
  | point (p : S.Point)
  | tree (t : Tree S Bool)

-- What happens to a store of regions, each of which is named by its position.
inductive Event (S : Space R)
  | ask (i : Nat) (q : Query)
  | replace (i : Nat) (t : Tree S Bool)
  | copy (i : Nat)

def Event.isReplace : Event S → Bool
  | replace .. => true
  | _          => false

-- The answers to a run of events. An event may have none, such as one at a position without region.
def Event.answers {σ : Type}
    (step : Event S → List σ → Option (Except (Violation R) (Answer S)) × List σ) :
    List (Event S) → List σ → List (Except (Violation R) (Answer S))
  | [], _       => []
  | e :: es, rs => (step e rs).1.toList ++ answers step es (step e rs).2

variable [Scalar R] [Measured S]

namespace Region

-- The answer that is computed from the tree and the tolerance alone.
def answer (q : Query) (r : Region S) : Except (Violation R) (Answer S) :=
  match q with
  | .properties   => .properties <$> r.properties
  | .size         => .number <$> r.size
  | .barycenter   => .point <$> r.barycenter
  | .boundarySize => .number <$> r.boundarySize

def step (e : Event S) (rs : List (Region S)) :
    Option (Except (Violation R) (Answer S)) × List (Region S) :=
  match e with
  | .ask i q => (rs[i]?.map (·.answer q), rs)
  | .replace i t =>
    match rs[i]? with
    | none   => (none, rs)
    | some r => (some (.ok <| .tree r.tree), rs.set i { r with tree := t })
  | .copy i => (none, rs ++ rs[i]?.toList)

end Region

namespace CachedRegion

def answer (q : Query) (r : CachedRegion S) : Except (Violation R) (Answer S × CachedRegion S) :=
  match q with
  | .properties   => (fun (p, r) => (.properties p, r)) <$> r.properties
  | .size         => (fun (x, r) => (.number x, r)) <$> r.size
  | .barycenter   => (fun (p, r) => (.point p, r)) <$> r.barycenter
  | .boundarySize => (fun (x, r) => (.number x, r)) <$> r.boundarySize

-- Drops what is remembered of past generations.
def refresh (r : CachedRegion S) : CachedRegion S :=
  { r with memory := r.current }

-- A region whose query fails has been refreshed by then.
def step (e : Event S) (rs : List (CachedRegion S)) :
    Option (Except (Violation R) (Answer S)) × List (CachedRegion S) :=
  match e with
  | .ask i q =>
    match rs[i]? with
    | none   => (none, rs)
    | some r =>
      match r.answer q with
      | .ok (a, r) => (some (.ok a), rs.set i r)
      | .error v   => (some (.error v), rs.set i r.refresh)
  | .replace i t =>
    match rs[i]? with
    | none   => (none, rs)
    | some r => (some (.ok <| .tree (r.replaceTree t).1), rs.set i (r.replaceTree t).2)
  | .copy i => (none, rs ++ rs[i]?.toList)

-- Whether all that a region remembers of its generation is what it would compute. The memory is of
-- no later generation, and there have been no more than `k` generations.
structure Faithful (k : Nat) (r : CachedRegion S) : Prop where
  bounded      : r.generation.toNat ≤ k
  past         : r.memory.generation.toNat ≤ r.generation.toNat
  properties   : r.memory.generation = r.generation →
    ∀ p ∈ r.memory.properties, r.region.properties = .ok p
  boundarySize : r.memory.generation = r.generation →
    ∀ x ∈ r.memory.boundarySize, r.region.boundarySize = .ok x

variable {r : CachedRegion S} {k k' : Nat} {α β : Type}

theorem faithful_ofRegion (r : Region S) : (ofRegion r).Faithful 0 where
  bounded      := Nat.le_refl 0
  past         := Nat.le_refl 0
  properties   := nofun
  boundarySize := nofun

theorem Faithful.mono (h : r.Faithful k) (hk : k ≤ k') : r.Faithful k' :=
  { h with bounded := h.bounded.trans hk }

omit [Scalar R] [Measured S] in
theorem current_generation : r.current.generation = r.generation := by
  rw [current]
  split
  case isTrue h  => exact h
  case isFalse   => rfl

-- What counts of a memory is right without a condition.
theorem Faithful.refresh (h : r.Faithful k) : r.refresh.Faithful k where
  bounded := h.bounded
  past    := (congrArg UInt64.toNat current_generation).le
  properties _ := by
    rw [CachedRegion.refresh, current]
    split
    case isTrue hg => exact h.properties hg
    case isFalse   => exact nofun
  boundarySize _ := by
    rw [CachedRegion.refresh, current]
    split
    case isTrue hg => exact h.boundarySize hg
    case isFalse   => exact nofun

-- The next generation is none that has been before, as long as their numbers do not run out.
theorem Faithful.replaceTree (h : r.Faithful k) (hk : k + 1 < 2 ^ 64) (t : Tree S Bool) :
    (r.replaceTree t).2.Faithful (k + 1) := by
  have hg : (r.generation + 1).toNat = r.generation.toNat + 1 := by
    have := h.bounded
    rw [UInt64.toNat_add, UInt64.toNat_one, Nat.mod_eq_of_lt (by omega)]
  have hn : r.memory.generation ≠ r.generation + 1 := by
    intro he
    have := h.past
    rw [he, hg] at this
    omega
  constructor
  case bounded      => exact hg.trans_le <| Nat.succ_le_succ h.bounded
  case past         => exact h.past.trans (hg ▸ Nat.le_succ _)
  case properties   => exact fun he => absurd he hn
  case boundarySize => exact fun he => absurd he hn

-- Whether a query answers what is computed afresh, and leaves the region as it was but for a memory
-- that is right again.
def Tells (k : Nat) (r : CachedRegion S) (fresh : Except (Violation R) α)
    (result : Except (Violation R) (α × CachedRegion S)) : Prop :=
  ∃ r' : CachedRegion S, r'.region = r.region ∧ r'.Faithful k ∧ result = (·, r') <$> fresh

theorem Tells.map {fresh : Except (Violation R) α}
    {result : Except (Violation R) (α × CachedRegion S)} (h : Tells k r fresh result) (f : α → β) :
    Tells k r (f <$> fresh) ((fun (a, r) => (f a, r)) <$> result) := by
  obtain ⟨r', hr, hf, rfl⟩ := h
  refine ⟨r', hr, hf, ?_⟩
  cases fresh <;> rfl

theorem Faithful.tells_properties (h : r.Faithful k) :
    Tells k r r.region.properties r.properties := by
  have hc := h.refresh
  rw [CachedRegion.properties]
  split
  case h_1 p hp =>
    have hp : r.region.properties = .ok p := hc.properties current_generation p hp
    exact ⟨r.refresh, rfl, hc, by rw [hp]; rfl⟩
  case h_2 =>
    cases hp : r.region.properties
    case error => exact ⟨r.refresh, rfl, hc, rfl⟩
    case ok p =>
      refine ⟨{ r with memory := { r.current with properties := some p } }, rfl, ?_, rfl⟩
      exact { hc with properties := fun _ _ hq => by cases hq; exact hp }

theorem Faithful.tells_boundarySize (h : r.Faithful k) :
    Tells k r r.region.boundarySize r.boundarySize := by
  have hc := h.refresh
  rw [CachedRegion.boundarySize]
  split
  case h_1 x hx =>
    have hx : r.region.boundarySize = .ok x := hc.boundarySize current_generation x hx
    exact ⟨r.refresh, rfl, hc, by rw [hx]; rfl⟩
  case h_2 =>
    cases hx : r.region.boundarySize
    case error => exact ⟨r.refresh, rfl, hc, rfl⟩
    case ok x =>
      refine ⟨{ r with memory := { r.current with boundarySize := some x } }, rfl, ?_, rfl⟩
      exact { hc with boundarySize := fun _ _ hy => by cases hy; exact hx }

theorem Faithful.tells (h : r.Faithful k) (q : Query) :
    Tells k r (r.region.answer q) (r.answer q) := by
  have hp := h.tells_properties
  cases q
  case properties   => exact hp.map _
  case size         => exact (hp.map _).map _
  case barycenter   => exact (hp.map _).map _
  case boundarySize => exact h.tells_boundarySize.map _

-- Regions of a store with what they would be without a memory.
def Mirrors (k : Nat) (rs : List (CachedRegion S)) (plain : List (Region S)) : Prop :=
  rs.map (·.region) = plain ∧ ∀ r ∈ rs, r.Faithful k

variable {rs : List (CachedRegion S)} {plain : List (Region S)} {i : Nat}

theorem Mirrors.getElem? (h : Mirrors k rs plain) : plain[i]? = rs[i]?.map (·.region) := by
  rw [← h.1, List.getElem?_map]

theorem Mirrors.set (h : Mirrors k rs plain) (hk : k ≤ k') (hr : r.Faithful k') :
    Mirrors k' (rs.set i r) (plain.set i r.region) := by
  refine ⟨by rw [← h.1, List.map_set], fun r' hm => ?_⟩
  rcases List.mem_or_eq_of_mem_set hm with hm | rfl
  case inl => exact (h.2 r' hm).mono hk
  case inr => exact hr

theorem Mirrors.set_self (h : Mirrors k rs plain) {r' : CachedRegion S} (hi : rs[i]? = some r)
    (he : r'.region = r.region) (hr : r'.Faithful k) : Mirrors k (rs.set i r') plain := by
  have hp : plain.set i r'.region = plain := by
    have hi : plain[i]? = some r.region := by rw [h.getElem?, hi, Option.map_some]
    have ⟨hl, hi⟩ := List.getElem?_eq_some_iff.mp hi
    rw [he, ← hi, List.set_getElem_self]
  exact hp ▸ h.set (Nat.le_refl k) hr

theorem Mirrors.copy (h : Mirrors k rs plain) :
    Mirrors k (rs ++ rs[i]?.toList) (plain ++ plain[i]?.toList) := by
  refine ⟨?regions, fun r hm => ?faithful⟩
  case regions => rw [List.map_append, h.getElem?, h.1]; cases rs[i]? <;> rfl
  case faithful =>
    rcases List.mem_append.mp hm with hm | hm
    case inl => exact h.2 r hm
    case inr => exact h.2 r <| List.mem_of_getElem? <| Option.mem_toList.mp hm

-- What one event does to a store, it does to the regions without memories.
theorem Mirrors.step (h : Mirrors k rs plain) (e : Event S)
    (hk : k + [e].countP Event.isReplace < 2 ^ 64) :
    (CachedRegion.step e rs).1 = (Region.step e plain).1 ∧
      Mirrors (k + [e].countP Event.isReplace) (CachedRegion.step e rs).2
        (Region.step e plain).2 := by
  cases e
  case ask i q =>
    cases hi : rs[i]? <;> simp only [CachedRegion.step, Region.step, h.getElem?, hi]
    case none => exact ⟨rfl, h⟩
    case some r =>
      have hf := h.2 r <| List.mem_of_getElem? hi
      have ⟨r', hr, hf', ha⟩ := hf.tells q
      simp only [ha, Option.map_some]
      cases r.region.answer q
      case error => exact ⟨rfl, h.set_self hi rfl hf.refresh⟩
      case ok    => exact ⟨rfl, h.set_self hi hr hf'⟩
  case replace i t =>
    cases hi : rs[i]? <;> simp only [CachedRegion.step, Region.step, h.getElem?, hi]
    case none => exact ⟨rfl, h.1, fun r hm => (h.2 r hm).mono (Nat.le_add_right ..)⟩
    case some r =>
      have hf := h.2 r <| List.mem_of_getElem? hi
      exact ⟨rfl, h.set (Nat.le_add_right ..) (hf.replaceTree hk t)⟩
  case copy i => exact ⟨rfl, h.copy⟩

theorem Mirrors.answers (h : Mirrors k rs plain) {es : List (Event S)}
    (hk : k + es.countP Event.isReplace < 2 ^ 64) :
    Event.answers CachedRegion.step es rs = Event.answers Region.step es plain := by
  induction es generalizing k rs plain
  case nil => rfl
  case cons e es hi =>
    rw [← List.singleton_append, List.countP_append, ← Nat.add_assoc] at hk
    have ⟨ha, hm⟩ := h.step e <| Nat.lt_of_le_of_lt (Nat.le_add_right ..) hk
    rw [Event.answers, Event.answers, ha, hi hm hk]

-- However a region and its copies are queried, changed and copied, every answer is the one that is
-- computed from the tree that the queried region has by then.
theorem answers_ofRegion (r : Region S) (es : List (Event S))
    (h : es.countP Event.isReplace < 2 ^ 64) :
    Event.answers step es [ofRegion r] = Event.answers Region.step es [r] := by
  have hm : Mirrors 0 [ofRegion r] [r] :=
    ⟨rfl, fun r' hr => List.mem_singleton.mp hr ▸ faithful_ofRegion r⟩
  exact hm.answers <| (Nat.zero_add _).symm ▸ h

-- The copy still knows the size of the whole line after the region has become empty.
theorem answers_ofRegion_of_replaced :
    let whole : Region (line (Exact ℚ)) := .whole (.finite 1)
    let es : List (Event (line (Exact ℚ))) := [.ask 0 .size, .copy 0,
      .replace 0 (.leaf (some false)), .ask 0 .boundarySize, .ask 0 .size, .ask 1 .size]
    es.countP Event.isReplace < 2 ^ 64 ∧ Event.answers step es [ofRegion whole] =
      [.ok (.number Scalar.infinity), .ok (.tree whole.tree), .ok (.number (-0)), .ok (.number 0),
        .ok (.number Scalar.infinity)] := by
  intro whole es
  have h : es.countP Event.isReplace < 2 ^ 64 := by decide
  exact ⟨h, answers_ofRegion whole es h⟩

end CachedRegion
end SpacePartition
