import SpacePartition.Node.Lemmas
import SpacePartition.Node.Merge

/-!
Fitting and merging without effects. A handler that only chooses an attribute has no use for the
monad it runs in, and neither has a merger that only chooses a node: what they make of a partition
is a function of it. A handler that is never asked has no part in it at all.
-/

namespace Except

variable {ε β γ : Type} {x : Except ε β}

theorem bind_eq_ok {f : β → Except ε γ} {z : γ} :
    x >>= f = .ok z ↔ ∃ y, x = .ok y ∧ f y = .ok z := by
  cases x <;> simp [bind, Except.bind]

theorem map_eq_ok {f : β → γ} {z : γ} : f <$> x = .ok z ↔ ∃ y, x = .ok y ∧ f y = z := by
  cases x <;> simp [Functor.map, Except.map]

end Except

namespace SpacePartition

variable {R : Type} {S : Space R} {ι α : Type}

-- Chooses the attribute of the leaf that replaces a fork without cut.
abbrev Choice (S : Space R) (ι α : Type) :=
  Cell S → Node S ι α → Option α

namespace Node

variable {m : Type → Type} [Monad m] [LawfulMonad m]

def trim (choose : Choice S ι α) (h : S.Hyperplane) (keep : Branch) (cell : Cell S)
    (n : Node S ι α) : Node S ι α :=
  Id.run (n.chop (fun cell n => pure (choose cell n)) h keep cell)

@[simp]
theorem trim_leaf {choose : Choice S ι α} {h keep cell i a} :
    (leaf i a).trim choose h keep cell = leaf i a :=
  rfl

theorem trim_fork {choose : Choice S ι α} {h keep cell i a cut p m} :
    (fork i a cut p m).trim choose h keep cell =
      let p := p.trim choose h keep (⟨cut, .plus⟩ :: cell)
      let m := m.trim choose h keep (⟨cut, .minus⟩ :: cell)
      match (S.split cut h).on keep with
      | some part => fork i a part p m
      | none      => leaf i (choose cell (fork i a cut p m)) := by
  simp only [trim, chop]
  split <;> simp_all

theorem chop_pure (choose : Choice S ι α) (h keep cell) (n : Node S ι α) :
    n.chop (fun cell n => (pure (choose cell n) : m _)) h keep cell =
      pure (n.trim choose h keep cell) := by
  induction n generalizing cell
  case leaf => rfl
  case fork cut _ _ hp hm =>
    rw [chop, hp, hm, trim_fork]
    simp only [pure_bind]
    split <;> simp_all

def trimAll (choose : Choice S ι α) (cell walls : Cell S) (n : Node S ι α) : Node S ι α :=
  walls.foldl (fun n wall => n.trim choose (S.hyperplane wall.cut) wall.side cell) n

@[simp]
theorem trimAll_leaf {choose : Choice S ι α} {cell walls i a} :
    (leaf i a).trimAll choose cell walls = leaf i a := by
  induction walls <;> simp_all [trimAll]

theorem trimAll_cons {choose : Choice S ι α} {cell : Cell S} {wall walls} {n : Node S ι α} :
    n.trimAll choose cell (wall :: walls) =
      (n.trim choose (S.hyperplane wall.cut) wall.side cell).trimAll choose cell walls :=
  rfl

theorem chopAll_pure (choose : Choice S ι α) (cell walls) (n : Node S ι α) :
    n.chopAll (fun cell n => (pure (choose cell n) : m _)) cell walls =
      pure (n.trimAll choose cell walls) := by
  induction walls generalizing n
  case nil => rfl
  case cons wall _ hi =>
    rw [chopAll, chop_pure, pure_bind, trimAll_cons]
    split
    case h_1 h => rw [h, trimAll_leaf]
    case h_2   => exact hi _

theorem leafAttrs_refit {cell : Cell S} {n : Node S ι α} :
    (n.refit cell).leafAttrs = n.leafAttrs := by
  cases n <;> rfl

variable [DecidableEq α]

def placeIn (choose : Choice S ι α) (cell : Cell S) (n : Node S ι α) : Node S ι α :=
  condense (n.trimAll choose cell cell)

theorem insertIn_pure (choose : Choice S ι α) (cell) (n : Node S ι α) :
    n.insertIn (fun cell n => (pure (choose cell n) : m _)) cell =
      pure (n.placeIn choose cell) := by
  simp [insertIn, chopAll_pure, placeIn]

variable [Inhabited ι]

def mergeBy (place : Encounter S ι α → Node S ι α) (cell : Cell S) (n other : Node S ι α) :
    Node S ι α :=
  Id.run (n.merge (fun e => pure (place e)) cell other)

theorem mergeBy_fork_fork {place : Encounter S ι α → Node S ι α}
    {cell i a cut p m j b cut' p' m'} :
    (fork i a cut p m).mergeBy place cell (fork j b cut' p' m') =
      let h := (fork j b cut' p' m').split cut
      refit cell (condense (fork h.id h.attr cut
        (p.mergeBy place (⟨cut, .plus⟩ :: cell) h.plus)
        (m.mergeBy place (⟨cut, .minus⟩ :: cell) h.minus))) :=
  rfl

-- The leaves of both partitions with the nodes they face, in the order in which a merger meets
-- them.
def encounters : Cell S → Node S ι α → Node S ι α → List (Encounter S ι α)
  | cell, leaf i a, other => [⟨i, a, other, cell, true⟩]
  | cell, fork i a cut p m, leaf j b => [⟨j, b, fork i a cut p m, cell, false⟩]
  | cell, fork _ _ cut p m, other@(fork ..) =>
    p.encounters (⟨cut, .plus⟩ :: cell) (other.split cut).plus ++
    m.encounters (⟨cut, .minus⟩ :: cell) (other.split cut).minus

theorem merge_pure {merger : Merger S ι α m} {place : Encounter S ι α → Node S ι α}
    {cell} {n other : Node S ι α} (h : ∀ e ∈ n.encounters cell other, merger e = pure (place e)) :
    n.merge merger cell other = pure (n.mergeBy place cell other) := by
  fun_induction encounters cell n other
  case case1 => exact h _ (List.mem_singleton_self _)
  case case2 => exact h _ (List.mem_singleton_self _)
  case case3 hp hm =>
    simp only [List.mem_append] at h
    rw [merge, hp fun e he => h e (.inl he), hm fun e he => h e (.inr he)]
    simp only [pure_bind, mergeBy_fork_fork]

-- What is merged has the leaves of what the encounters come to.
theorem mem_leafAttrs_mergeBy {place : Encounter S ι α → Node S ι α} {cell} {n other : Node S ι α}
    {a : Option α} : a ∈ (n.mergeBy place cell other).leafAttrs ↔
      ∃ e ∈ n.encounters cell other, a ∈ (place e).leafAttrs := by
  fun_induction encounters cell n other
  case case1 => simp only [List.mem_singleton, exists_eq_left]; rfl
  case case2 => simp only [List.mem_singleton, exists_eq_left]; rfl
  case case3 hp hm =>
    simp only [mergeBy_fork_fork, leafAttrs_refit, mem_leafAttrs_condense, leafAttrs,
      List.mem_append, hp, hm, or_and_right, exists_or]

end Node

-- Stops whoever asks it.
def Handler.refuse : Handler S ι α (Except Unit) :=
  fun _ _ => throw ()

namespace Node

section Refuse

variable {m : Type → Type} [Monad m] [LawfulMonad m] {cell walls : Cell S} {n n' other : Node S ι α}

theorem chop_eq_pure {h keep} (hn : n.chop .refuse h keep cell = .ok n')
    (vanish : Handler S ι α m) : n.chop vanish h keep cell = pure n' := by
  induction n generalizing cell n'
  case leaf => cases hn; rfl
  case fork cut p q hp hq =>
    simp only [chop, Except.bind_eq_ok] at hn
    obtain ⟨p', hp', q', hq', hn⟩ := hn
    rw [chop, hp hp', hq hq', pure_bind, pure_bind]
    cases hs : (S.split cut h).on keep <;> simp only [hs] at hn
    case none => cases hn
    case some => cases hn; rfl

theorem chopAll_eq_pure (hn : n.chopAll .refuse cell walls = .ok n') (vanish : Handler S ι α m) :
    n.chopAll vanish cell walls = pure n' := by
  induction walls generalizing n n'
  case nil => cases hn; rfl
  case cons wall walls ih =>
    rw [chopAll, Except.bind_eq_ok] at hn
    obtain ⟨c, hc, hn⟩ := hn
    rw [chopAll, chop_eq_pure hc, pure_bind]
    cases c
    case leaf => cases hn; rfl
    case fork => exact ih hn

variable [DecidableEq α]

theorem insertIn_eq_pure (hn : n.insertIn .refuse cell = .ok n') (vanish : Handler S ι α m) :
    n.insertIn vanish cell = pure n' := by
  obtain ⟨c, hc, rfl⟩ := Except.map_eq_ok.mp hn
  rw [insertIn, chopAll_eq_pure hc, map_pure]

theorem insertIn_leaf {i : ι} {a : Option α} (vanish : Handler S ι α m) :
    (leaf i a).insertIn vanish cell = pure (leaf i a) :=
  insertIn_eq_pure (by cases cell <;> rfl) vanish

theorem merge_eq_pure [Inhabited ι] {merger : Merger S ι α (Except Unit)} {merger' : Merger S ι α m}
    (hm : ∀ e k, merger e = .ok k → merger' e = pure k) (hn : n.merge merger cell other = .ok n') :
    n.merge merger' cell other = pure n' := by
  induction n generalizing cell other n'
  case leaf => exact hm _ _ hn
  case fork cut p q hp hq =>
    cases other
    case leaf => exact hm _ _ hn
    case fork =>
      simp only [merge, Except.bind_eq_ok] at hn
      obtain ⟨p', hp', q', hq', hn⟩ := hn
      cases hn
      simp only [merge, hp hp', hq hq', pure_bind]

end Refuse

end Node
end SpacePartition
