import Mathlib.Data.Set.Functor
import SpacePartition.Node.Insert
import SpacePartition.Proofs.Arena.Located

/-!
Fitting a held partition to its cell. What a handler may answer is a set, and so are the partitions
that may come out.
-/

namespace SetM

variable {β γ : Type} {x : SetM β} {f : β → SetM γ} {y y' : β} {z : γ}

theorem mem_run_pure : y ∈ (pure y' : SetM β).run ↔ y = y' :=
  .rfl

theorem mem_run_bind : z ∈ (x >>= f).run ↔ ∃ y ∈ x.run, z ∈ (f y).run := by
  refine Set.mem_iUnion₂.trans ?_
  simp only [exists_prop]
  exact .rfl

theorem mem_run_map {g : β → γ} : z ∈ (g <$> x).run ↔ ∃ y ∈ x.run, g y = z :=
  .rfl

end SetM

namespace SpacePartition

variable {R : Type} {S : Space R} {α σ ε β : Type}

section Chop

variable {vanish : Handler S Unit α SetM} {h : S.Hyperplane} {b : Branch} {cell : Cell S}
variable {t x : Option α} {c part : S.Sub} {l r l' r' : Node S Unit α}

namespace Node

variable (hl : l' ∈ (l.chop vanish h b (⟨c, .plus⟩ :: cell)).run)
variable (hr : r' ∈ (r.chop vanish h b (⟨c, .minus⟩ :: cell)).run)

include hl hr

theorem fork_mem_chop (hs : (S.split c h).on b = some part) :
    fork () t part l' r' ∈ ((fork () t c l r).chop vanish h b cell).run := by
  simp only [chop, SetM.mem_run_bind, hs]
  exact ⟨_, hl, _, hr, SetM.mem_run_pure.mpr rfl⟩

theorem leaf_mem_chop (hs : (S.split c h).on b = none)
    (hx : x ∈ (vanish cell (fork () t c l' r')).run) :
    leaf () x ∈ ((fork () t c l r).chop vanish h b cell).run := by
  simp only [chop, SetM.mem_run_bind, hs]
  exact ⟨_, hl, _, hr, x, hx, SetM.mem_run_pure.mpr rfl⟩

end Node

theorem Node.leaf_mem_chopAll {walls : Cell S} :
    leaf () t ∈ ((leaf () t).chopAll vanish cell walls).run := by
  cases walls
  case nil  => exact SetM.mem_run_pure.mpr rfl
  case cons =>
    rw [chopAll, SetM.mem_run_bind]
    exact ⟨leaf () t, SetM.mem_run_pure.mpr rfl, SetM.mem_run_pure.mpr rfl⟩

end Chop

namespace Arena

variable {a a' : Arena S α} {up : Option Slot} {cell : Cell S} {forks : List Nat} {p : Option Nat}
variable {n m l r l' r' : Node S Nat α} {i : Nat} {t : Option α} {c : S.Sub} {b : Branch}
variable {h : S.Hyperplane} {fix : Handler S α σ ε} {vanish : SpacePartition.Handler S Unit α SetM}

-- Whether a handler only looks at the arena, and has its answers about held partitions among given
-- ones.
def Handler.Answers (fix : Handler S α σ ε)
    (vanish : SpacePartition.Handler S Unit α SetM) : Prop :=
  ∀ ⦃a : Arena S α⦄ ⦃up cell forks n⦄, a.Located up cell forks n → (fix n.id).Yields a fun x a' =>
    a' = a ∧ x ∈ (vanish cell n.bare).run

-- Whether the plus side of a fork, when a slot is on its minus side, is none of given nodes.
def Vacant (a : Arena S α) (place : Option Slot) (X : Nat → Prop) : Prop :=
  ∀ q, place = some (q, .minus) → ∀ c l r p t, a.entries[q]? = some ⟨.fork c l r, p, t⟩ → ¬X l

-- Whether an arena has a node in a slot of another arena.
def Attaches (a : Arena S α) (i : Nat) (a' : Arena S α) : Option Slot → Prop
  | none        => True
  | some (q, b) => a'.entries[q]? = a.entries[q]?.map (.setChild b i)

-- Whether an arena holds a partition in a slot, made of given nodes and of new ones, with no other
-- change.
structure Places (a : Arena S α) (X : Nat → Prop) (place : Option Slot) (cell : Cell S)
    (forks : List Nat) (a' : Arena S α) (m : Node S Nat α) : Prop where
  located  : a'.Located place cell forks m
  madeOf   : a.MadeOf X m
  evolves  : a.Evolves (fun j => X j ∨ place.map Prod.fst = some j) a'
  attaches : a.Attaches m.id a' place

section Places

variable {X Y : Nat → Prop} {place : Option Slot} {a₁ a₂ : Arena S α}

theorem Places.mono (h : Places a X place cell forks a₁ n) (hX : ∀ j, X j → Y j) :
    Places a Y place cell forks a₁ n where
  located     := h.located
  madeOf j hj hlt := hX j <| h.madeOf j hj hlt
  evolves     := h.evolves.mono fun j hj => hj.imp_left <| hX j
  attaches    := h.attaches

theorem Places.evolve (h : Places a X place cell forks a₁ n) (ev : a₁.Evolves Y a₂)
    (hY : ∀ j, Y j → a.Free X j) (hf : ∀ j ∈ forks, ¬Y j) (hl : a₂.Located place cell forks m)
    (hm : a.MadeOf X m) (hi : m.id = n.id) : Places a X place cell forks a₂ m where
  located  := hl
  madeOf   := hm
  evolves  := h.evolves.trans ev fun j hj hlt => .inl (hY j hj hlt)
  attaches := by
    have ha := h.attaches
    have hw := h.located.walls
    cases place
    case none => trivial
    case some => rwa [Attaches, hi, ev.same <| not_free.mpr ⟨hw.lt hw.mem, hf _ hw.mem⟩]

theorem Places.reworks (h : Places a X place cell forks a₁ n)
    (hr : Reworks a₁ (place.map Prod.fst) n a₂ m) : Places a X place cell forks a₂ m :=
  h.evolve hr.evolves h.madeOf (fun j hj hn => h.located.apart j hn hj) (h.located.reworks hr)
    (fun j hj => h.madeOf j (hr.subset hj)) hr.id

end Places

namespace Action

open Index

section Fork

variable (hn : a.Located up cell forks (.fork i t c l r))

include hn

theorem yields_vanish (hf : fix.Answers vanish) :
    (do makeLeaf i (← fix i) : Action S α σ ε Unit).Yields a fun _ a' =>
      ∃ x ∈ (vanish cell (Node.fork i t c l r).bare).run,
        Reworks a (up.map Prod.fst) (.fork i t c l r) a' (.leaf i x) := by
  refine yields_bind <| (hf hn).imp fun x a₁ h₁ => ?_
  obtain ⟨rfl, hx⟩ := h₁
  exact (yields_makeLeaf hn.holds hn.nodup).imp fun _ a₂ h₂ => ⟨x, hx, h₂⟩

-- Both sides of a fork are reworked while the fork still has its cut.
theorem yields_sides {x y : Action S α σ ε Unit} {P : Node S Unit α → Prop}
    {P' : Node S Unit α → Prop} {k : Action S α σ ε β} {Q : β → Arena S α → Prop}
    (hx : x.Yields a fun _ a' => ∃ l', Reworks a (some i) l a' l' ∧ P l'.bare)
    (hy : ∀ {a}, a.Located (some (i, .minus)) (⟨c, .minus⟩ :: cell) (i :: forks) r →
      y.Yields a fun _ a' => ∃ r', Reworks a (some i) r a' r' ∧ P' r'.bare)
    (hk : ∀ {a' l' r'}, Reworks a (up.map Prod.fst) (.fork i t c l r) a' (.fork i t c l' r') →
      P l'.bare → P' r'.bare → k.Yields a' Q) :
    (do
      x
      y
      k : Action S α σ ε β).Yields a Q := by
  refine yields_bind <| hx.imp fun _ a₁ h₁ => yields_bind ?_
  obtain ⟨l', h₁, hl'⟩ := h₁
  have h₁ := h₁.plus hn.holds hn.nodup
  have hn := hn.reworks h₁
  refine (hy hn.minus).imp fun _ a₂ h₂ => ?_
  obtain ⟨r', h₂, hr'⟩ := h₂
  exact hk (h₁.trans <| h₂.minus hn.holds hn.nodup) hl' hr'

end Fork

theorem yields_chop (hf : fix.Answers vanish) (hn : a.Located up cell forks n) :
    (chop fix h b n.id : Action S α σ ε Unit).Yields a fun _ a' =>
      ∃ m, Reworks a (up.map Prod.fst) n a' m ∧ m.bare ∈ (n.bare.chop vanish h b cell).run := by
  induction n generalizing a up cell forks
  case leaf i t =>
    rw [chop]
    refine yields_bind <| yields_children_leaf hn.holds <| yields_pure ?_
    exact ⟨_, reworks_refl hn.holds hn.nodup, SetM.mem_run_pure.mpr rfl⟩
  case fork i t c l r hl hr =>
    rw [chop]
    refine yields_bind <| yields_children_fork hn.holds.1 <| yields_bind <| yields_cut hn.holds.1 ?_
    refine yields_sides hn (hl hn.plus) hr fun {a₁ l' r'} h₁ hl' hr' => ?_
    have hn := hn.reworks h₁
    cases hs : (S.split c h).on b
    case some part =>
      refine (yields_setCut hn.holds hn.nodup).imp fun _ a₂ h₂ => ?_
      exact ⟨_, h₁.trans h₂, Node.fork_mem_chop hl' hr' hs⟩
    case none =>
      refine (yields_vanish hn hf).imp fun _ a₂ h₂ => ?_
      obtain ⟨x, hx, h₂⟩ := h₂
      exact ⟨_, h₁.trans h₂, Node.leaf_mem_chop hl' hr' hs hx⟩

-- The walk up has come to `current`, a node with the walls `walls` around it.
theorem yields_chopAbove {up' : Option Slot} {walls : Cell S} {forks' : List Nat} {current : Nat}
    {e : Entry S α} (hf : fix.Answers vanish) (hn : a.Located up cell forks (.fork i t c l r))
    (hu : a.Above up' walls forks') (hs : forks' ⊆ forks) (he : a.entries[current]? = some e)
    (hp : e.parent = up'.map Prod.fst) (hh : a.Hangs current up') :
    (chopAbove fix i current : Action S α σ ε Unit).Yields a fun _ a' =>
      ∃ m, Reworks a (up.map Prod.fst) (.fork i t c l r) a' m ∧
        m.bare ∈ ((Node.fork i t c l r).bare.chopAll vanish cell walls).run := by
  induction walls generalizing a up' forks' current e c l r
  case nil =>
    cases hu
    rw [chopAbove]
    refine yields_bind <| yields_slot he hp hh <| yields_pure ?_
    exact ⟨_, reworks_refl hn.holds hn.nodup, SetM.mem_run_pure.mpr rfl⟩
  case cons wall walls ih =>
    cases hu
    case wall q b up' c' l' r' t' forks' hq hq' hnq hu =>
    rw [chopAbove]
    refine yields_bind <| yields_slot he hp hh <| yields_bind <| yields_cut hq <| yields_bind ?_
    refine yields_cut hn.holds.1 <| yields_bind <| yields_twoChildren hn.holds.1 ?_
    refine yields_sides hn (yields_chop hf hn.plus) (yields_chop hf) fun {a₁ l' r'} h₁ hl' hr' => ?_
    have hn₁ := hn.reworks h₁
    simp only [Node.chopAll, SetM.mem_run_bind]
    cases hp : (S.split c (S.hyperplane c')).on b
    case some part =>
      refine yields_bind <| (yields_setCut hn₁.holds hn₁.nodup).imp fun _ a₂ h₂ => ?_
      have h₂ := h₁.trans h₂
      have hX : ∀ j ∈ q :: forks', j ∉ (Node.fork i t c l r).ids :=
        fun j hj hi => hn.apart j hi (hs hj)
      have hX' : ∀ j ∈ forks', j ∉ (Node.fork i t c l r).ids :=
        fun j hj => hX j <| List.mem_cons_of_mem _ hj
      have hq := h₂.evolves.entry hq <| hX q List.mem_cons_self
      refine (ih (hn.reworks h₂) (h₂.evolves.above hu hX')
        (fun j hj => hs <| List.mem_cons_of_mem _ hj) hq rfl <|
        h₂.evolves.hangs hu hX' hq').imp fun _ a₃ h₃ => ?_
      obtain ⟨m, h₃, hm⟩ := h₃
      exact ⟨m, h₂.trans h₃, _, Node.fork_mem_chop hl' hr' hp, hm⟩
    case none =>
      refine (yields_vanish hn₁ hf).imp fun _ a₂ h₂ => ?_
      obtain ⟨x, hx, h₂⟩ := h₂
      exact ⟨_, h₁.trans h₂, _, Node.leaf_mem_chop hl' hr' hp hx, SetM.mem_run_pure.mpr rfl⟩

variable {X : Nat → Prop} {place : Option Slot}

theorem yields_hang (hu : a.Above place cell forks) (hn : a.Holds p n) (nn : n.ids.Nodup)
    (ha : ∀ j ∈ n.ids, j ∉ forks) (hv : a.Vacant place (· = n.id)) :
    (hang n.id place : Action S α σ ε Unit).Yields a fun _ a' =>
      Places a (· ∈ n.ids) place cell forks a' n ∧ a'.entries.size = a.entries.size := by
  cases hu
  case root =>
    refine yields_update hn.entry
      ⟨⟨⟨.root, trivial, ?holds, nn, ha⟩, fun j hj _ => hj, ?evolves, trivial⟩, size_put⟩
    case holds   => rw [Node.setParent_entry]; exact hn.hang nn
    case evolves => exact evolves_refl.put fun _ => .inl n.id_mem_ids
  case wall q b up c l r t cell forks hq hq' hnq hu =>
    obtain ⟨hqn, ha'⟩ := forall₂_and.mp fun j hj => not_or.mp <| mt List.mem_cons.mpr <| ha j hj
    have hne : n.id ≠ q := hqn _ n.id_mem_ids
    refine yields_setChild hq hn.entry hne ?_
    rw [Node.setParent_entry]
    set e := (Entry.mk (.fork c l r) (up.map Prod.fst) t).setChild b n.id
    have ev : a.Evolves (fun j => j = n.id ∨ j = q) ((a.put q e).put n.id (n.entry (some q))) :=
      (evolves_refl.put fun _ => .inr rfl).put fun _ => .inl rfl
    have hX : ∀ j ∈ forks, ¬(j = n.id ∨ j = q) := fun j hj he => he.elim
      (fun he => ha' _ n.id_mem_ids (he ▸ hj)) fun he => hnq (he ▸ hj)
    have hq₁ : ((a.put q e).put n.id (n.entry (some q))).entries[q]? = some e :=
      (entry_put_of_ne hne.symm).trans <| entry_put_self <| lt_of_entry hq
    have hu₁ := ev.above hu hX
    have hq₁' := ev.hangs hu hX hq'
    refine ⟨⟨⟨?walls, ?hangs, (hn.put fun hj => hqn q hj rfl).hang nn, nn, ha⟩, fun j hj _ => hj,
      ?evolves, ?attaches⟩, size_put.trans size_put⟩
    case walls =>
      cases b
      case plus  => exact .wall hq₁ hq₁' hnq hu₁
      case minus => exact .wall hq₁ hq₁' hnq hu₁
    case hangs =>
      cases b
      case plus  => exact ⟨c, n.id, r, _, t, hq₁, (if_pos rfl).symm⟩
      case minus => exact ⟨c, l, n.id, _, t, hq₁, (if_neg <| hv q rfl c l r _ t hq).symm⟩
    case evolves =>
      refine ev.mono fun j hj => ?_
      rcases hj with rfl | rfl
      case inl => exact .inl n.id_mem_ids
      case inr => exact .inr rfl
    case attaches =>
      rw [Attaches, hq₁, hq]
      rfl

theorem yields_insertIn [DecidableEq α] (hf : fix.Answers vanish) (hu : a.Above place cell forks)
    (hn : a.Holds p n) (nn : n.ids.Nodup) (ha : ∀ j ∈ n.ids, j ∉ forks)
    (hv : a.Vacant place (· = n.id)) :
    (insertIn fix n.id place : Action S α σ ε Unit).Yields a fun _ a' =>
      ∃ m, m.id = n.id ∧ Places a (· ∈ n.ids) place cell forks a' m ∧
        m.bare ∈ (n.bare.insertIn vanish cell).run ∧ a'.entries.size = a.entries.size := by
  refine yields_bind <| (yields_hang hu hn nn ha hv).imp fun _ a₁ h₁ => ?_
  obtain ⟨h₁, hs⟩ := h₁
  have hn := h₁.located
  cases n
  case leaf i t =>
    refine yields_bind <| yields_isLeaf_leaf hn.holds <| yields_pure ⟨_, rfl, h₁, ?_, hs⟩
    exact SetM.mem_run_map.mpr ⟨_, Node.leaf_mem_chopAll, rfl⟩
  case fork i t c l r =>
    refine yields_bind <| yields_isLeaf_fork hn.holds.1 <| yields_bind ?_
    refine (yields_chopAbove hf hn hn.walls (List.Subset.refl _) hn.holds.1 rfl hn.hangs).imp ?_
    intro _ a₂ h₂
    obtain ⟨m, h₂, hm⟩ := h₂
    have hp := h₁.reworks h₂
    have hc := yields_condense (σ := σ) (ε := ε) hp.located.holds hp.located.nodup
    rw [h₂.id] at hc
    refine hc.imp fun _ a₃ h₃ => ⟨_, h₃.id.trans h₂.id, hp.reworks h₃, ?_,
      h₃.size.trans <| h₂.size.trans hs⟩
    exact SetM.mem_run_map.mpr ⟨_, hm, Node.bare_condense.symm⟩

end Action
end Arena
end SpacePartition
