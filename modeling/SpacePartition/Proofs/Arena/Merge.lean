import SpacePartition.Node.Merge
import SpacePartition.Proofs.Arena.Insert

/-!
Merging of held partitions. The partition that comes out is made of the nodes of both and of new
ones, and is one that the partitions may be merged into.
-/

namespace SpacePartition

variable {R : Type} {S : Space R} {α σ ε : Type}

theorem Node.bare_refit {ι : Type} {n : Node S ι α} {cell : Cell S} :
    (n.refit cell).bare = n.bare.refit cell := by
  cases n <;> rfl

namespace Arena

variable {a a' : Arena S α} {X : Nat → Prop}
variable {up place : Option Slot} {cell : Cell S} {forks : List Nat} {p q : Option Nat}
variable {n o m near far : Node S Nat α} {i k : Nat} {s t : Option α} {c : S.Sub} {b : Branch}

-- Whether two partitions are held that share no node with each other or with the forks above a
-- slot.
structure Meet (a : Arena S α) (place : Option Slot) (cell : Cell S) (forks : List Nat)
    (p q : Option Nat) (n o : Node S Nat α) : Prop where
  walls  : a.Above place cell forks
  ours   : a.Holds p n
  theirs : a.Holds q o
  nodup  : n.ids.Nodup ∧ o.ids.Nodup
  apart  : ∀ j ∈ n.ids, j ∉ o.ids
  below  : ∀ j, j ∈ n.ids ∨ j ∈ o.ids → j ∉ forks
  vacant : a.Vacant place (a.Free fun j => j ∈ n.ids ∨ j ∈ o.ids)

theorem Meet.symm (h : a.Meet place cell forks p q n o) : a.Meet place cell forks q p o n where
  walls  := h.walls
  ours   := h.theirs
  theirs := h.ours
  nodup  := h.nodup.symm
  apart j ho hn := h.apart j hn ho
  below j hj := h.below j hj.symm
  vacant := by simpa only [or_comm] using h.vacant

theorem Vacant.mono {X Y : Nat → Prop} (h : a.Vacant place Y) (hX : ∀ j, X j → Y j) :
    a.Vacant place X :=
  fun q hq c l r p t he hl => h q hq c l r p t he (hX l hl)

theorem Meet.vacant_id (h : a.Meet place cell forks p q n o) : a.Vacant place (· = n.id) :=
  h.vacant.mono fun _ hj _ => .inl (hj ▸ n.id_mem_ids)

theorem Meet.reworks (h : a.Meet place cell forks p q n o) (hr : Reworks a p n a' m) :
    a'.Meet place cell forks p q m o where
  walls  := hr.evolves.above h.walls fun j hf hj => h.below j (.inl hj) hf
  ours   := hr.holds
  theirs := hr.spares h.theirs fun j ho hn => h.apart j hn ho
  nodup  := ⟨hr.nodup, h.nodup.2⟩
  apart j hj := h.apart j (hr.subset hj)
  below j hj := h.below j <| hj.imp_left fun hj => hr.subset hj
  vacant := by
    intro k hk c l r p t he hf
    cases hk
    have hw := h.walls.mem
    have hlt := h.walls.lt hw
    have he := (hr.evolves.same <|
      not_free.mpr ⟨hlt, fun hj => h.below k (.inl hj) hw⟩).symm.trans he
    refine h.vacant k rfl c l r p t he fun hlt => ?_
    exact (hf <| hlt.trans_le hr.evolves.size_le).imp_left fun hj => hr.subset hj

-- Whether an arena has one of some partitions in a slot, made of given nodes and of new ones.
def Brings (a : Arena S α) (X : Nat → Prop) (place : Option Slot) (cell : Cell S) (forks : List Nat)
    (results : SetM (Node S Unit α)) (root : Nat) (a' : Arena S α) : Prop :=
  ∃ m : Node S Nat α, m.id = root ∧ Places a X place cell forks a' m ∧ m.bare ∈ results.run

-- Whether a merger puts into the slot what may take the place of a leaf and the node that faces it.
def Merger.Acts (merger : Merger S α σ ε) (decide : SpacePartition.Merger S Unit α SetM) : Prop :=
  ∀ ⦃a : Arena S α⦄ ⦃place cell forks p q i t⦄ ⦃n : Node S Nat α⦄ ⦃fromInstance⦄,
    a.Meet place cell forks p q (.leaf i t) n → (merger i n.id place fromInstance).Yields a
      (Brings a (fun j => j ∈ (Node.leaf i t : Node S Nat α).ids ∨ j ∈ n.ids) place cell forks
        (decide ⟨(), t, n.bare, cell, fromInstance⟩))

theorem Places.after {Y Z : Nat → Prop} {a₁ a₂ : Arena S α} (h : Places a₁ Z place cell forks a₂ m)
    (ev : a.Evolves Y a₁) (hu : a.Above place cell forks) (hY : ∀ j ∈ forks, ¬Y j)
    (hZ : ∀ j, Z j → a.Free Y j) : Places a Y place cell forks a₂ m where
  located  := h.located
  madeOf   := ev.madeOf hZ h.madeOf
  evolves  := by
    refine (ev.mono fun j hj => .inl hj).trans h.evolves fun j hj hlt => ?_
    exact hj.imp_left fun hj => hZ j hj hlt
  attaches := by
    have ha := h.attaches
    cases place
    case none => trivial
    case some => rwa [Attaches, ev.same <| not_free.mpr ⟨hu.lt hu.mem, hY _ hu.mem⟩] at ha

-- A side of a located fork may be replaced by what has been placed there.
theorem Places.fork (h : Places a X (some (k, b)) (⟨c, b⟩ :: cell) (k :: forks) a' m)
    (hl : a.Located up cell forks (.forkOn k s c b near far))
    (hX : ∀ j, X j → j ∉ far.ids ∧ j ∉ k :: forks) :
    a'.Located up cell forks (.forkOn k s c b m far) := by
  obtain ⟨hk, -, hfar⟩ := holds_forkOn.mp hl.holds
  obtain ⟨-, nf, -, -, hkf⟩ := Node.nodup_forkOn.mp hl.nodup
  have hkn := hl.apart k Node.id_mem_ids
  have hY : ∀ j, X j ∨ some k = some j → j ∉ far.ids ∧ j ∉ forks := by
    intro j hj
    rcases hj with hj | hj
    case inl => exact ⟨(hX j hj).1, fun h => (hX j hj).2 <| List.mem_cons_of_mem _ h⟩
    case inr => cases hj; exact ⟨hkf, hkn⟩
  have hf : ∀ j ∈ forks, ¬(X j ∨ some k = some j) := fun j hj h => (hY j h).2 hj
  have hmf : ∀ j ∈ m.ids, j ∉ far.ids := h.madeOf.apart hfar fun j hj hx => (hX j hx).1 hj
  have hma : ∀ j ∈ m.ids, j ≠ k ∧ j ∉ forks := fun j hj => by
    simpa using h.located.apart j hj
  refine ⟨h.evolves.above hl.walls hf, h.evolves.hangs hl.walls hf hl.hangs,
    holds_forkOn.mpr ⟨?entry, h.located.holds,
      h.evolves.holds hfar fun j hj h => (hY j h).1 hj⟩, ?nodup, ?apart⟩
  case entry =>
    have ha := h.attaches
    rw [Attaches, hk] at ha
    cases b <;> exact ha
  case nodup =>
    exact Node.nodup_forkOn.mpr ⟨h.located.nodup, nf, hmf, fun hj => (hma k hj).1 rfl, hkf⟩
  case apart =>
    intro j hj
    rcases Node.mem_ids_forkOn.mp hj with hj | hj | rfl
    case inl     => exact (hma j hj).2
    case inr.inl => exact hl.apart j <| Node.mem_ids_forkOn.mpr <| .inr <| .inl hj
    case inr.inr => exact hkn

section Sides

variable {l r u v m' : Node S Nat α} {a₁ : Arena S α}

theorem Meet.outside (h : a.Meet place cell forks p q n o) :
    ∀ j ∈ n.ids, ¬(j ∈ o.ids ∨ place.map Prod.fst = some j) := by
  rintro j hj (ho | hp)
  case inl => exact h.apart j hj ho
  case inr =>
    cases place <;> cases hp
    exact h.below _ (.inl hj) h.walls.mem

-- Of two partitions that meet, one is spared by what takes the place of the other.
theorem Meet.spared (h : a.Meet place cell forks p q n o)
    (h₁ : Places a (· ∈ o.ids) place cell forks a₁ m) :
    a₁.Holds p n ∧ ∀ j ∈ n.ids, j ∉ m.ids ∧ j ∉ forks := by
  have hm : ∀ j ∈ m.ids, j ∉ n.ids := h₁.madeOf.apart h.ours h.apart
  exact ⟨h₁.evolves.holds h.ours h.outside,
    fun j hj => ⟨fun hjm => hm j hjm hj, h.below j (.inl hj)⟩⟩

-- A partition meets the near side of a fork that it shares no node with.
theorem Located.meet (hk : a.Located place cell forks (.forkOn k s c b near far)) (hn : a.Holds p n)
    (nn : n.ids.Nodup) (hd : ∀ j ∈ n.ids, j ∉ (Node.forkOn k s c b near far).ids ∧ j ∉ forks) :
    a.Meet (some (k, b)) (⟨c, b⟩ :: cell) (k :: forks) p (some k) n near := by
  simp only [Node.mem_ids_forkOn, not_or] at hd
  have hb : a.Located (some (k, b)) (⟨c, b⟩ :: cell) (k :: forks) near := by
    cases b
    case plus  => exact hk.plus
    case minus => exact hk.minus
  refine ⟨hb.walls, hn, hb.holds, ⟨nn, hb.nodup⟩, fun j hj => (hd j hj).1.1, ?below, ?vacant⟩
  case below =>
    rintro j (hj | hj)
    case inl => exact List.not_mem_cons_of_ne_of_not_mem (hd j hj).1.2.2 (hd j hj).2
    case inr => exact hb.apart j hj
  case vacant =>
    rintro q hq c' l' r' p' t' he hf
    cases hq
    cases hk.holds.1.symm.trans he
    obtain ⟨-, -, hnf, -⟩ := Node.nodup_forkOn.mp hk.nodup
    rcases hf (hk.plus.holds.lt far.id_mem_ids) with hj | hj
    case inl => exact (hd _ hj).1.2.1 far.id_mem_ids
    case inr => exact hnf _ hj far.id_mem_ids

section Fork

variable (hn : a.Holds p (.fork i t c l r)) (nn : (Node.fork i t c l r).ids.Nodup)
variable (hk : a.Located place cell forks (.fork k s c u v))
variable (hd : ∀ j ∈ (Node.fork i t c l r).ids, j ∉ (Node.fork k s c u v).ids ∧ j ∉ forks)

include hn nn hk hd

theorem Located.meet_plus :
    a.Meet (some (k, .plus)) (⟨c, .plus⟩ :: cell) (k :: forks) (some i) (some k) l u :=
  Located.meet (b := .plus) hk hn.2.1 (Node.nodup_fork.mp nn).1 fun j hj =>
    hd j <| Node.mem_ids_fork.mpr <| .inl hj

section Plus

variable (h : Places a (fun j => j ∈ l.ids ∨ j ∈ u.ids) (some (k, .plus)) (⟨c, .plus⟩ :: cell)
  (k :: forks) a₁ m)

include h

omit hk in
theorem Places.apart_minus : ∀ j ∈ m.ids, j ∉ r.ids := by
  obtain ⟨-, -, hlr, -, -⟩ := Node.nodup_fork.mp nn
  simp only [Node.mem_ids_fork, not_or] at hd
  exact h.madeOf.apart hn.2.2 (by grind)

-- The minus sides meet after something has taken the place of the plus sides.
theorem Places.meet_minus : a₁.Located place cell forks (.fork k s c m v) ∧
    a₁.Meet (some (k, .minus)) (⟨c, .minus⟩ :: cell) (k :: forks) (some i) (some k) r v := by
  have hmr := h.apart_minus hn nn hd
  obtain ⟨-, nr, hlr, -, -⟩ := Node.nodup_fork.mp nn
  obtain ⟨-, -, huv, hku, hkv⟩ := Node.nodup_fork.mp hk.nodup
  have hka := hk.apart
  simp only [Node.mem_ids_fork, not_or] at hd hka
  have hk₁ : a₁.Located place cell forks (.fork k s c m v) := h.fork (b := .plus) hk (by grind)
  have hr₁ : a₁.Holds (some i) r := h.evolves.holds hn.2.2 (by grind)
  refine ⟨hk₁, Located.meet (b := .minus) hk₁ hr₁ nr fun j hj => ?_⟩
  simp only [Node.mem_ids_forkOn, not_or]
  grind

theorem Places.fork_sides (h' : Places a₁ (fun j => j ∈ r.ids ∨ j ∈ v.ids) (some (k, .minus))
    (⟨c, .minus⟩ :: cell) (k :: forks) a' m') :
    a'.Located place cell forks (.fork k s c m m') := by
  have hmr := h.apart_minus hn nn hd
  obtain ⟨hk₁, hr⟩ := h.meet_minus hn nn hk hd
  have hb := hr.below
  obtain ⟨-, -, hmv, -, hkv⟩ := Node.nodup_fork.mp hk₁.nodup
  exact h'.fork (b := .minus) hk₁ (by grind)

end Plus

end Fork

end Sides

namespace Action

open Index

theorem yields_refit (hl : a.Located up cell forks n) :
    (refit n.id : Action S α σ ε Unit).Yields a fun _ a' =>
      Reworks a (up.map Prod.fst) n a' (n.refit cell) := by
  have hr := reworks_refl hl.holds hl.nodup
  cases n
  case leaf => exact yields_bind <| yields_entry hl.holds <| yields_pure hr
  case fork i t c l r =>
    refine yields_bind <| yields_entry hl.holds.1 <| yields_bind ?_
    refine yields_fit hl.walls hl.holds.1 rfl hl.hangs ?_
    rw [Node.refit]
    cases cell.fit (S.whole (S.hyperplane c))
    case none => exact yields_pure hr
    case some => exact yields_setCut hl.holds hl.nodup

variable [DecidableEq α] {merger : Merger S α σ ε} {decide : SpacePartition.Merger S Unit α SetM}

-- Whether a partition may be merged with any other one.
def Mergeable (merger : Merger S α σ ε) (decide : SpacePartition.Merger S Unit α SetM)
    (n : Node S Nat α) : Prop :=
  ∀ ⦃a : Arena S α⦄ ⦃place cell forks p q⦄ ⦃o : Node S Nat α⦄, a.Meet place cell forks p q n o →
    (mergeNodes merger n.id o.id place).Yields a
      (Brings a (fun j => j ∈ n.ids ∨ j ∈ o.ids) place cell forks (n.bare.merge decide cell o.bare))

variable {l r u v : Node S Nat α}

theorem yields_mergeSides {z : Action S α σ ε Nat} {Q : Nat → Arena S α → Prop}
    (hl : Mergeable merger decide l) (hr : Mergeable merger decide r)
    (hn : a.Holds p (.fork i t c l r)) (nn : (Node.fork i t c l r).ids.Nodup)
    (hk : a.Located place cell forks (.fork k s c u v))
    (hd : ∀ j ∈ (Node.fork i t c l r).ids, j ∉ (Node.fork k s c u v).ids ∧ j ∉ forks)
    (hX : ∀ j, j ∈ (Node.fork i t c l r).ids ∨ j ∈ (Node.fork k s c u v).ids → X j)
    (hz : ∀ {a' m m'}, a'.Located place cell forks (.fork k s c m m') →
      a.MadeOf X (.fork k s c m m') → a.Evolves X a' →
      m.bare ∈ (l.bare.merge decide (⟨c, .plus⟩ :: cell) u.bare).run →
      m'.bare ∈ (r.bare.merge decide (⟨c, .minus⟩ :: cell) v.bare).run → z.Yields a' Q) :
    (do
      let _ ← mergeNodes merger l.id u.id (some (k, .plus))
      let _ ← mergeNodes merger r.id v.id (some (k, .minus))
      z : Action S α σ ε Nat).Yields a Q := by
  simp only [Node.mem_ids_fork] at hX
  refine yields_bind <| (hl <| hk.meet_plus hn nn hd).imp ?_
  intro _ a₁ h₁
  obtain ⟨m₁, rfl, h₁, hm₁⟩ := h₁
  obtain ⟨hk₁, h₁r⟩ := h₁.meet_minus hn nn hk hd
  refine yields_bind <| (hr h₁r).imp ?_
  intro _ a₂ h₂
  obtain ⟨m₂, rfl, h₂, hm₂⟩ := h₂
  have hk₂ : a₂.Located place cell forks (.fork k s c m₁ m₂) := h₁.fork_sides hn nn hk hd h₂
  have ev₁ : a.Evolves X a₁ := h₁.evolves.mono (by grind)
  refine hz hk₂ (fun j hj => ?madeOf) (ev₁.trans h₂.evolves fun j hj _ => ?evolves) hm₁ hm₂
  case madeOf =>
    rcases Node.mem_ids_fork.mp hj with hj | hj | rfl
    case inl     => exact fun hlt => by have := h₁.madeOf j hj hlt; grind
    case inr.inl => exact ev₁.free (by grind [Free]) (h₂.madeOf j hj)
    case inr.inr => exact fun _ => hX j (by grind)
  case evolves => grind

omit [DecidableEq α] in
theorem yields_forM_setChild (hu : a.Above place cell forks) (hn : a.Holds none n)
    (nn : n.ids.Nodup) (ha : ∀ j ∈ n.ids, j ∉ forks) (hv : a.Vacant place (· = n.id)) :
    (place.forM fun slot => setChild slot.1 slot.2 n.id : Action S α σ ε Unit).Yields a fun _ a' =>
      Places a (· ∈ n.ids) place cell forks a' n := by
  cases place
  case some => exact (yields_hang hu hn nn ha hv).imp fun _ _ h => h.1
  case none =>
    cases hu
    exact yields_pure ⟨⟨.root, trivial, hn, nn, ha⟩, fun j hj _ => hj, evolves_refl, trivial⟩

theorem yields_splitIn (h : a.Meet place cell forks p q n o) :
    (splitIn o.id c place : Action S α σ ε Nat).Yields a fun root a' => ∃ halves : Halves S Nat α,
      halves.id = root ∧ halves.bare = o.bare.split c ∧
        Places a (· ∈ o.ids) place cell forks a' (halves.close c) := by
  have hfo : ∀ j ∈ forks, j ∉ o.ids := fun j hj ho => h.below j (.inr ho) hj
  refine yields_bind <| (yields_split h.theirs h.nodup.2).imp fun root a₁ h₁ => ?_
  obtain ⟨halves, rfl, hb, holds, nodup, made, ev⟩ := h₁
  have ha : ∀ j ∈ (halves.close c).ids, j ∉ forks :=
    fun j hj hf => hfo j hf <| made j hj <| h.walls.lt hf
  have hv : a₁.Vacant place (· = halves.id) := by
    intro q hq c' l r p' t he hi
    cases hq
    have hw := h.walls.mem
    have he := (ev.same <| not_free.mpr ⟨h.walls.lt hw, hfo q hw⟩).symm.trans he
    exact h.vacant q rfl c' l r p' t he fun hlt => .inr <| made l (hi ▸ Node.id_mem_ids) hlt
  refine yields_bind <| (yields_forM_setChild (ev.above h.walls hfo) holds nodup ha hv).imp ?_
  exact fun _ a₂ h₂ => yields_pure ⟨halves, rfl, hb, h₂.after ev h.walls hfo made⟩

theorem yields_finish (h : Places a X place cell forks a' m) :
    (do
      condense m.id
      refit m.id
      return m.id : Action S α σ ε Nat).Yields a' fun root a'' => ∃ m' : Node S Nat α,
        m'.id = root ∧ Places a X place cell forks a'' m' ∧
          m'.bare = m.bare.condense.refit cell := by
  refine yields_bind <| (yields_condense h.located.holds h.located.nodup).imp fun _ a₁ h₁ => ?_
  have h := h.reworks h₁
  have hr := yields_refit (σ := σ) (ε := ε) h.located
  rw [h₁.id] at hr
  refine yields_bind <| hr.imp fun _ a₂ h₂ => yields_pure ⟨_, h₂.id.trans h₁.id, h.reworks h₂, ?_⟩
  rw [Node.bare_refit, Node.bare_condense]

theorem yields_mergeNodes (hm : merger.Acts decide) : Mergeable merger decide n := by
  induction n
  case leaf i t =>
    intro a place cell forks p q o h
    rw [mergeNodes, Node.bare_leaf, Node.merge]
    exact yields_bind <| yields_children_leaf h.ours <| hm h
  case fork i t c l r hl hr =>
    intro a place cell forks p q o h
    rw [mergeNodes]
    refine yields_bind <| yields_children_fork h.ours.1 <| yields_bind ?_
    cases o
    case leaf j x =>
      refine yields_isLeaf_leaf h.theirs ?_
      refine (hm h.symm).imp fun root a₁ h₁ => ?_
      simp only [or_comm] at h₁
      exact h₁
    case fork j x c' l' r' =>
      refine yields_isLeaf_fork h.theirs.1 <| yields_bind <| yields_cut h.ours.1 <| yields_bind ?_
      refine (yields_splitIn h).imp fun root a₁ h₁ => ?_
      obtain ⟨halves, rfl, hb, h₁⟩ := h₁
      obtain ⟨hn₁, hd⟩ := h.spared h₁
      refine yields_bind <| yields_twoChildren h₁.located.holds.1 ?_
      refine yields_mergeSides hl hr hn₁ h.nodup.1 h₁.located
        (X := fun j => j ∈ (Node.fork i t c l r).ids ∨ j ∈ (halves.close c).ids)
        hd (fun _ hj => hj) ?_
      intro a₂ m m' hl₂ made₂ ev₂ hm hm'
      have hX : ∀ k, k ∈ (Node.fork i t c l r).ids ∨ k ∈ (halves.close c).ids →
          a.Free (fun k => k ∈ (Node.fork i t c l r).ids ∨ k ∈ (Node.fork j x c' l' r').ids) k :=
        fun k hk hlt => hk.imp_right fun hk => h₁.madeOf k hk hlt
      have h₂ := (h₁.mono fun _ hj => .inr hj).evolve ev₂ hX (fun k hf hk => hk.elim
        (fun hn => (hd k hn).2 hf) fun ho => h₁.located.apart k ho hf) hl₂
        (h₁.evolves.madeOf hX made₂) rfl
      refine (yields_finish h₂).imp fun root a₃ h₃ => ?_
      obtain ⟨m₃, hid, h₃, hm₃⟩ := h₃
      refine ⟨m₃, hid, h₃, ?_⟩
      simp only [Node.bare_fork, Node.merge, SetM.mem_run_bind]
      rw [← Node.bare_fork (i := j), ← hb, hm₃]
      exact ⟨m.bare, hm, m'.bare, hm', SetM.mem_run_pure.mpr rfl⟩

end Action
end Arena
end SpacePartition
