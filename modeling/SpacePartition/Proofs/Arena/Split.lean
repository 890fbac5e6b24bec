import SpacePartition.Proofs.Arena.Reworks
import SpacePartition.Proofs.Node.Split

/-!
Splitting in an arena. The arena holds the halves that the split of the partition has, made of the
nodes of the partition and of new ones.
-/

namespace SpacePartition

variable {R : Type} {S : Space R} {α σ ε : Type}

namespace Node

variable {ι : Type} {near far l r : Node S ι α} {i : ι} {t : Option α} {c sub : S.Sub} {b : Branch}

theorem nodup_forkOn : (forkOn i t c b near far).ids.Nodup ↔
    near.ids.Nodup ∧ far.ids.Nodup ∧ (∀ j ∈ near.ids, j ∉ far.ids) ∧
      i ∉ near.ids ∧ i ∉ far.ids := by
  cases b
  case plus  => exact nodup_fork
  case minus =>
    refine nodup_fork.trans ?_
    simp only [Branch.pick]
    grind

theorem mem_ids_forkOn {j : ι} :
    j ∈ (forkOn i t c b near far).ids ↔ j ∈ near.ids ∨ j ∈ far.ids ∨ j = i := by
  cases b
  case plus  => exact mem_ids_fork
  case minus => exact mem_ids_fork.trans or_left_comm

theorem bare_forkOn : (forkOn i t c b near far).bare = forkOn () t c b near.bare far.bare := by
  cases b <;> rfl

end Node

namespace Halves

variable {ι : Type} {h : Halves S ι α} {sub : S.Sub} {b : Branch}

def bare (h : Halves S ι α) : Halves S Unit α :=
  ⟨(), h.attr, h.plus.bare, h.minus.bare⟩

theorem bare_modify {f : Node S ι α → Node S ι α} {g : Node S Unit α → Node S Unit α}
    (hf : ∀ n, (f n).bare = g n.bare) : (h.modify b f).bare = h.bare.modify b g := by
  cases b <;> simp [modify, bare, hf]

theorem close_eq_forkOn : h.close sub = .forkOn h.id h.attr sub b (h.on b) (h.on b.flip) := by
  cases b <;> rfl

theorem close_modify {f : Node S ι α → Node S ι α} :
    (h.modify b f).close sub = .forkOn h.id h.attr sub b (f (h.on b)) (h.on b.flip) := by
  cases b <;> rfl

end Halves

-- Where the cut of a fork is cut off, the fork goes with the half on the minus side.
theorem Node.split_near [DecidableEq α] {l r : Node S Unit α} {t : Option α} {c sub : S.Sub}
    {b : Branch} (hs : (S.split sub (S.hyperplane c)).side = b.side) :
    (fork () t c l r).split sub = ((b.pick l r).split sub).modify
      (S.split c (S.hyperplane sub)).side.half
      fun near => (forkOn () t c b near (b.pick r l)).condense := by
  rw [split]
  generalize S.split sub (S.hyperplane c) = parts at hs
  obtain ⟨_ | _, _ | _⟩ := parts <;> cases b <;> cases hs
  all_goals cases (S.split c (S.hyperplane sub)).side <;> rfl

section Split

variable [DecidableEq α] {l r : Node S Unit α} {t : Option α} {c c₁ c₂ sub : S.Sub}

theorem Node.split_both (hs : S.split sub (S.hyperplane c) = ⟨some c₁, some c₂⟩) :
    (fork () t c l r).split sub =
      ⟨(), none,
        condense <| .fork () (l.split c₁).attr ((S.split c (S.hyperplane sub)).plus.getD c)
          (l.split c₁).plus (r.split c₂).plus,
        condense <| .fork () (r.split c₂).attr ((S.split c (S.hyperplane sub)).minus.getD c)
          (l.split c₁).minus (r.split c₂).minus⟩ := by
  rw [split, hs]

theorem Node.split_within_eq (hs : S.split sub (S.hyperplane c) = ⟨none, none⟩) :
    (fork () t c l r).split sub =
      if S.sameOrientation (S.hyperplane c) (S.hyperplane sub) then ⟨(), t, l, r⟩
      else ⟨(), t, r, l⟩ := by
  rw [split, hs]

end Split

namespace Arena

variable {a a' : Arena S α} {p q : Option Nat} {n l r near near' far rest : Node S Nat α}
variable {i k : Nat} {s t : Option α} {c sub : S.Sub} {b : Branch}

theorem holds_forkOn : a.Holds p (.forkOn i t c b near far) ↔
    a.entries[i]? = some ⟨.fork c (b.pick near.id far.id) (b.pick far.id near.id), p, t⟩ ∧
      a.Holds (some i) near ∧ a.Holds (some i) far := by
  cases b
  case plus  => exact .rfl
  case minus => exact and_congr_right fun _ => and_comm

theorem Reworks.fork (hr : Reworks a (some i) near a' near')
    (h : a.Holds p (.forkOn i t c b near far)) (hn : (Node.forkOn i t c b near far).ids.Nodup) :
    Reworks a p (.forkOn i t c b near far) a' (.forkOn i t c b near' far) := by
  cases b
  case plus  => exact hr.plus h hn
  case minus => exact hr.minus h hn

-- Whether an arena holds the halves of a split, made of given nodes and of new ones.
structure Splits (a : Arena S α) (X : Nat → Prop) (sub : S.Sub) (halves : Halves S Unit α)
    (root : Nat) (a' : Arena S α) (p : Option Nat) (h : Halves S Nat α) : Prop where
  id      : h.id = root
  bare    : h.bare = halves
  holds   : a'.Holds p (h.close sub)
  nodup   : (h.close sub).ids.Nodup
  madeOf  : a.MadeOf X (h.close sub)
  evolves : a.Evolves X a'

namespace Action

open Index

theorem yields_reparent (h : a.Holds p n) (hn : n.ids.Nodup) :
    (update n.id (.setParent q) : Action S α σ ε Unit).Yields a fun _ a' =>
      a'.Holds q n ∧ a.Evolves (· = n.id) a' := by
  refine yields_update h.entry ?_
  rw [Node.setParent_entry]
  exact ⟨h.hang hn, evolves_refl.put fun _ => rfl⟩

-- A fork gets a held partition as a child. The child that it had there before may be anything.
theorem yields_setChild_node {l₀ r₀ : Nat} (hi : a.entries[i]? = some ⟨.fork c l₀ r₀, p, t⟩)
    (h : a.Holds q n) (hn : n.ids.Nodup) (hf : a.Holds (some i) far) (hfar : far.id = b.pick r₀ l₀)
    (hd : ∀ j ∈ n.ids, j ∉ far.ids) (hin : i ∉ n.ids) (hif : i ∉ far.ids) :
    (setChild i b n.id : Action S α σ ε Unit).Yields a fun _ a' =>
      a'.Holds p (.forkOn i t c b n far) ∧ a.Evolves (fun j => j = i ∨ j = n.id) a' := by
  have hne : n.id ≠ i := fun he => hin (he ▸ Node.id_mem_ids)
  have hd : n.id ∉ far.ids := hd _ Node.id_mem_ids
  refine yields_setChild hi h.entry hne ?_
  rw [Node.setParent_entry]
  have hc := (h.put (e := (Entry.mk (.fork c l₀ r₀) p t).setChild b n.id) hin).hang (q := some i) hn
  have hf := (hf.put (e := (Entry.mk (.fork c l₀ r₀) p t).setChild b n.id) hif).put
    (e := n.entry (some i)) hd
  have he := (entry_put_of_ne (e := n.entry (some i)) hne.symm).trans <|
    entry_put_self (e := (Entry.mk (.fork c l₀ r₀) p t).setChild b n.id) (lt_of_entry hi)
  refine ⟨?_, (evolves_refl.put fun _ => .inl rfl).put fun _ => .inr rfl⟩
  cases b
  case plus  => exact ⟨hfar ▸ he, hc, hf⟩
  case minus => exact ⟨hfar ▸ he, hf, hc⟩

theorem yields_addFork (hl : a.Holds p l) (hr : a.Holds q r) (nl : l.ids.Nodup) (nr : r.ids.Nodup)
    (hd : ∀ j ∈ l.ids, j ∉ r.ids) : (addFork c l.id r.id t : Action S α σ ε Nat).Yields a
      fun root a' => root = a.entries.size ∧ a'.Holds none (.fork root t c l r) ∧
        (Node.fork root t c l r).ids.Nodup ∧ a.Evolves (fun j => j = l.id ∨ j = r.id) a' := by
  have hil : a.entries.size ∉ l.ids := fun hi => (hl.lt hi).false
  have hir : a.entries.size ∉ r.ids := fun hi => (hr.lt hi).false
  refine yields_bind <| yields_add <| yields_bind ?_
  refine (yields_reparent hl.push nl).imp fun _ a₁ h => yields_bind ?_
  obtain ⟨hl₁, h₁⟩ := h
  have hr₁ := h₁.holds hr.push fun j hj he => hd _ Node.id_mem_ids (he ▸ hj)
  refine (yields_reparent hr₁ nr).imp fun _ a₂ h => yields_pure ?_
  obtain ⟨hr₂, h₂⟩ := h
  have hl₂ := h₂.holds hl₁ fun j hj he => hd j hj (he ▸ Node.id_mem_ids)
  refine ⟨rfl, ⟨?entry, hl₂, hr₂⟩, Node.nodup_fork.mpr ⟨nl, nr, hd, hil, hir⟩, ?evolves⟩
  case entry =>
    refine h₂.entry (h₁.entry entry_push_self fun he => ?plus) fun he => ?minus
    case plus  => exact hil (he ▸ Node.id_mem_ids)
    case minus => exact hir (he ▸ Node.id_mem_ids)
  case evolves =>
    refine (evolves_refl.push.trans h₁ fun j hj _ => .inl hj).trans h₂ fun j hj _ => .inr hj

section Graft

variable [DecidableEq α] {side : Side} {l₀ r₀ : Nat}

theorem yields_graft (hk : a.Holds none (.forkOn k s sub side.half near rest))
    (nk : (Node.forkOn k s sub side.half near rest).ids.Nodup)
    (hi : a.entries[i]? = some ⟨.fork c l₀ r₀, p, t⟩) (hf : a.Holds (some i) far)
    (nf : far.ids.Nodup) (hfar : far.id = b.pick r₀ l₀)
    (hik : i ∉ (Node.forkOn k s sub side.half near rest).ids) (hif : i ∉ far.ids)
    (hd : ∀ j ∈ (Node.forkOn k s sub side.half near rest).ids, j ∉ far.ids) :
    (graft k i b side : Action S α σ ε Unit).Yields a fun _ a' =>
      let m := Node.forkOn k s sub side.half (Node.forkOn i t c b near far).condense rest
      a'.Holds none m ∧ m.ids.Nodup ∧
        (∀ j ∈ m.ids, j = i ∨ j ∈ (Node.forkOn k s sub side.half near rest).ids ∨ j ∈ far.ids) ∧
        a.Evolves (fun j => j = i ∨ j ∈ (Node.forkOn k s sub side.half near rest).ids ∨ j ∈ far.ids)
          a' := by
  obtain ⟨hroot, hn, hr⟩ := holds_forkOn.mp hk
  obtain ⟨nn, nr, hnr, hkn, hkr⟩ := Node.nodup_forkOn.mp nk
  simp only [Node.mem_ids_forkOn, not_or] at hik hd ⊢
  obtain ⟨hin, hir, hik⟩ := hik
  have hnear : side.half.pick (side.half.pick near.id rest.id) (side.half.pick rest.id near.id) =
      near.id := by
    cases side.half <;> rfl
  have nG : (Node.forkOn i t c b near far).ids.Nodup :=
    Node.nodup_forkOn.mpr ⟨nn, nf, fun j hj => hd j (.inl hj), hin, hif⟩
  have hG : ∀ j ∈ (Node.forkOn i t c b near far).ids, j ∉ rest.ids ∧ j ≠ k := by
    simp only [Node.mem_ids_forkOn]
    grind
  refine yields_bind <| yields_twoChildren hroot <| yields_bind ?_
  rw [hnear]
  -- First the node gets the half, and then the split gets the node.
  refine (yields_setChild_node hi hn nn hf hfar (fun j hj => hd j (.inl hj)) hin hif).imp ?_
  intro _ a₁ h₁
  obtain ⟨hi₁, h₁⟩ := h₁
  have hr₁ := h₁.holds hr fun j hj he => he.elim (fun he => hir (he ▸ hj))
    fun he => hnr _ Node.id_mem_ids (he ▸ hj)
  have hroot₁ := h₁.entry hroot fun he => he.elim (fun he => hik he.symm)
    fun he => hkn (he ▸ Node.id_mem_ids)
  refine yields_bind <| (yields_setChild_node hroot₁ hi₁ nG hr₁ ?rest (fun j hj => (hG j hj).1)
    (fun hk => (hG k hk).2 rfl) hkr).imp ?_
  case rest => cases side.half <;> rfl
  intro _ a₂ h₂
  obtain ⟨hk₂, h₂⟩ := h₂
  have nk₂ : (Node.forkOn k s sub side.half (Node.forkOn i t c b near far) rest).ids.Nodup :=
    Node.nodup_forkOn.mpr ⟨nG, nr, fun j hj => (hG j hj).1, fun hk => (hG k hk).2 rfl, hkr⟩
  refine (yields_condense (holds_forkOn.mp hk₂).2.1 nG).imp fun _ a₃ h₃ => ?_
  have h₃ := h₃.fork hk₂ nk₂
  refine ⟨h₃.holds, h₃.nodup, fun j hj => ?subset, ?evolves⟩
  case subset =>
    have hj := h₃.subset (Node.mem_ids_forkOn.mpr hj)
    simp only [Node.mem_ids_forkOn] at hj
    grind
  case evolves =>
    have hX : ∀ j, j = i ∨ j = near.id →
        j = i ∨ (j ∈ near.ids ∨ j ∈ rest.ids ∨ j = k) ∨ j ∈ far.ids := by
      have := near.id_mem_ids
      grind
    refine ((h₁.mono hX).trans h₂ fun j hj _ => ?hung).trans h₃.evolves fun j hj _ => ?condensed
    case hung => rcases hj with rfl | rfl <;> simp
    case condensed =>
      simp only [Node.mem_ids_forkOn] at hj
      grind

end Graft

section Pair

variable {n₁ n₂ n₃ n₄ : Node S Nat α} {c₁ c₂ c₃ c₄ : S.Sub}
variable (hi : a.Holds none (.fork i s c₁ n₁ n₂)) (hk : a.Holds none (.fork k t c₂ n₃ n₄))
variable (ni : (Node.fork i s c₁ n₁ n₂).ids.Nodup) (nk : (Node.fork k t c₂ n₃ n₄).ids.Nodup)
variable (hd : ∀ j ∈ (Node.fork i s c₁ n₁ n₂).ids, j ∉ (Node.fork k t c₂ n₃ n₄).ids)

include hi hk ni nk hd

theorem yields_swap : (swap i k : Action S α σ ε Unit).Yields a fun _ a' =>
    a'.Holds none (.fork i s c₁ n₁ n₃) ∧ a'.Holds none (.fork k t c₂ n₂ n₄) ∧
      a.Evolves (fun j => j = i ∨ j = k ∨ j = n₂.id ∨ j = n₃.id) a' := by
  obtain ⟨ei, h₁, h₂⟩ := hi
  obtain ⟨ek, h₃, h₄⟩ := hk
  obtain ⟨nn₁, nn₂, hd₁₂, hi₁, hi₂⟩ := Node.nodup_fork.mp ni
  obtain ⟨nn₃, nn₄, hd₃₄, hk₃, hk₄⟩ := Node.nodup_fork.mp nk
  simp only [Node.mem_ids_fork, not_or] at hd
  obtain ⟨hi₃, hi₄, hik⟩ := hd i <| .inr <| .inr rfl
  have hd₁ j (hj : j ∈ n₁.ids) := hd j <| .inl hj
  have hd₂ j (hj : j ∈ n₂.ids) := hd j <| .inr <| .inl hj
  have hid₂ := n₂.id_mem_ids
  have hid₃ := n₃.id_mem_ids
  refine yields_bind <| yields_twoChildren ei <| yields_bind <| yields_twoChildren ek ?_
  refine yields_bind <| (yields_setChild_node ei h₃ nn₃ h₁ rfl (fun j h₃ h₁ => (hd₁ j h₁).1 h₃) hi₃
    hi₁).imp ?_
  intro _ a₁ h
  obtain ⟨h₁₃, ev₁⟩ := h
  have ek := ev₁.entry ek (by grind)
  have h₂ := ev₁.holds h₂ (by grind)
  have h₄ := ev₁.holds h₄ (by grind)
  refine (yields_setChild_node ek h₂ nn₂ h₄ rfl (fun j hj => (hd₂ j hj).2.1)
    (fun hk => (hd₂ k hk).2.2 rfl) hk₄).imp ?_
  intro _ a₂ h
  obtain ⟨h₂₄, ev₂⟩ := h
  have hd₁₃ : ∀ j ∈ (Node.forkOn i s c₁ .minus n₃ n₁).ids, ¬(j = k ∨ j = n₂.id) := by
    simp only [Node.mem_ids_forkOn]
    grind
  refine ⟨ev₂.holds h₁₃ hd₁₃, h₂₄, (ev₁.mono ?_).trans ev₂ fun j hj _ => ?_⟩ <;> grind

theorem yields_pair [DecidableEq α] {X : Nat → Prop}
    (hX : ∀ j, j ∈ (Node.fork i s c₁ n₁ n₂).ids ∨ j ∈ (Node.fork k t c₂ n₃ n₄).ids → X j) :
    (pair sub c₃ c₄ i k : Action S α σ ε Nat).Yields a fun root a' => ∃ m,
      m = .fork root none sub (.condense <| .fork i s c₃ n₁ n₃) (.condense <| .fork k t c₄ n₂ n₄) ∧
        a'.Holds none m ∧ m.ids.Nodup ∧ a.MadeOf X m ∧ a.Evolves X a' := by
  obtain ⟨nn₁, nn₂, hd₁₂, hi₁, hi₂⟩ := Node.nodup_fork.mp ni
  obtain ⟨nn₃, nn₄, hd₃₄, hk₃, hk₄⟩ := Node.nodup_fork.mp nk
  refine yields_bind <| (yields_swap hi hk ni nk hd).imp fun _ a₁ h₁ => ?_
  obtain ⟨hi, hk, ev₁⟩ := h₁
  simp only [Node.mem_ids_fork, not_or] at hd hX
  have hid₂ := n₂.id_mem_ids
  have hid₃ := n₃.id_mem_ids
  have ni : (Node.fork i s c₁ n₁ n₃).ids.Nodup := Node.nodup_fork.mpr (by grind)
  have nk : (Node.fork k t c₂ n₂ n₄).ids.Nodup := Node.nodup_fork.mpr (by grind)
  have hXi : ∀ j ∈ (Node.fork i s c₁ n₁ n₃).ids, X j := by
    simp only [Node.mem_ids_fork]
    grind
  have hXk : ∀ j ∈ (Node.fork k t c₂ n₂ n₄).ids, X j := by
    simp only [Node.mem_ids_fork]
    grind
  have hd : ∀ j ∈ (Node.fork i s c₁ n₁ n₃).ids, j ∉ (Node.fork k t c₂ n₂ n₄).ids := by
    simp only [Node.mem_ids_fork]
    grind
  have ev₁ : a.Evolves X a₁ := ev₁.mono (by grind)
  -- Each half is reworked while the other one waits.
  refine yields_bind <| (yields_setCut hi ni).imp fun _ a₂ h₂ => yields_bind ?_
  refine (yields_setCut (h₂.spares hk fun j hk hi => hd j hi hk) nk).imp
    fun _ a₃ h₃ => yields_bind ?_
  refine (yields_condense (h₃.spares h₂.holds hd) ni).imp fun _ a₄ h₄ => yields_bind ?_
  refine (yields_condense (h₄.spares h₃.holds fun j hk hi => hd j hi hk) nk).imp fun _ a₅ h₅ => ?_
  have hi := h₅.spares h₄.holds fun j hi hk => hd j (h₄.subset hi) hk
  have hr := yields_addFork (σ := σ) (ε := ε) (c := sub) (t := none) hi h₅.holds h₄.nodup h₅.nodup
    fun j hi hk => hd j (h₄.subset hi) (h₅.subset hk)
  rw [h₄.id, h₅.id] at hr
  refine hr.imp fun root a₆ h₆ => ?_
  obtain ⟨rfl, hroot, nroot, ev₆⟩ := h₆
  have ev₃ := (ev₁.trans h₂.evolves fun j hj _ => hXi j hj).trans h₃.evolves fun j hj _ => hXk j hj
  have ev₅ := (ev₃.trans h₄.evolves fun j hj _ => hXi j hj).trans h₅.evolves fun j hj _ => hXk j hj
  refine ⟨_, rfl, hroot, nroot, fun j hj => ?madeOf, ev₅.trans ev₆ fun j hj _ => ?evolves⟩
  case madeOf =>
    rcases Node.mem_ids_fork.mp hj with hj | hj | rfl
    case inl     => exact fun _ => hXi j (h₄.subset hj)
    case inr.inl => exact fun _ => hXk j (h₅.subset hj)
    case inr.inr => exact free_of_size_le ev₅.size_le
  case evolves =>
    rcases hj with rfl | rfl
    case inl => exact hXi _ Node.id_mem_ids
    case inr => exact hXk _ Node.id_mem_ids

end Pair

section Recut

variable (h : a.Holds p (.fork i t c l r)) (hn : (Node.fork i t c l r).ids.Nodup)

include h hn

theorem yields_recut {same : Bool} :
    (recut i l.id r.id sub same : Action S α σ ε Unit).Yields a fun _ a' =>
      Reworks a p (.fork i t c l r) a' (if same then .fork i t sub l r else .fork i t sub r l) := by
  refine yields_bind <| (yields_setCut h hn).imp fun _ a₁ h₁ => ?_
  cases same
  case true  => exact yields_pure h₁
  case false =>
    obtain ⟨nl, nr, hd, hil, hir⟩ := Node.nodup_fork.mp hn
    obtain ⟨ei, hl, hr⟩ := h₁.holds
    have hrl : r.id ∉ l.ids := fun hj => hd _ hj r.id_mem_ids
    have hlr : l.id ∉ r.ids := hd _ l.id_mem_ids
    have hri : r.id ≠ i := fun he => hir (he ▸ r.id_mem_ids)
    have hli : l.id ≠ i := fun he => hil (he ▸ l.id_mem_ids)
    -- In between the fork has one side twice.
    refine yields_bind <| yields_setChild ei hr.entry hri ?_
    rw [Node.setParent_entry]
    have hl := (hl.put hil (e := ⟨.fork sub r.id r.id, p, t⟩)).put hrl (e := r.entry (some i))
    have hr := (hr.put hir (e := ⟨.fork sub r.id r.id, p, t⟩)).hang nr (q := some i)
    have ei : _ = some (Entry.mk (.fork sub r.id r.id) p t) := (entry_put_of_ne
      (e := r.entry (some i)) hri.symm).trans <| entry_put_self (a := a₁) (lt_of_entry ei)
    refine yields_setChild ei hl.entry hli ?_
    rw [Node.setParent_entry]
    refine ⟨⟨?entry, (hr.put hir).put hlr, (hl.put hil).hang nl⟩, ?nodup, fun j hj => ?subset, rfl,
      ?evolves, ?size⟩
    case entry   => exact (entry_put_of_ne hli.symm).trans <| entry_put_self (lt_of_entry ei)
    case nodup   => exact Node.nodup_fork.mpr ⟨nr, nl, fun j hr hl => hd j hl hr, hir, hil⟩
    case subset  =>
      exact Node.mem_ids_fork.mpr <| or_left_comm.mp <| Node.mem_ids_fork.mp hj
    case evolves =>
      refine (((h₁.evolves.put fun _ => ?_).put fun _ => ?_).put fun _ => ?_).put fun _ => ?_
      all_goals exact Node.mem_ids_fork.mpr (by simp [Node.id_mem_ids])
    case size => simp only [size_put, h₁.size]

end Recut

section Split

variable [DecidableEq α]

theorem yields_split_leaf (h : a.Holds p (.leaf i t)) :
    (split i sub : Action S α σ ε Nat).Yields a fun root a' =>
      ∃ h, Splits a (· ∈ (Node.leaf i t : Node S Nat α).ids) sub
        ((Node.leaf () t).split sub) root a' none h := by
  have hi := lt_of_entry h
  have hnew : a.Free (· ∈ (Node.leaf i t : Node S Nat α).ids) a.entries.size :=
    free_of_size_le le_rfl
  rw [split]
  refine yields_bind <| yields_children_leaf h <| yields_bind <| yields_entry h <| yields_bind ?_
  refine yields_add <| (yields_addFork (l := .leaf i t) (r := .leaf a.entries.size t) h.push
    entry_push_self (List.nodup_singleton _) (List.nodup_singleton _) ?apart).imp ?_
  case apart => simp [Node.ids, hi.ne]
  intro root a₁ h₁
  obtain ⟨rfl, hroot, nroot, ev⟩ := h₁
  refine ⟨⟨_, none, .leaf i t, .leaf a.entries.size t⟩, rfl, rfl, hroot, nroot, fun j hj => ?ids,
    evolves_refl.push.trans ev fun j hj => ?evolves⟩
  case ids =>
    rcases Node.mem_ids_fork.mp hj with hj | hj | rfl
    case inl     => exact fun _ => hj
    case inr.inl => exact List.mem_singleton.mp hj ▸ hnew
    case inr.inr => exact free_of_size_le <| (Nat.le_succ _).trans_eq size_push.symm
  case evolves =>
    rcases hj with rfl | rfl
    case inl => exact fun _ => Node.id_mem_ids
    case inr => exact hnew

section Fork

variable {side : Side} {halves halves' : Halves S Unit α}

theorem yields_split_near (h : a.Holds p (.forkOn i t c b near far))
    (hn : (Node.forkOn i t c b near far).ids.Nodup)
    (hs : (split near.id sub : Action S α σ ε Nat).Yields a fun root a' =>
      ∃ h, Splits a (· ∈ near.ids) sub halves root a' none h) :
    (do
      let root ← split near.id sub
      graft root i b side
      pure root : Action S α σ ε Nat).Yields a fun root a' =>
        ∃ h, Splits a (· ∈ (Node.forkOn i t c b near far).ids) sub
          (halves.modify side.half fun near => (Node.forkOn () t c b near far.bare).condense)
          root a' none h := by
  obtain ⟨ei, hnear, hfar⟩ := holds_forkOn.mp h
  obtain ⟨nn, nf, hd, hin, hif⟩ := Node.nodup_forkOn.mp hn
  refine yields_bind <| hs.imp fun root a₁ h₁ => ?_
  obtain ⟨h₁, rfl, rfl, holds, nodup, madeOf, ev⟩ := h₁
  have hdf := madeOf.apart hfar fun j hj hn => hd j hn hj
  have hih : i ∉ (h₁.close sub).ids := fun hj => hin <| madeOf i hj <| lt_of_entry ei
  have hX : ∀ j, j = i ∨ j ∈ (h₁.close sub).ids ∨ j ∈ far.ids →
      a.Free (· ∈ (Node.forkOn i t c b near far).ids) j := by
    intro j hj hlt
    have := madeOf j
    simp only [Node.mem_ids_forkOn]
    grind [Free]
  have ei := ev.entry ei hin
  have hfar := ev.holds hfar fun j hj hn => hd j hn hj
  rw [Halves.close_eq_forkOn (b := side.half)] at holds nodup hdf hih hX
  refine yields_bind <| (yields_graft holds nodup ei hfar nf ?id hih hif hdf).imp fun _ a₂ h₂ => ?_
  case id => cases b <;> rfl
  obtain ⟨holds, nodup, hm, ev₂⟩ := h₂
  refine yields_pure ⟨h₁.modify side.half fun near => (Node.forkOn i t c b near far).condense,
    ?root, ?bare, ?holds, ?nodup, ?madeOf, ?evolves⟩
  case root    => cases side.half <;> rfl
  case bare    =>
    exact Halves.bare_modify fun _ => Node.bare_condense.trans <| congrArg _ Node.bare_forkOn
  case holds   => rwa [Halves.close_modify]
  case nodup   => rwa [Halves.close_modify]
  case madeOf  => rw [Halves.close_modify]; exact fun j hj => hX j (hm j hj)
  case evolves =>
    refine (ev.mono fun j hj => ?_).trans ev₂ hX
    exact Node.mem_ids_forkOn.mpr (.inl hj)

theorem yields_split_both {c₁ c₂ c₃ c₄ : S.Sub} (h : a.Holds p (.fork i t c l r))
    (hn : (Node.fork i t c l r).ids.Nodup)
    (hl : (split l.id c₁ : Action S α σ ε Nat).Yields a fun root a' =>
      ∃ h, Splits a (· ∈ l.ids) c₁ halves root a' none h)
    (hr : ∀ {a}, a.Holds (some i) r → (split r.id c₂ : Action S α σ ε Nat).Yields a fun root a' =>
      ∃ h, Splits a (· ∈ r.ids) c₂ halves' root a' none h) :
    (do
      let plus ← split l.id c₁
      let minus ← split r.id c₂
      pair sub c₃ c₄ plus minus : Action S α σ ε Nat).Yields a fun root a' =>
        ∃ h, Splits a (· ∈ (Node.fork i t c l r).ids) sub
          ⟨(), none, .condense <| .fork () halves.attr c₃ halves.plus halves'.plus,
            .condense <| .fork () halves'.attr c₄ halves.minus halves'.minus⟩ root a' none h := by
  obtain ⟨ei, hpl, hmi⟩ := h
  obtain ⟨nl, nr, hd, hil, hir⟩ := Node.nodup_fork.mp hn
  refine yields_bind <| hl.imp fun root a₁ h₁ => ?_
  obtain ⟨h₁, rfl, rfl, hold₁, nod₁, made₁, ev₁⟩ := h₁
  refine yields_bind <| (hr <| ev₁.holds hmi fun j hr hl => hd j hl hr).imp fun root a₂ h₂ => ?_
  obtain ⟨h₂, rfl, rfl, hold₂, nod₂, made₂, ev₂⟩ := h₂
  have hd₁ := made₁.apart hmi fun j hr hl => hd j hl hr
  have hd₂ := made₂.apart hold₁ hd₁
  have ev₁ : a.Evolves (· ∈ (Node.fork i t c l r).ids) a₁ :=
    ev₁.mono fun j hj => Node.mem_ids_fork.mpr (.inl hj)
  have hr : ∀ j ∈ r.ids, a.Free (· ∈ (Node.fork i t c l r).ids) j :=
    fun j hj _ => Node.mem_ids_fork.mpr (.inr <| .inl hj)
  refine (yields_pair (ev₂.holds hold₁ hd₁) hold₂ nod₁ nod₂ (fun j h₁ h₂ => hd₂ j h₂ h₁)
    (X := fun j => j ∈ (h₁.close c₁).ids ∨ j ∈ (h₂.close c₂).ids) fun _ hj => hj).imp ?_
  intro root a₃ h₃
  obtain ⟨_, rfl, holds, nodup, madeOf, ev₃⟩ := h₃
  have hX : ∀ j, j ∈ (h₁.close c₁).ids ∨ j ∈ (h₂.close c₂).ids →
      a.Free (· ∈ (Node.fork i t c l r).ids) j := by
    intro j hj
    rcases hj with hj | hj
    case inl => exact fun hlt => Node.mem_ids_fork.mpr (.inl <| made₁ j hj hlt)
    case inr => exact ev₁.free hr (made₂ j hj)
  have ev := ev₁.trans ev₂ hr
  refine ⟨⟨root, none, _, _⟩, rfl, ?bare, holds, nodup, ev.madeOf hX madeOf, ev.trans ev₃ hX⟩
  case bare => exact congrArg₂ (Halves.mk () none) Node.bare_condense Node.bare_condense

end Fork

-- The halves are those of the split of the partition.
theorem yields_split (h : a.Holds p n) (hn : n.ids.Nodup) :
    (split n.id sub : Action S α σ ε Nat).Yields a fun root a' =>
      ∃ h, Splits a (· ∈ n.ids) sub (n.bare.split sub) root a' none h := by
  induction n generalizing a p sub
  case leaf i t =>
    exact yields_split_leaf h
  case fork i t c l r hl hr =>
    obtain ⟨nl, nr, -⟩ := Node.nodup_fork.mp hn
    rw [split]
    refine yields_bind <| yields_children_fork h.1 <| yields_bind <|
      yields_cut h.1 <| yields_bind ?_
    refine Yields.imp (P := fun root a' => ∃ q h, Splits a (· ∈ (Node.fork i t c l r).ids) sub
      ((Node.fork i t c l r).bare.split sub) root a' q h) ?inner ?outer
    case outer =>
      intro root a₁ h₁
      obtain ⟨q, h₁, rfl, bare, holds, nodup, madeOf, ev⟩ := h₁
      refine yields_bind <| (yields_reparent holds nodup).imp fun _ a₂ h₂ => yields_pure ?_
      refine ⟨h₁, rfl, bare, h₂.1, nodup, madeOf, ev.trans h₂.2 fun j hj => ?_⟩
      exact hj ▸ madeOf _ Node.id_mem_ids
    case inner =>
      rcases hs : S.split sub (S.hyperplane c) with ⟨_ | c₁, _ | c₂⟩
      case some.none =>
        refine (yields_split_near (b := .plus) h hn (hl h.2.1 nl)).imp fun _ _ h₁ => ⟨none, ?_⟩
        rwa [Node.bare_fork, Node.split_near (b := .plus) (hs ▸ rfl)]
      case none.some =>
        refine (yields_split_near (b := .minus) h hn (hr h.2.2 nr)).imp fun _ _ h₁ => ⟨none, ?_⟩
        rwa [Node.bare_fork, Node.split_near (b := .minus) (hs ▸ rfl)]
      case some.some =>
        refine (yields_split_both h hn (hl h.2.1 nl) fun h => hr h nr).imp fun _ _ h₁ => ⟨none, ?_⟩
        rwa [Node.bare_fork, Node.split_both hs]
      case none.none =>
        refine yields_bind <| (yields_recut h hn).imp fun _ a₁ h₁ => yields_pure ⟨p, ?_⟩
        rw [Node.bare_fork, Node.split_within_eq hs]
        generalize S.sameOrientation (S.hyperplane c) (S.hyperplane sub) = same at h₁ ⊢
        cases same
        case true =>
          exact ⟨⟨i, t, l, r⟩, rfl, rfl, h₁.holds, h₁.nodup, fun j hj _ => h₁.subset hj, h₁.evolves⟩
        case false =>
          exact ⟨⟨i, t, r, l⟩, rfl, rfl, h₁.holds, h₁.nodup, fun j hj _ => h₁.subset hj, h₁.evolves⟩

end Split

end Action
end Arena
end SpacePartition
