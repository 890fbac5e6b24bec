import SpacePartition.Proofs.Node.Layout

/-!
Splitting a fitted partition. The halves are fitted to the two parts of the cell, and each says of
its points what the partition says of them.
-/

namespace SpacePartition

variable {R : Type} {S : Space R} {ι α : Type} {b b' : Branch}

namespace Halves

def modify (b : Branch) (f : Node S ι α → Node S ι α) (h : Halves S ι α) : Halves S ι α :=
  match b with
  | .plus  => { h with plus := f h.plus }
  | .minus => { h with minus := f h.minus }

@[simp]
theorem on_modify {f : Node S ι α → Node S ι α} {h : Halves S ι α} :
    (h.modify b f).on b = f (h.on b) := by
  cases b <;> rfl

@[simp]
theorem on_modify_flip {f : Node S ι α → Node S ι α} {h : Halves S ι α} :
    (h.modify b f).on b.flip = h.on b.flip := by
  cases b <;> rfl

end Halves

namespace Node

-- A fork with one side on the branch `b` and the other one beyond its cut.
def forkOn (i : ι) (a : Option α) (cut : S.Sub) (b : Branch) (near far : Node S ι α) : Node S ι α :=
  fork i a cut (b.pick near far) (b.pick far near)

theorem verdict_forkOn {i : ι} {a : Option α} {cut : S.Sub} {near far : Node S ι α}
    {look : Outlook S} : (forkOn i a cut b near far).verdict look =
      if look (S.hyperplane cut) = b then near.verdict look else far.verdict look := by
  rw [forkOn, verdict_fork]
  cases b <;> cases look (S.hyperplane cut) <;> rfl

section Split

variable [Inhabited ι] [DecidableEq α] {i : ι} {a : Option α} {cut sub : S.Sub} {p m : Node S ι α}

theorem split_beside (hs : (S.split sub (S.hyperplane cut)).side = b.side)
    (hc : (S.split cut (S.hyperplane sub)).side = b'.side) :
    (fork i a cut p m).split sub = ((b.pick p m).split sub).modify b'
      fun half => condense (forkOn i a cut b half (b.pick m p)) := by
  rw [split, hc]
  generalize S.split sub (S.hyperplane cut) = parts at hs
  obtain ⟨_ | _, _ | _⟩ := parts <;> cases b <;> cases hs
  all_goals cases b' <;> rfl

theorem split_cross {subs cuts : Branch → S.Sub}
    (hs : ∀ b, (S.split sub (S.hyperplane cut)).on b = some (subs b))
    (hc : ∀ b, (S.split cut (S.hyperplane sub)).on b = some (cuts b)) (b : Branch) :
    ∃ i' a', ((fork i a cut p m).split sub).on b = condense
      (fork i' a' (cuts b) ((p.split (subs .plus)).on b) ((m.split (subs .minus)).on b)) := by
  rw [split]
  generalize S.split sub (S.hyperplane cut) = parts at hs
  generalize S.split cut (S.hyperplane sub) = parts' at hc
  have ⟨_, _⟩ := parts
  have ⟨_, _⟩ := parts'
  cases hs .plus
  cases hs .minus
  cases hc .plus
  cases hc .minus
  cases b <;> exact ⟨_, _, rfl⟩

theorem split_within (hs : (S.split sub (S.hyperplane cut)).side = .within) (b : Branch) :
    ((fork i a cut p m).split sub).on b =
      (if S.sameOrientation (S.hyperplane cut) (S.hyperplane sub) then b else b.flip).pick p m := by
  rw [split]
  generalize S.split sub (S.hyperplane cut) = parts at hs
  obtain ⟨_ | _, _ | _⟩ := parts <;> cases hs
  cases S.sameOrientation (S.hyperplane cut) (S.hyperplane sub) <;> cases b <;> rfl

end Split

-- Whether every cut that crosses `sub` has a part on each side of it, so that no half has to keep a
-- whole cut in the place of a part.
def KeepsParts : Node S ι α → S.Sub → Prop
  | leaf .., _             => True
  | fork _ _ cut p m, sub =>
    match S.split sub (S.hyperplane cut) with
    | ⟨some _, none⟩   => p.KeepsParts sub
    | ⟨none, some _⟩   => m.KeepsParts sub
    | ⟨some x, some y⟩ =>
      (S.split cut (S.hyperplane sub)).side = .both ∧ p.KeepsParts x ∧ m.KeepsParts y
    | ⟨none, none⟩     => True

end Node

namespace Layout

variable {P : Type} {L : Layout S P} {C : Set P} {cut sub : S.Sub} {look : Outlook S} {x : P}
variable {i : ι} {a : Option α}

theorem Lawful.look_eq (hL : L.Lawful) (hx : L.Sees look x) (hs : L.Spans C sub)
    (h : x ∈ L.half (S.hyperplane sub) b) : look (S.hyperplane sub) = b :=
  hL.disjoint (hx C sub hs) h

theorem Sees.mem (hx : L.Sees look x) (hs : L.Spans C sub) (hC : x ∈ C) :
    x ∈ C ∩ L.half (S.hyperplane sub) (look (S.hyperplane sub)) :=
  ⟨hC, hx C sub hs⟩

theorem fitted_forkOn {near far : Node S ι α} (hc : L.Spans C cut)
    (hn : L.Fitted (C ∩ L.half (S.hyperplane cut) b) near)
    (hf : L.Fitted (C ∩ L.half (S.hyperplane cut) b.flip) far) :
    L.Fitted C (Node.forkOn i a cut b near far) := by
  cases b
  case plus  => exact ⟨hc, hn, hf⟩
  case minus => exact ⟨hc, hf, hn⟩

-- Whether two halves make up a partition of a cell that a hyperplane cuts.
structure Divides (L : Layout S P) (C : Set P) (h : S.Hyperplane) (n : Node S ι α)
    (halves : Halves S ι α) : Prop where
  fitted (b : Branch) : L.Fitted (C ∩ L.half h b) (halves.on b)
  verdict {look : Outlook S} {x : P} : L.Sees look x → x ∈ C →
    (halves.on (look h)).verdict look = n.verdict look

theorem Divides.holds {h : S.Hyperplane} {n : Node S ι Bool} {halves : Halves S ι Bool}
    (hd : L.Divides C h n halves) (hx : L.Sees look x) (hC : x ∈ C) :
    (halves.on (look h)).holds look = n.holds look :=
  congrArg (· == some true) <| hd.verdict hx hC

variable {p m : Node S ι α}

-- The two sides of a cut are the halves for a sub-hyperplane that coincides with it.
theorem Divides.within (hL : L.Separating) (hC : L.IsCell C) (hs : L.Spans C sub)
    (hn : L.Fitted C (.fork i a cut p m)) (h : (S.split sub (S.hyperplane cut)).side = .within)
    {halves : Halves S ι α} (hh : ∀ b, halves.on b =
      (if S.sameOrientation (S.hyperplane cut) (S.hyperplane sub) then b else b.flip).pick p m) :
    L.Divides C (S.hyperplane sub) (.fork i a cut p m) halves := by
  have ⟨hc, hf⟩ := fitted_fork.mp hn
  constructor
  case fitted =>
    intro b
    rw [hh, hL.coincide hC hs hc h]
    exact hf _
  case verdict =>
    intro look x hx hx'
    have hm := hL.coincide hC hs hc h ▸ hx.mem hs hx'
    rw [hh, Node.verdict_fork, hL.toLawful.look_eq hx hc hm.2]

theorem Divides.leaf {h : S.Hyperplane} {j : ι} {a' : Option α} :
    L.Divides C h (.leaf i a) ⟨j, a', .leaf i a, .leaf i a⟩ := by
  constructor
  case fitted  => intro b; cases b <;> trivial
  case verdict => intro look x _ _; cases look h <;> rfl

variable [DecidableEq α]

-- The cut goes with the half in which it lies, and takes what is beyond it along.
theorem Beside.graft (hb : L.Beside C sub cut b b') {halves : Halves S ι α} {far : Node S ι α}
    (hn : ∀ b'', L.Fitted (C ∩ L.half (S.hyperplane cut) b ∩ L.half (S.hyperplane sub) b'')
      (halves.on b''))
    (hf : L.Fitted (C ∩ L.half (S.hyperplane cut) b.flip) far) (b'' : Branch) :
    L.Fitted (C ∩ L.half (S.hyperplane sub) b'')
      ((halves.modify b' fun half => (Node.forkOn i a cut b half far).condense).on b'') := by
  rcases b'.eq_or_eq_flip b'' with rfl | rfl
  case inl =>
    rw [Halves.on_modify]
    refine Fitted.condense <| fitted_forkOn hb.cut_spans ?near ?far
    case near =>
      rw [Set.inter_right_comm]
      exact hn b''
    case far =>
      rwa [Set.inter_right_comm, Set.inter_eq_left.mpr hb.beyond_cut]
  case inr =>
    have h := hn b'.flip
    rwa [Set.inter_right_comm, Set.inter_eq_left.mpr hb.beyond_sub,
      ← Halves.on_modify_flip (b := b')] at h

theorem Divides.graft (hL : L.Lawful) (hb : L.Beside C sub cut b b') (hs : L.Spans C sub)
    (hc : L.Spans C cut) {halves : Halves S ι α}
    (hd : L.Divides (C ∩ L.half (S.hyperplane cut) b) (S.hyperplane sub) (b.pick p m) halves)
    (hf : L.Fitted (C ∩ L.half (S.hyperplane cut) b.flip) (b.pick m p)) :
    L.Divides C (S.hyperplane sub) (.fork i a cut p m) <| halves.modify b'
      fun half => (Node.forkOn i a cut b half (b.pick m p)).condense where
  fitted := hb.graft hd.fitted hf
  verdict {look x} hx hC := by
    rw [Node.verdict_fork]
    have hm := hx.mem hc hC
    rcases b.eq_or_eq_flip (look (S.hyperplane cut)) with h | h <;> rw [h] at hm ⊢
    case inl =>
      rw [← hd.verdict hx hm]
      rcases b'.eq_or_eq_flip (look (S.hyperplane sub)) with h' | h' <;> rw [h']
      case inl => rw [Halves.on_modify, Node.verdict_condense, Node.verdict_forkOn, if_pos h]
      case inr => rw [Halves.on_modify_flip]
    case inr =>
      rw [hL.look_eq hx hs (hb.beyond_cut hm), Halves.on_modify, Node.verdict_condense,
        Node.verdict_forkOn, h, if_neg Branch.flip_ne, Branch.pick_flip]

-- The four quarters are paired by the sides of `sub`, and each pair keeps its part of the cut.
theorem Divides.pair (hL : L.Lawful) (hs : L.Spans C sub) (hc : L.Spans C cut)
    {parts : Branch → S.Sub} (hp : ∀ b, (S.split cut (S.hyperplane sub)).on b = some (parts b))
    {quarters : Branch → Halves S ι α}
    (hd : ∀ b, L.Divides (C ∩ L.half (S.hyperplane cut) b) (S.hyperplane sub) (b.pick p m)
      (quarters b))
    {halves : Halves S ι α} (hh : ∀ b, ∃ i a, halves.on b =
      (Node.fork i a (parts b) ((quarters .plus).on b) ((quarters .minus).on b)).condense) :
    L.Divides C (S.hyperplane sub) (.fork i a cut p m) halves where
  fitted b := by
    have ⟨i, a, h⟩ := hh b
    have he := hL.hyperplane_part (hp b)
    rw [h]
    refine Fitted.condense ⟨hL.spans_part hc hs (hp b), ?plus, ?minus⟩ <;>
      rw [he, Set.inter_right_comm]
    case plus  => exact (hd .plus).fitted b
    case minus => exact (hd .minus).fitted b
  verdict {look x} hx hC := by
    have ⟨i, a, h⟩ := hh (look (S.hyperplane sub))
    have he := hL.hyperplane_part (hp (look (S.hyperplane sub)))
    rw [h, Node.verdict_condense, Node.verdict_fork, Node.verdict_fork, he,
      ← (hd _).verdict hx (hx.mem hc hC)]
    cases look (S.hyperplane cut) <;> rfl

variable [Inhabited ι]

theorem Fitted.split (hL : L.Separating) {n : Node S ι α} (hn : L.Fitted C n) (hC : L.IsCell C)
    (hs : L.Spans C sub) : L.Divides C (S.hyperplane sub) n (n.split sub) := by
  induction n generalizing C sub
  case leaf => exact .leaf
  case fork i a cut p m hp hm =>
    have ⟨hc, hf⟩ := fitted_fork.mp hn
    have hi (b) {sub} (hs : L.Spans (C ∩ L.half (S.hyperplane cut) b) sub) :
        L.Divides (C ∩ L.half (S.hyperplane cut) b) (S.hyperplane sub) (b.pick p m)
          ((b.pick p m).split sub) := by
      cases b
      case plus  => exact hp (hf .plus) (.inter hC) hs
      case minus => exact hm (hf .minus) (.inter hC) hs
    have beside (b : Branch) (h : (S.split sub (S.hyperplane cut)).side = b.side) :
        L.Divides C (S.hyperplane sub) (.fork i a cut p m) ((Node.fork i a cut p m).split sub) := by
      have ⟨hs', b', hb⟩ := hL.beside hC hs hc h
      rw [Node.split_beside h hb.side]
      exact .graft hL.toLawful hb hs hc (hi b hs') (Branch.pick_flip (b := b) ▸ hf b.flip)
    cases h : (S.split sub (S.hyperplane cut)).side
    case plus  => exact beside .plus h
    case minus => exact beside .minus h
    case both =>
      have ⟨subs, hb⟩ := Parts.side_eq_both.mp h
      have ⟨cuts, hb'⟩ := Parts.side_eq_both.mp <| hL.cross hC hs hc h
      have hd (b) : L.Divides (C ∩ L.half (S.hyperplane cut) b) (S.hyperplane sub) (b.pick p m)
          ((b.pick p m).split (subs b)) := by
        rw [← hL.hyperplane_part (hb b)]
        exact hi b <| hL.spans_part hs hc (hb b)
      exact .pair hL.toLawful hs hc hb' hd <| Node.split_cross hb hb'
    case within => exact .within hL hC hs hn h <| Node.split_within h

omit [Inhabited ι] [DecidableEq α] in
theorem Fitted.keepsParts (hL : L.Separating) {n : Node S ι α} (hn : L.Fitted C n) (hC : L.IsCell C)
    (hs : L.Spans C sub) : n.KeepsParts sub := by
  induction n generalizing C sub
  case leaf => trivial
  case fork cut p m hp hm =>
    have ⟨hc, fp, fm⟩ := hn
    rw [Node.KeepsParts]
    split
    case h_1 h =>
      have ⟨hs', _⟩ := hL.beside hC hs hc (b := .plus) (by rw [h]; rfl)
      exact hp fp (.inter hC) hs'
    case h_2 h =>
      have ⟨hs', _⟩ := hL.beside hC hs hc (b := .minus) (by rw [h]; rfl)
      exact hm fm (.inter hC) hs'
    case h_3 h =>
      refine ⟨hL.cross hC hs hc (by rw [h]; rfl), hp fp (.inter hC) ?_, hm fm (.inter hC) ?_⟩ <;>
        exact hL.spans_part hs hc (by rw [h]; rfl)
    case h_4 => trivial

end Layout
end SpacePartition
