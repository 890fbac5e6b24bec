import SpacePartition.Proofs.Node.Layout

/-!
Fitting what is fitted already. When a partition that is fitted to a cell is put into the cell, its
cuts may take on other forms, but none vanishes, so that no handler is asked for a leaf.
-/

namespace SpacePartition

variable {R : Type} {S : Space R} {ι α : Type}

namespace Node

-- Shortens every cut to one side of a hyperplane. A cut without a part there is left as it is.
def shorten (h : S.Hyperplane) (keep : Branch) : Node S ι α → Node S ι α
  | leaf i a       => leaf i a
  | fork i a c p m =>
    fork i a (((S.split c h).on keep).getD c) (p.shorten h keep) (m.shorten h keep)

def shortenAll (walls : Cell S) (n : Node S ι α) : Node S ι α :=
  walls.foldl (fun n wall => n.shorten (S.hyperplane wall.cut) wall.side) n

@[simp]
theorem shortenAll_leaf {walls : Cell S} {i : ι} {a : Option α} :
    (leaf i a).shortenAll walls = leaf i a := by
  induction walls <;> simp_all [shortenAll, shorten]

theorem shortenAll_cons {wall : Wall S} {walls : Cell S} {n : Node S ι α} :
    n.shortenAll (wall :: walls) =
      (n.shorten (S.hyperplane wall.cut) wall.side).shortenAll walls :=
  rfl

end Node

namespace Layout

variable {P : Type} {L : Layout S P} {C D : Set P} {b : Branch} {n : Node S ι α}
variable {cell walls : Cell S}

theorem Lawful.hyperplane_getD (hL : L.Lawful) {s : S.Sub} {h : S.Hyperplane} :
    S.hyperplane (((S.split s h).on b).getD s) = S.hyperplane s := by
  cases hp : (S.split s h).on b
  case none => rfl
  case some => exact hL.hyperplane_part hp

theorem Lawful.verdict_shorten (hL : L.Lawful) {h : S.Hyperplane} {look : Outlook S} :
    (n.shorten h b).verdict look = n.verdict look := by
  induction n
  case leaf       => rfl
  case fork hp hm => simp only [Node.shorten, Node.verdict, hp, hm, hL.hyperplane_getD]

theorem Lawful.verdict_shortenAll (hL : L.Lawful) {look : Outlook S} :
    (n.shortenAll walls).verdict look = n.verdict look := by
  induction walls generalizing n
  case nil     => rfl
  case cons hi => rw [Node.shortenAll_cons, hi, hL.verdict_shorten]

theorem Fitted.shorten (hn : L.Fitted C n) (hL : L.Lawful) {w : S.Sub} (hw : L.Spans D w)
    (h : C ⊆ L.half (S.hyperplane w) b) : L.Fitted C (n.shorten (S.hyperplane w) b) := by
  induction n generalizing C
  case leaf => trivial
  case fork cut p m hp hm =>
    obtain ⟨hc, fp, fm⟩ := hn
    have hs : L.Spans C (((S.split cut (S.hyperplane w)).on b).getD cut) := by
      cases hp : (S.split cut (S.hyperplane w)).on b
      case none => exact hc
      case some => exact Set.inter_eq_left.mpr h ▸ hL.spans_part hc hw hp
    rw [← hL.hyperplane_getD (s := cut) (h := S.hyperplane w) (b := b)] at fp fm
    exact ⟨hs, hp fp <| Set.inter_subset_left.trans h, hm fm <| Set.inter_subset_left.trans h⟩

-- Whether the walls of a cell are cuts that bound some cells.
def Proper (L : Layout S P) (cell : Cell S) : Prop :=
  ∀ wall ∈ cell, ∃ C, L.Spans C wall.cut

theorem proper_nil : L.Proper [] :=
  fun _ h => absurd h List.not_mem_nil

theorem Proper.tail {wall : Wall S} (h : L.Proper (wall :: walls)) : L.Proper walls :=
  fun w hm => h w <| List.mem_cons_of_mem _ hm

theorem interior_subset {wall : Wall S} (h : wall ∈ cell) :
    L.interior cell ⊆ L.half (S.hyperplane wall.cut) wall.side := by
  induction h
  case head          => exact Set.inter_subset_right
  case tail hi       => exact Set.inter_subset_left.trans hi

theorem Fitted.shortenAll (hn : L.Fitted C n) (hL : L.Lawful) (hw : L.Proper walls)
    (h : ∀ wall ∈ walls, C ⊆ L.half (S.hyperplane wall.cut) wall.side) :
    L.Fitted C (n.shortenAll walls) := by
  induction walls generalizing n
  case nil => exact hn
  case cons wall walls hi =>
    have ⟨D, hD⟩ := hw wall List.mem_cons_self
    exact hi (hn.shorten hL hD <| h wall List.mem_cons_self) hw.tail
      fun w hm => h w <| List.mem_cons_of_mem _ hm

section Insert

variable {m : Type → Type} [Monad m] [LawfulMonad m]

theorem Fitted.chop (hn : L.Fitted C n) (hL : L.Tight) {w : S.Sub} (hw : L.Spans D w)
    (h : C ⊆ L.half (S.hyperplane w) b) (vanish : Handler S ι α m) (cell : Cell S) :
    n.chop vanish (S.hyperplane w) b cell = pure (n.shorten (S.hyperplane w) b) := by
  induction n generalizing C cell
  case leaf => rfl
  case fork cut p m hp hm =>
    have ⟨hc, fp, fm⟩ := hn
    have ⟨part, hs⟩ := hL.part_of_smaller hc hw hc rfl (Set.inter_eq_left.mpr h).ge
    rw [Node.chop, hp fp (Set.inter_subset_left.trans h), hm fm (Set.inter_subset_left.trans h)]
    simp only [pure_bind, hs, Node.shorten, Option.getD_some]

theorem Fitted.chopAll (hn : L.Fitted C n) (hL : L.Tight) (hw : L.Proper walls)
    (h : ∀ wall ∈ walls, C ⊆ L.half (S.hyperplane wall.cut) wall.side) (vanish : Handler S ι α m)
    (cell : Cell S) : n.chopAll vanish cell walls = pure (n.shortenAll walls) := by
  induction walls generalizing n
  case nil => rfl
  case cons wall walls hi =>
    have ⟨D, hD⟩ := hw wall List.mem_cons_self
    have hb := h wall List.mem_cons_self
    have hs := hn.shorten hL.toLawful hD hb
    rw [Node.chopAll, hn.chop hL hD hb, pure_bind, Node.shortenAll_cons]
    cases hn' : n.shorten (S.hyperplane wall.cut) wall.side
    case leaf => rw [Node.shortenAll_leaf]
    case fork => exact hi (hn' ▸ hs) hw.tail fun w hm => h w <| List.mem_cons_of_mem _ hm

variable [DecidableEq α]

theorem Fitted.insertIn (hn : L.Fitted (L.interior cell) n) (hL : L.Tight) (hc : L.Proper cell)
    (vanish : Handler S ι α m) : n.insertIn vanish cell = pure (n.shortenAll cell).condense := by
  rw [Node.insertIn, hn.chopAll hL hc (fun _ => interior_subset) vanish cell, map_pure]

end Insert

section Rigid

theorem Fitted.shorten_eq (hn : L.Fitted C n) (hL : L.Rigid) {w : S.Sub} (hw : L.Spans D w)
    (h : C ⊆ L.half (S.hyperplane w) b) : n.shorten (S.hyperplane w) b = n := by
  induction n generalizing C
  case leaf => rfl
  case fork cut p m hp hm =>
    have ⟨hc, fp, fm⟩ := hn
    have hC : C ∩ L.half (S.hyperplane w) b = C := Set.inter_eq_left.mpr h
    have ⟨part, hs⟩ := hL.part_of_smaller hc hw hc rfl hC.ge
    have hs' := hC ▸ hL.spans_part hc hw hs
    rw [Node.shorten, hp fp (Set.inter_subset_left.trans h), hm fm (Set.inter_subset_left.trans h),
      hs, Option.getD_some, hL.unique hc hs' (hL.hyperplane_part hs).symm]

theorem Fitted.shortenAll_eq (hn : L.Fitted C n) (hL : L.Rigid) (hw : L.Proper walls)
    (h : ∀ wall ∈ walls, C ⊆ L.half (S.hyperplane wall.cut) wall.side) :
    n.shortenAll walls = n := by
  induction walls
  case nil => rfl
  case cons wall walls hi =>
    have ⟨D, hD⟩ := hw wall List.mem_cons_self
    rw [Node.shortenAll_cons, hn.shorten_eq hL hD <| h wall List.mem_cons_self]
    exact hi hw.tail fun w hm => h w <| List.mem_cons_of_mem _ hm

end Rigid

-- A part that is cut down wall by wall ends as all that the cell has of its hyperplane, as long as
-- the cell has something of it.
theorem Tight.fit (hL : L.Tight) (hc : L.Proper cell) {s c : S.Sub} {E : Set P} (hs : L.Spans C s)
    (hE : L.Spans E c) (he : S.hyperplane c = S.hyperplane s) (h : E ⊆ C ∩ L.interior cell) :
    ∃ part, cell.fit s = some part ∧ L.Spans (C ∩ L.interior cell) part ∧
      S.hyperplane part = S.hyperplane s := by
  induction cell generalizing C s
  case nil => exact ⟨s, rfl, by rwa [interior, Set.inter_univ], rfl⟩
  case cons wall walls hi =>
    have ⟨D, hD⟩ := hc wall List.mem_cons_self
    have hI : C ∩ L.interior (wall :: walls) =
        C ∩ L.half (S.hyperplane wall.cut) wall.side ∩ L.interior walls := by
      rw [interior, Set.inter_comm (L.interior walls), Set.inter_assoc]
    rw [hI] at h ⊢
    have ⟨part, hp⟩ := hL.part_of_smaller hs hD hE he (h.trans Set.inter_subset_left)
    have hh := hL.hyperplane_part hp
    have ⟨part', hf, hs', hh'⟩ := hi hc.tail (hL.spans_part hs hD hp) (he.trans hh.symm) h
    exact ⟨part', by rw [Cell.fit, hp, Option.bind_some, hf], hs', hh'.trans hh⟩

theorem Fitted.refit (hn : L.Fitted (L.interior cell) n) (hL : L.Tight) (hc : L.Proper cell) :
    L.Fitted (L.interior cell) (n.refit cell) := by
  cases n
  case leaf => trivial
  case fork cut p m =>
    have ⟨hs, fp, fm⟩ := hn
    have hw := hL.hyperplane_whole (S.hyperplane cut)
    have ⟨part, hf, hp, hh⟩ := hL.fit hc (hL.spans_whole hs) hs hw.symm
      (Set.univ_inter (L.interior cell)).ge
    rw [Set.univ_inter] at hp
    rw [Node.refit, hf, Option.getD_some]
    rw [← hh.trans hw] at fp fm
    exact ⟨hp, fp, fm⟩

end Layout
end SpacePartition
