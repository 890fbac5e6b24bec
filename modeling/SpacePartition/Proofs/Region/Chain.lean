import SpacePartition.Region.Construct
import SpacePartition.Proofs.Node.Merge

/-!
Chains of cuts. Each cut leaves its minus side inside, so that a chain and the hyperplanes that miss
it leave together what is on the minus sides of all.
-/

namespace SpacePartition

variable {R : Type} {S : Space R} {ι α : Type} {look : Outlook S}

namespace Node

section Modify

variable {n n' : Node S ι α} {cell cell' : Cell S} {path path' : Path}
variable {f g : Node S ι α → Node S ι α}

theorem locateIn_append : n.locateIn cell (path ++ path') =
    (n.locateIn cell path).bind fun located => located.2.locateIn located.1 path' := by
  fun_induction locateIn cell path n <;> simp_all [locateIn]

theorem modify_append : n.modify f (path ++ path') = n.modify (·.modify f path') path := by
  fun_induction modify f path n <;> simp_all [modify]

theorem modify_modify : (n.modify f path).modify g path = n.modify (fun n => g (f n)) path := by
  fun_induction modify f path n <;> simp_all [modify]

theorem locateIn_modify (h : n.locateIn cell path = some (cell', n')) :
    (n.modify f path).locateIn cell path = some (cell', f n') := by
  fun_induction locateIn cell path n <;> simp_all [locateIn, modify]

-- The way to a node leads into smaller cells.
theorem suffix_locateIn (h : n.locateIn cell path = some (cell', n')) : cell <:+ cell' := by
  fun_induction locateIn cell path n
  case case1      => cases h; exact List.suffix_rfl
  case case2      => cases h
  case case3 hi   => exact (List.suffix_cons _ _).trans (hi h)
  case case4 hi   => exact (List.suffix_cons _ _).trans (hi h)

end Modify

section Holds

variable {n n' : Node S ι Bool} {cell cell' : Cell S} {path : Path}
variable {f : Node S ι Bool → Node S ι Bool}

theorem holds_modify_of_contains (h : n.locateIn cell path = some (cell', n'))
    (hc : cell'.Contains look) : (n.modify f path).holds look = (f n').holds look := by
  fun_induction locateIn cell path n
  case case1 => cases h; rfl
  case case2 => cases h
  all_goals
    rename_i hi
    have hs := hc _ <| (suffix_locateIn h).subset List.mem_cons_self
    rw [modify, holds_fork, hs]
    exact hi h

theorem holds_modify_of_not_contains (h : n.locateIn cell path = some (cell', n'))
    (hc : cell.Contains look) (hc' : ¬cell'.Contains look) :
    (n.modify f path).holds look = n.holds look := by
  fun_induction locateIn cell path n
  case case1 => cases h; exact absurd hc hc'
  case case2 => cases h
  case case3 hi =>
    rw [modify, holds_fork, holds_fork]
    have hc := hc.cons ‹S.Sub›
    cases hl : look (S.hyperplane _) <;> rw [hl] at hc
    case plus  => exact hi h hc
    case minus => rfl
  case case4 hi =>
    rw [modify, holds_fork, holds_fork]
    have hc := hc.cons ‹S.Sub›
    cases hl : look (S.hyperplane _) <;> rw [hl] at hc
    case plus  => rfl
    case minus => exact hi h hc

end Holds
end Node

namespace Layout

variable {P : Type} {L : Layout S P}

theorem Fitted.modify {n n' : Node S ι α} {cell cell' : Cell S} {path : Path}
    {f : Node S ι α → Node S ι α}
    (hn : L.Fitted (L.interior cell) n) (h : n.locateIn cell path = some (cell', n'))
    (hf : L.Fitted (L.interior cell') (f n')) : L.Fitted (L.interior cell) (n.modify f path) := by
  fun_induction Node.locateIn cell path n
  case case1    => cases h; exact hf
  case case2    => cases h
  case case3 hi => exact ⟨hn.1, hi hn.2.1 h, hn.2.2⟩
  case case4 hi => exact ⟨hn.1, hn.2.1, hi hn.2.2 h⟩

end Layout

theorem Cell.contains_nil : Contains [] look :=
  fun _ h => absurd h List.not_mem_nil

-- Whether a cell is the inside of a partition, and a leaf the way to it.
structure Node.Carved (n : Node S ι Bool) (path : Path) (cell : Cell S) : Prop where
  located : ∃ i, n.locate path = some (cell, .leaf i (some true))
  holds {look : Outlook S} : n.holds look = true ↔ cell.Contains look

theorem Node.carved_leaf {i : ι} : Carved (S := S) (.leaf i (some true)) [] [] where
  located := ⟨i, rfl⟩
  holds   := iff_of_true rfl Cell.contains_nil

theorem Node.Carved.cut {n : Node S ι Bool} {path : Path} {cell : Cell S} (h : n.Carved path cell)
    {cut : S.Sub} {i j k : ι} {a : Option Bool} :
    (n.modify (fun _ => .fork i a cut (.leaf j (some false)) (.leaf k (some true))) path).Carved
      (path ++ [.minus]) (⟨cut, .minus⟩ :: cell) := by
  obtain ⟨l, hl⟩ := h.located
  constructor
  case located =>
    refine ⟨k, ?_⟩
    rw [locate, locateIn_append, locateIn_modify hl]
    rfl
  case holds =>
    intro look
    by_cases hc : cell.Contains look
    case pos =>
      have hw : Cell.Contains (⟨cut, .minus⟩ :: cell) look ↔ look (S.hyperplane cut) = .minus :=
        List.forall_mem_cons.trans <| and_iff_left hc
      rw [holds_modify_of_contains hl hc, holds_fork, hw]
      cases look (S.hyperplane cut) <;> simp [Branch.pick, holds_leaf]
    case neg =>
      have hn := hc
      rw [← h.holds, ← holds_modify_of_not_contains hl Cell.contains_nil hc] at hn
      refine iff_of_false hn fun hm => hc fun w hw => hm w <| List.mem_cons_of_mem _ hw

-- The inside of a chain after a cut: what was inside, on the minus side of the cut.
theorem Node.Carved.insertCut {t t' : Tree S Bool} {path : Path} {cell : Cell S} {h : S.Hyperplane}
    (hc : t.root.Carved path cell) (hi : t.insertCut path h = .ok (some t')) :
    ∃ cut, cell.fit (S.whole h) = some cut ∧
      (t'.setAttr (path ++ [.plus]) (some false)).root.Carved (path ++ [.minus])
        (⟨cut, .minus⟩ :: cell) := by
  have ⟨i, hl⟩ := hc.located
  rw [Tree.insertCut, hl] at hi
  obtain ⟨cut, hf, he⟩ := Option.map_eq_some_iff.mp (Except.ok.inj hi)
  refine ⟨cut, hf, ?_⟩
  subst he
  rw [Tree.setAttr, Tree.modify, Node.modify_append, Node.modify_modify]
  exact hc.cut

-- The minus sides of all hyperplanes: those of the cuts in the chain, and those that the missed
-- ones have still to take away.
theorem Region.holds_chain (hS : S.Grounded) {t : Tree S Bool} {path : Path} {cell : Cell S}
    {hs : List S.Hyperplane} {look : Outlook S} (hc : t.root.Carved path cell) :
    ((chain path t hs).1.root.holds look = true ∧ ∀ h ∈ (chain path t hs).2, look h = .minus) ↔
      cell.Contains look ∧ ∀ h ∈ hs, look h = .minus := by
  fun_induction chain path t hs generalizing cell
  case case1 => rw [hc.holds]
  case case2 h hs t' hi ih =>
    have ⟨cut, hf, hc'⟩ := hc.insertCut hi
    have hh : S.hyperplane cut = h := (hS.hyperplane_fit hf).trans (hS.hyperplane_whole h)
    rw [ih hc', Cell.Contains, List.forall_mem_cons, List.forall_mem_cons, hh, and_left_comm,
      and_assoc, Cell.Contains]
  case case3 he _ ih =>
    have ih := ih hc
    rw [he] at ih
    rw [List.forall_mem_cons, List.forall_mem_cons, and_left_comm, ih, and_left_comm]

end SpacePartition
