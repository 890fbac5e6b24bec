import Mathlib.Data.Set.Basic
import SpacePartition.Node.Merge
import SpacePartition.Proofs.Node.Verdict

/-!
Partitions whose cuts fill their cells. A layout gives hyperplanes their open half-spaces and tells
which sub-hyperplanes are all of a cell's share in their hyperplane; a partition is fitted if its
cuts are such shares of the cells they cut.
-/

namespace SpacePartition

variable {R : Type}

-- The cuts of a partition.
def Node.cuts {S : Space R} {ι α : Type} : Node S ι α → List S.Sub
  | leaf ..        => []
  | fork _ _ c p m => c :: (p.cuts ++ m.cuts)

theorem Node.forall_cuts_fork {S : Space R} {ι α : Type} {i : ι} {a : Option α} {c : S.Sub}
    {p m : Node S ι α} {P : S.Sub → Prop} : (∀ s ∈ (fork i a c p m).cuts, P s) ↔
      P c ∧ (∀ s ∈ p.cuts, P s) ∧ ∀ s ∈ m.cuts, P s := by
  simp only [cuts, List.forall_mem_cons, List.forall_mem_append]

theorem Node.cuts_complement {S : Space R} {ι : Type} {n : Node S ι Bool} :
    n.complement.cuts = n.cuts := by
  induction n <;> simp_all [complement, cuts]

section Cuts

variable {S : Space R} {ι κ α : Type} {n : Node S ι α}

theorem Node.cuts_relabel {f : ι → κ} : (n.relabel f).cuts = n.cuts := by
  induction n <;> simp_all [relabel, cuts]

theorem Node.cuts_number {k : Nat} : (n.number k).cuts = n.cuts := by
  induction n generalizing k <;> simp_all [number, cuts]

theorem Node.cuts_clearForks : n.clearForks.cuts = n.cuts := by
  induction n <;> simp_all [clearForks, cuts]

theorem Node.cuts_condense_subset [DecidableEq α] : n.condense.cuts ⊆ n.cuts := by
  fun_cases condense n
  case case1 => exact List.nil_subset _
  all_goals exact List.Subset.refl _

end Cuts

theorem Node.mem_cuts_iff_at? {S : Space R} {ι α : Type} {n : Node S ι α} {c : S.Sub} :
    c ∈ n.cuts ↔ ∃ path i t l r, n.at? path = some (fork i t c l r) := by
  induction n
  case leaf =>
    refine iff_of_false List.not_mem_nil ?_
    rintro ⟨_ | _, _, _, _, _, h⟩ <;> cases h
  case fork i t c' l r hl hr =>
    rw [cuts, List.mem_cons, List.mem_append, hl, hr]
    constructor
    case mp =>
      rintro (rfl | ⟨path, h⟩ | ⟨path, h⟩)
      case inl     => exact ⟨[], i, t, l, r, rfl⟩
      case inr.inl => exact ⟨.plus :: path, h⟩
      case inr.inr => exact ⟨.minus :: path, h⟩
    case mpr =>
      rintro ⟨_ | ⟨_ | _, path⟩, i, t, l, r, h⟩
      case nil        => cases h; exact .inl rfl
      case cons.plus  => exact .inr <| .inl ⟨path, i, t, l, r, h⟩
      case cons.minus => exact .inr <| .inr ⟨path, i, t, l, r, h⟩

-- A partition looks at the sides of its own cuts alone.
theorem Node.holds_congr {S : Space R} {ι : Type} {n : Node S ι Bool} {look look' : Outlook S}
    (h : ∀ s ∈ n.cuts, look (S.hyperplane s) = look' (S.hyperplane s)) :
    n.holds look = n.holds look' := by
  induction n
  case leaf => rfl
  case fork cut p m hp hm =>
    obtain ⟨hc, cp, cm⟩ := forall_cuts_fork.mp h
    rw [holds_fork, holds_fork, hc]
    cases look' (S.hyperplane cut)
    case plus  => exact hp cp
    case minus => exact hm cm

-- Whether parts of a hyperplane are parts of that hyperplane.
structure Space.Grounded (S : Space R) : Prop where
  hyperplane_whole (h : S.Hyperplane) : S.hyperplane (S.whole h) = h
  hyperplane_part {s : S.Sub} {h b part} :
    (S.split s h).on b = some part → S.hyperplane part = S.hyperplane s

section Grounded

variable {S : Space R} {ι α : Type} {cell : Cell S}

theorem Space.Grounded.hyperplane_fit (hS : S.Grounded) {s part : S.Sub}
    (h : cell.fit s = some part) : S.hyperplane part = S.hyperplane s := by
  induction cell generalizing s
  case nil => cases h; rfl
  case cons wall walls hi =>
    have ⟨s', hs, hp⟩ := Option.bind_eq_some_iff.mp h
    exact (hi hp).trans <| hS.hyperplane_part hs

theorem Node.exists_refit_fork (hS : S.Grounded) (cell : Cell S) {i : ι} {a : Option α}
    {cut : S.Sub} {p m : Node S ι α} :
    ∃ c, (fork i a cut p m).refit cell = fork i a c p m ∧ S.hyperplane c = S.hyperplane cut := by
  refine ⟨_, rfl, ?_⟩
  cases hf : cell.fit (S.whole (S.hyperplane cut))
  case none => rfl
  case some => exact (hS.hyperplane_fit hf).trans <| hS.hyperplane_whole _

end Grounded

structure Layout (S : Space R) (P : Type) where
  half  : S.Hyperplane → Branch → Set P
  -- Whether a sub-hyperplane is the part of its hyperplane in a cell.
  Spans : Set P → S.Sub → Prop

namespace Layout

variable {S : Space R} {P : Type} {ι κ α : Type}

section Basic

variable (L : Layout S P)

inductive IsCell : Set P → Prop
  | univ : IsCell Set.univ
  | inter {C : Set P} {h : S.Hyperplane} {b : Branch} : IsCell C → IsCell (C ∩ L.half h b)

def interior : Cell S → Set P
  | []            => Set.univ
  | wall :: walls => interior walls ∩ L.half (S.hyperplane wall.cut) wall.side

theorem isCell_interior (cell : Cell S) : L.IsCell (L.interior cell) := by
  induction cell
  case nil          => exact .univ
  case cons hi      => exact .inter hi

def Fitted : Set P → Node S ι α → Prop
  | _, .leaf ..         => True
  | C, .fork _ _ cut p m =>
    L.Spans C cut ∧
    Fitted (C ∩ L.half (S.hyperplane cut) .plus) p ∧ Fitted (C ∩ L.half (S.hyperplane cut) .minus) m

-- Whether a point is on the sides that an outlook gives it, as far as hyperplanes with a part in
-- some cell are concerned.
def Sees (look : Outlook S) (x : P) : Prop :=
  ∀ C s, L.Spans C s → x ∈ L.half (S.hyperplane s) (look (S.hyperplane s))

-- A sub-hyperplane that lies on the side `b` of a cut, while the cut lies on its own side `b'`.
-- What is beyond the one is then on the near side of the other.
structure Beside (C : Set P) (sub cut : S.Sub) (b b' : Branch) : Prop where
  side       : (S.split cut (S.hyperplane sub)).side = b'.side
  cut_spans  : L.Spans (C ∩ L.half (S.hyperplane sub) b') cut
  beyond_cut : C ∩ L.half (S.hyperplane cut) b.flip ⊆ L.half (S.hyperplane sub) b'
  beyond_sub : C ∩ L.half (S.hyperplane sub) b'.flip ⊆ L.half (S.hyperplane cut) b

-- What a space owes to its half-spaces.
structure Lawful : Prop where
  disjoint {h x b b'} : x ∈ L.half h b → x ∈ L.half h b' → b = b'
  hyperplane_whole (h) : S.hyperplane (S.whole h) = h
  hyperplane_part {s h b part} : (S.split s h).on b = some part → S.hyperplane part = S.hyperplane s
  spans_part {C D s w b part} : L.Spans C s → L.Spans D w →
    (S.split s (S.hyperplane w)).on b = some part → L.Spans (C ∩ L.half (S.hyperplane w) b) part

theorem Lawful.grounded {L : Layout S P} (hL : L.Lawful) : S.Grounded :=
  ⟨hL.hyperplane_whole, hL.hyperplane_part⟩

-- A cut that splits tells the sides of another one apart, or has the same sides.
structure Separating : Prop extends L.Lawful where
  beside {C sub cut b} : L.IsCell C → L.Spans C sub → L.Spans C cut →
    (S.split sub (S.hyperplane cut)).side = b.side →
    L.Spans (C ∩ L.half (S.hyperplane cut) b) sub ∧ ∃ b', L.Beside C sub cut b b'
  cross {C sub cut} : L.IsCell C → L.Spans C sub → L.Spans C cut →
    (S.split sub (S.hyperplane cut)).side = .both → (S.split cut (S.hyperplane sub)).side = .both
  coincide {C sub cut b} : L.IsCell C → L.Spans C sub → L.Spans C cut →
    (S.split sub (S.hyperplane cut)).side = .within →
    C ∩ L.half (S.hyperplane sub) b = C ∩ L.half (S.hyperplane cut)
      (if S.sameOrientation (S.hyperplane cut) (S.hyperplane sub) then b else b.flip)

-- A cut that meets a cell is not lost when it is shortened to the cell.
structure Tight : Prop extends L.Lawful where
  spans_whole {C s} : L.Spans C s → L.Spans .univ (S.whole (S.hyperplane s))
  -- A part that meets a half-space with its own part of a smaller cell is not lost.
  part_of_smaller {C D E s c w b} : L.Spans C s → L.Spans D w → L.Spans E c →
    S.hyperplane c = S.hyperplane s → E ⊆ C ∩ L.half (S.hyperplane w) b →
    ∃ part, (S.split s (S.hyperplane w)).on b = some part

-- A hyperplane has one part in a cell, so that a cut that spans a cell is not changed by it.
structure Rigid : Prop extends L.Tight where
  unique {C s s'} : L.Spans C s → L.Spans C s' → S.hyperplane s = S.hyperplane s' → s = s'

end Basic

section Fitted

variable {L : Layout S P} {C : Set P}

@[simp]
theorem fitted_leaf {i : ι} {a : Option α} : L.Fitted C (.leaf i a) :=
  trivial

theorem fitted_fork {i : ι} {a : Option α} {cut : S.Sub} {p m : Node S ι α} :
    L.Fitted C (.fork i a cut p m) ↔
      L.Spans C cut ∧ ∀ b, L.Fitted (C ∩ L.half (S.hyperplane cut) b) (b.pick p m) :=
  ⟨fun ⟨hc, hp, hm⟩ => ⟨hc, fun | .plus => hp | .minus => hm⟩,
   fun ⟨hc, hs⟩ => ⟨hc, hs .plus, hs .minus⟩⟩

theorem Fitted.condense [DecidableEq α] {n : Node S ι α} (h : L.Fitted C n) :
    L.Fitted C n.condense := by
  fun_cases Node.condense n
  case case1 => exact trivial
  all_goals exact h

theorem fitted_relabel {f : ι → κ} {n : Node S ι α} :
    L.Fitted C (n.relabel f) ↔ L.Fitted C n := by
  induction n generalizing C <;> simp_all [Node.relabel, Fitted]

theorem fitted_number {k} {n : Node S ι α} : L.Fitted C (n.number k) ↔ L.Fitted C n := by
  induction n generalizing C k <;> simp_all [Node.number, Fitted]

theorem fitted_clearForks {n : Node S ι α} : L.Fitted C n.clearForks ↔ L.Fitted C n := by
  induction n generalizing C <;> simp_all [Node.clearForks, Fitted]

theorem fitted_complement {n : Node S ι Bool} : L.Fitted C n.complement ↔ L.Fitted C n := by
  induction n generalizing C <;> simp_all [Node.complement, Fitted]

theorem Fitted.exists_spans {n : Node S ι α} (hn : L.Fitted C n) {s : S.Sub} (hs : s ∈ n.cuts) :
    ∃ D ⊆ C, L.Spans D s := by
  induction n generalizing C
  case leaf => cases hs
  case fork hp hm =>
    have ⟨hc, fp, fm⟩ := hn
    cases hs
    case head => exact ⟨C, subset_rfl, hc⟩
    case tail hs =>
      cases List.mem_append.mp hs
      case inl hs => exact hp fp hs |>.imp fun D h => ⟨h.1.trans Set.inter_subset_left, h.2⟩
      case inr hs => exact hm fm hs |>.imp fun D h => ⟨h.1.trans Set.inter_subset_left, h.2⟩

-- A partition stays fitted when its cells and spans are exchanged for others, cell by cell.
theorem Fitted.imp {L' : Layout S P} (rel : Set P → Set P → Prop) {n : Node S ι α} {D : Set P}
    (hr : ∀ {C D h b}, rel C D → rel (C ∩ L.half h b) (D ∩ L'.half h b))
    (hs : ∀ {C D s}, s ∈ n.cuts → rel C D → L.Spans C s → L'.Spans D s)
    (hn : L.Fitted C n) (h : rel C D) : L'.Fitted D n := by
  induction n generalizing C D
  case leaf => trivial
  case fork hp hm =>
    have ⟨hc, fp, fm⟩ := hn
    refine ⟨hs List.mem_cons_self h hc, hp ?plus fp (hr h), hm ?minus fm (hr h)⟩ <;> intro _ _ _ hm
    case plus  => exact hs <| List.mem_cons_of_mem _ <| List.mem_append_left _ hm
    case minus => exact hs <| List.mem_cons_of_mem _ <| List.mem_append_right _ hm

theorem Fitted.simplify [DecidableEq α] {n : Node S ι α} (h : L.Fitted C n) :
    L.Fitted C n.simplify := by
  induction n generalizing C
  case leaf         => exact h
  case fork hp hm   => exact Fitted.condense ⟨h.1, hp h.2.1, hm h.2.2⟩

end Fitted
end Layout
end SpacePartition
