import SpacePartition.Proofs.Line.Segment
import SpacePartition.Proofs.Plane.Rectangle
import SpacePartition.Proofs.Region.Convex
import SpacePartition.Proofs.Region.Uniform

/-!
Convex regions of the plane with sides across the axes. A line that passes through the minus sides
of all others cuts what the lines before it leave, and its facet is what it has on these minus
sides.
-/

namespace SpacePartition

variable {K : Type} [Field K] [LinearOrder K]

namespace Plane

open AxisLine

variable {L : Axis → Set K} {t a : K} {C D : Set (Axis → K)} {l w : AxisLine K}
variable {ls ws : List (AxisLine K)}
variable {s part : (plane (Exact K)).Sub} {cuts : List (plane (Exact K)).Sub} {p : Axis → K}
variable {b : Branch}

theorem Fills.congr (hs : Fills L t C l s)
    (h : ∀ a ∉ l.marks L, l.pointAt a ∈ C ↔ l.pointAt a ∈ D) : Fills L t D l s where
  line     := hs.line
  place    := hs.place
  occupies := hs.occupies.congr h
  nonempty := hs.nonempty.imp fun a ha => ⟨ha.1, (h a ha.1).mp ha.2⟩

-- The points on the minus sides of all lines.
def inner (L : Axis → Set K) (t : K) (ws : List (AxisLine K)) : Set (Axis → K) :=
  {p | ∀ w ∈ ws, p ∈ (cells L t).half (w.line t) .minus}

theorem inter_inner_nil : C ∩ inner L t [] = C := by
  simp [inner]

theorem inter_inner_cons : C ∩ inner L t (w :: ws) =
    C ∩ (cells L t).half (w.line t) .minus ∩ inner L t ws := by
  ext p
  simp [inner, and_assoc]

theorem inner_append : inner L t (ws ++ ls) = inner L t ws ∩ inner L t ls := by
  ext p
  simp only [inner, Set.mem_ofPred_eq, List.forall_mem_append, Set.mem_inter_iff]

theorem inner_perm (h : ws.Perm ls) : inner L t ws = inner L t ls := by
  simp only [inner, h.mem_iff]

-- Whether cuts are parts of lines.
def Lined (t : K) : List (AxisLine K) → List (plane (Exact K)).Sub → Prop :=
  List.Forall₂ fun w cut => (plane (Exact K)).hyperplane cut = w.line t

def walls (cuts : List (plane (Exact K)).Sub) : Cell (plane (Exact K)) :=
  cuts.map (⟨·, .minus⟩)

variable [IsStrictOrderedRing K]

theorem mem_half_or_flip (h : p w.axis ≠ w.place) (b : Branch) :
    p ∈ (cells L t).half (w.line t) b ∨ p ∈ (cells L t).half (w.line t) b.flip := by
  have hb : p ∈ (cells L t).half (w.line t) (Line.outlook (p w.axis) (w.point t)) :=
    mem_half.mpr <| Line.beyond_outlook h
  rcases b.eq_or_eq_flip (Line.outlook (p w.axis) (w.point t)) with he | he <;> rw [he] at hb
  case inl => exact .inl hb
  case inr => exact .inr hb

variable (g : Grid L t)

include g

theorem Fills.isEmpty_eq (hs : Fills L t C l s) : (plane (Exact K)).isEmpty s = false :=
  hs.occupies.isEmpty_eq (finite_marks g.finite l) hs.nonempty

-- A part without anything on one side of a line has all of its points on the other side.
theorem fills_kept (hs : Fills L t C l s) (hw : w.place ∈ L w.axis)
    (hp : ((plane (Exact K)).split s (w.line t)).on b = some part)
    (hn : ((plane (Exact K)).split s (w.line t)).on b.flip = none) :
    Fills L t (C ∩ (cells L t).half (w.line t) b) l s := by
  by_cases h : l.axis = w.axis
  case pos =>
    obtain ⟨rfl, -⟩ := (part_parallel g hs hw h).mp hp
    exact fills_part g hs hw hp
  case neg =>
    refine hs.congr fun a ha => ⟨fun hC => ⟨hC, ?_⟩, And.left⟩
    have hne : l.pointAt a w.axis ≠ w.place := fun he => ha ⟨w.axis, Ne.symm h, he ▸ hw⟩
    rcases mem_half_or_flip hne b with hb | hb
    case inl => exact hb
    case inr =>
      have ⟨_, hf⟩ := (exists_part g hs hw).mpr ⟨a, ha, hC, hb⟩
      cases hn.symm.trans hf

theorem fit_walls (hw : Lined t ws cuts) (hL : ∀ w ∈ ws, w.place ∈ L w.axis) (hs : Fills L t C l s)
    (ha : a ∉ l.marks L) (hC : l.pointAt a ∈ C ∩ inner L t ws) :
    ∃ part, (walls cuts).fit s = some part ∧ Fills L t (C ∩ inner L t ws) l part := by
  induction hw generalizing C s
  case nil => rw [inter_inner_nil]; exact ⟨s, rfl, hs⟩
  case cons w cut ws cuts hc _ ih =>
    have ⟨hw, hL⟩ := List.forall_mem_cons.mp hL
    rw [inter_inner_cons] at hC ⊢
    obtain ⟨part, hp⟩ : ∃ part, ((plane (Exact K)).split s (w.line t)).on .minus = some part :=
      (exists_part g hs hw).mpr ⟨a, ha, hC.1⟩
    have ⟨part', hf, hs'⟩ := ih hL (fills_part g hs hw hp) hC
    refine ⟨part', ?_, hs'⟩
    rw [← hc] at hp
    exact Option.bind_eq_some_iff.mpr ⟨part, hp, hf⟩

-- What falls through a chain and passes through its inside ends there with its part of the inside.
theorem characterize_chain {ι : Type} {n : Node (plane (Exact K)) ι Bool} (hn : n.IsChain cuts)
    (hw : Lined t ws cuts) (hL : ∀ w ∈ ws, w.place ∈ L w.axis) (hs : Fills L t C l s)
    (ha : a ∉ l.marks L) (hC : l.pointAt a ∈ C ∩ inner L t ws) {c : Contact (plane (Exact K))}
    (hc : c.Has fun s : SubLine (Exact K) => s.remaining.tolerance = .finite t)
    (hi : c.inside = none) : ∃ c' part, n.characterize s c = .ok c' ∧ c'.inside = some part ∧
      Fills L t (C ∩ inner L t ws) l part := by
  induction hn generalizing C s c ws
  case leaf =>
    cases hw
    rw [inter_inner_nil]
    refine ⟨⟨some s, c.outside⟩, s, ?_, rfl, hs⟩
    have ht : (some true == some true) = true := rfl
    rw [Node.characterize, ht, Contact.touch, hi]
    rfl
  case fork cut cuts m i x j _ ih =>
    obtain ⟨w, ws, hcw, hws, rfl⟩ := List.forall₂_cons_right_iff.mp hw
    obtain ⟨hw, hL⟩ := List.forall_mem_cons.mp hL
    rw [inter_inner_cons] at hC ⊢
    obtain ⟨part, hp⟩ : ∃ part, ((plane (Exact K)).split s (w.line t)).on .minus = some part :=
      (exists_part g hs hw).mpr ⟨a, ha, hC.1⟩
    have hP : (plane (Exact K)).Reunites
        fun s : SubLine (Exact K) => s.remaining.tolerance = .finite t :=
      Embedding.reunites _ Exact.finite_beq_self
    rw [Node.characterize, hcw]
    split <;> rename_i hsp <;> rw [hsp] at hp <;>
      have hon (b : Branch) : ((plane (Exact K)).split s (w.line t)).on b = _ :=
        congrArg (·.on b) hsp
    case h_1 => cases hp
    case h_2 => exact ih hws hL (fills_kept g hs hw (hon .minus) (hon .plus)) hC hc hi
    case h_3 p m =>
      obtain ⟨c', hc', hPc, hin⟩ := hc.touch hP (hP.split hs.occupies.tolerance (hon .plus)) false
      have hl : (Node.leaf j (some false)).characterize p c = .ok c' := hc'
      rw [hl, Except.ok_bind]
      exact ih hws hL (fills_part g hs hw (hon .minus)) hC hPc (hin.trans hi)
    case h_4 => cases hp

-- Whether a facet is what a line has on the minus sides of the others.
structure IsSide (L : Axis → Set K) (t : K) (ls : List (AxisLine K)) (l : AxisLine K)
    (f : Facet (plane (Exact K))) : Prop where
  facing : f.facing = .plusOutside
  fills  : Fills L t (inner L t (ls.erase l)) l f.sub

variable {all : List (AxisLine K)}

-- The facets of a chain come in the opposite order of its cuts.
theorem exists_sides (hL : ∀ l ∈ all, l.place ∈ L l.axis)
    (hb : ∀ l ∈ all, ∃ a ∉ l.marks L, l.pointAt a ∈ inner L t (all.erase l))
    (hall : (ws ++ ls).Perm all) {done : List (plane (Exact K)).Sub} (hd : Lined t ws done) :
    ∃ cuts, Cell.Fits (walls done) (ls.map (·.line t)) cuts ∧ Lined t ls cuts ∧
      ∀ {n : Node (plane (Exact K)) ℕ Bool}, n.IsChain cuts →
        ∃ fs, n.facets = .ok fs ∧ List.Forall₂ (IsSide L t all) ls fs.reverse := by
  induction ls generalizing ws done
  case nil =>
    refine ⟨[], .nil, .nil, fun hn => ?_⟩
    cases hn
    exact ⟨[], rfl, .nil⟩
  case cons l ls ih =>
    have hp : (l :: (ws ++ ls)).Perm all := List.perm_middle.symm.trans hall
    have hm := List.forall_mem_cons.mp fun w (hw : w ∈ l :: (ws ++ ls)) => hL w (hp.mem_iff.mp hw)
    have ⟨hws, hls⟩ := List.forall_mem_append.mp hm.2
    have ho : inner L t (all.erase l) = .univ ∩ inner L t ws ∩ inner L t ls := by
      have he := hp.erase l
      rw [List.erase_cons_head] at he
      rw [← inner_perm he, inner_append, Set.univ_inter]
    have ⟨a, ha, hi⟩ := hb l <| hp.mem_iff.mp List.mem_cons_self
    rw [ho] at hi
    obtain ⟨cut, hf, hs⟩ := fit_walls g hd hws (fills_whole g hm.1) ha hi.1
    obtain ⟨cuts, hfs, hcl, hn⟩ := ih (hp : (l :: ws ++ ls).Perm all) (.cons hs.line hd)
    refine ⟨cut :: cuts, .cons hf hfs, .cons hs.line hcl, fun hch => ?_⟩
    cases hch with | fork i x j hm =>
    have ⟨fs, hfs, hsides⟩ := hn hm
    have ⟨c, part, hc, hin, hp⟩ := characterize_chain g hm hcl hls hs ha hi Contact.has_empty rfl
    refine ⟨fs ++ [⟨part, .plusOutside⟩], ?facets, ?sides⟩
    case facets =>
      have hl : (Node.leaf (S := plane (Exact K)) j (some false)).facets = .ok [] := rfl
      rw [Node.facets, hl, hfs, Node.facetsOfCut_leaf hc hin (hp.isEmpty_eq g)]
      rfl
    case sides =>
      rw [List.reverse_append]
      exact .cons ⟨rfl, ho ▸ hp⟩ hsides

theorem convex_sides (hL : ∀ l ∈ all, l.place ∈ L l.axis)
    (hb : ∀ l ∈ all, ∃ a ∉ l.marks L, l.pointAt a ∈ inner L t (all.erase l)) (hn : all ≠ []) :
    ∃ r cuts fs, Region.convex (S := plane (Exact K)) (all.map (·.line t)) (.finite t) = .ok r ∧
      r.tolerance = .finite t ∧ r.tree.root.IsChain cuts ∧ Lined t all cuts ∧
      r.facets = .ok fs ∧ List.Forall₂ (IsSide L t all) all fs.reverse := by
  have ⟨cuts, hf, hl, hs⟩ := exists_sides g hL hb (.refl _ : ([] ++ all).Perm all) .nil
  have ⟨r, hr, ht, hch⟩ := Region.convex_of_fits (.finite t) hf (List.map_eq_nil_iff.not.mpr hn)
  have ⟨fs, hfs, h⟩ := hs hch
  exact ⟨r, cuts, fs, hr, ht, hch, hl, hfs, h⟩

end Plane
end SpacePartition
