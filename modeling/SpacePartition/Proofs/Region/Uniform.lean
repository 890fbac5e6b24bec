import SpacePartition.Region.Boundary
import SpacePartition.Proofs.Node.Layout
import SpacePartition.Proofs.Region.Operation
import SpacePartition.Space.Embedded

/-!
Partitions whose leaves are all inside, or all outside. They have no boundary, however many cuts
they have.
-/

namespace SpacePartition

variable {R : Type} {S : Space R} {ι : Type}

-- A family of parts that can always be put together again, and so can parts of them.
structure Space.Reunites (S : Space R) (P : S.Sub → Prop) : Prop where
  split {s h b part} : P s → (S.split s h).on b = some part → P part
  reunite {s s'} : P s → P s' → ∃ u, S.reunite s s' = .ok u ∧ P u

namespace Contact

def on (c : Contact S) (inside : Bool) : Option S.Sub :=
  if inside then c.inside else c.outside

-- Whether all parts that have touched something are of a family.
def Has (P : S.Sub → Prop) (c : Contact S) : Prop :=
  ∀ inside, ∀ s ∈ c.on inside, P s

variable {P : S.Sub → Prop} {c : Contact S} {s : S.Sub}

theorem has_empty : Has P ({} : Contact S) := by
  intro inside s hs
  cases inside <;> cases hs

theorem Has.touch (hP : S.Reunites P) (hc : c.Has P) (hs : P s) (inside : Bool) :
    ∃ c', c.touch inside s = .ok c' ∧ c'.Has P ∧ c'.on (!inside) = c.on !inside := by
  have ⟨u, hu, hPu⟩ : ∃ u, Contact.reunite (c.on inside) s = .ok (some u) ∧ P u := by
    cases ho : c.on inside
    case none => exact ⟨s, rfl, hs⟩
    case some old =>
      have ⟨u, hu, hPu⟩ := hP.reunite (hc inside old ho) hs
      exact ⟨u, by rw [Contact.reunite, hu]; rfl, hPu⟩
  cases inside
  case false =>
    refine ⟨{ c with outside := some u }, ?touch_outside, ?has_outside, rfl⟩
    case touch_outside => rw [Contact.touch, show Contact.reunite c.outside s = _ from hu]; rfl
    case has_outside =>
      rintro (_ | _) s' hs'
      case false => cases hs'; exact hPu
      case true  => exact hc true s' hs'
  case true =>
    refine ⟨{ c with inside := some u }, ?touch_inside, ?has_inside, rfl⟩
    case touch_inside => rw [Contact.touch, show Contact.reunite c.inside s = _ from hu]; rfl
    case has_inside =>
      rintro (_ | _) s' hs'
      case false => exact hc false s' hs'
      case true  => cases hs'; exact hPu

end Contact

namespace Node

-- Whether all leaves are inside, or all of them outside.
def Uniform (inside : Bool) : Node S ι Bool → Prop
  | leaf _ a       => (a == some true) = inside
  | fork _ _ _ p m => p.Uniform inside ∧ m.Uniform inside

variable {n p m : Node S ι Bool} {inside : Bool} {P : S.Sub → Prop} {c : Contact S} {s : S.Sub}

theorem isFull_iff : n.isFull = true ↔ n.Uniform true := by
  induction n <;> simp_all [isFull, Uniform, and_comm]

theorem isEmpty_iff : n.isEmpty = true ↔ n.Uniform false := by
  induction n <;> simp_all [isEmpty, Uniform, and_comm]

theorem Uniform.unique {inside' : Bool} (h : n.Uniform inside) (h' : n.Uniform inside') :
    inside = inside' := by
  induction n
  case leaf                => exact h.symm.trans h'
  case fork _ _ _ _ _ hp _ => exact hp h.1 h'.1

-- What falls through a partition touches leaves of the kinds that it has.
theorem exists_characterize (hP : S.Reunites P) (hs : P s) (hc : c.Has P) :
    ∃ c', n.characterize s c = .ok c' ∧ c'.Has P ∧
      ∀ inside, n.Uniform inside → c'.on (!inside) = c.on !inside := by
  induction n generalizing s c
  case leaf i a =>
    have ⟨c', h, hc', ho⟩ := hc.touch hP hs (a == some true)
    exact ⟨c', h, hc', fun _ hi => hi ▸ ho⟩
  case fork i a cut plus minus hp hm =>
    have both {p m : S.Sub} (hPp : P p) (hPm : P m) :
        ∃ c', (do minus.characterize m (← plus.characterize p c)) = Except.ok c' ∧ c'.Has P ∧
          ∀ inside, (fork i a cut plus minus).Uniform inside → c'.on (!inside) = c.on !inside := by
      have ⟨c₁, h₁, hc₁, ho₁⟩ := hp hPp hc
      have ⟨c₂, h₂, hc₂, ho₂⟩ := hm hPm hc₁
      refine ⟨c₂, by rw [h₁]; exact h₂, hc₂, fun inside hn => ?_⟩
      exact (ho₂ inside hn.2).trans (ho₁ inside hn.1)
    have part {b part} : (S.split s (S.hyperplane cut)).on b = some part → P part := hP.split hs
    rw [Node.characterize]
    split <;> rename_i hsp <;> rw [hsp] at part
    case h_1 => exact (hp hs hc).imp fun _ h => ⟨h.1, h.2.1, fun inside hn => h.2.2 inside hn.1⟩
    case h_2 => exact (hm hs hc).imp fun _ h => ⟨h.1, h.2.1, fun inside hn => h.2.2 inside hn.2⟩
    case h_3 => exact both (part (b := .plus) rfl) (part (b := .minus) rfl)
    case h_4 => exact both hs hs

theorem exists_contact (hP : S.Reunites P) (hs : P s) : ∃ c, n.contact s = .ok c ∧ c.Has P ∧
    ∀ inside, n.Uniform inside → c.on (!inside) = none := by
  have ⟨c, hc, hP, ho⟩ := n.exists_characterize hP hs Contact.has_empty
  exact ⟨c, hc, hP, fun inside hn => (ho inside hn).trans <| by cases inside <;> rfl⟩

theorem Uniform.contact (hP : S.Reunites P) (hn : n.Uniform inside) (hs : P s) :
    ∃ c, n.contact s = .ok c ∧ c.Has P ∧ c.on (!inside) = none :=
  (exists_contact hP hs).imp fun _ h => ⟨h.1, h.2.1, h.2.2 inside hn⟩

theorem Uniform.facetOn (hP : S.Reunites P) (hm : m.Uniform inside) {touched : Option S.Sub}
    (ht : ∀ s ∈ touched, P s) {facing : Facing}
    (hf : facing = if inside then .plusInside else .plusOutside) :
    m.facetOn facing touched = .ok [] := by
  cases touched
  case none => rfl
  case some s =>
    have ⟨c, hc, _, ho⟩ := hm.contact hP (ht s rfl)
    subst hf
    cases inside
    all_goals
      rw [Node.facetOn, hc]
      simp only [Contact.on, Bool.not_true, Bool.not_false, if_true, if_false, Bool.false_eq_true]
        at ho
      simp [ho, bind, Except.bind, pure, Except.pure]

-- The parts on the plus side face leaves of the same kind on the minus side.
theorem Uniform.facetsOfCut (hP : S.Reunites P) (hp : p.Uniform inside) (hm : m.Uniform inside)
    (hs : P s) : Node.facetsOfCut s p m = .ok [] := by
  have ⟨c, hc, hh, ho⟩ := hp.contact hP hs
  have none (facing : Facing) {o : Option S.Sub} (h : o = none) : m.facetOn facing o = .ok [] :=
    h ▸ rfl
  have hf : m.facetOn .plusOutside c.outside = .ok [] ∧
      m.facetOn .plusInside c.inside = .ok [] := by
    cases inside
    case false => exact ⟨hm.facetOn hP (hh false) rfl, none _ ho⟩
    case true  => exact ⟨none _ ho, hm.facetOn hP (hh true) rfl⟩
  rw [Node.facetsOfCut, hc]
  simp only [bind, Except.bind, hf]
  rfl

theorem Uniform.facets (hn : n.Uniform inside) (hc : ∀ s ∈ n.cuts, ∃ P, S.Reunites P ∧ P s) :
    n.facets = .ok [] := by
  induction n
  case leaf => rfl
  case fork i a cut plus minus hp hm =>
    have ⟨⟨P, hP, hs⟩, hc⟩ := List.forall_mem_cons.mp hc
    have ⟨hcp, hcm⟩ := List.forall_mem_append.mp hc
    rw [Node.facets, hp hn.1 hcp, hm hn.2 hcm]
    simp [bind, Except.bind, pure, Except.pure, Uniform.facetsOfCut hP hn.1 hn.2 hs]

end Node

theorem Region.not_isFull {r : Region S} (h : r.isEmpty = true) : r.isFull = false :=
  Bool.eq_false_iff.mpr fun hf =>
    absurd (Node.Uniform.unique (Node.isFull_iff.mp hf) (Node.isEmpty_iff.mp h)) nofun

-- Regions of one tolerance, which is a number, have a union, whatever their trees are.
theorem Region.exists_union [BEq R] {a b : Region S} (h : a.tolerance == b.tolerance) :
    ∃ r, a.union b = .ok r ∧ r.tolerance = a.tolerance := by
  have hu := Region.combine_pure h fun e _ => Operation.merger_pure .union
    (m := Except (Violation R)) (fun e _ n => n.agreed (some e.leaf.isInside)) e
  rw [← Operation.union_eq] at hu
  exact ⟨_, hu, rfl⟩

section Embedded

variable [Scalar R] {E : Embedding R} {s part : Embedded E} {h : E.Hyperplane} {b : Branch}

theorem Embedded.tolerance_split (hp : (s.split h).on b = some part) :
    part.remaining.tolerance = s.remaining.tolerance := by
  have crossing {trace half} (hp : s.part trace half = some part) :
      part.remaining.tolerance = s.remaining.tolerance := by
    rw [Embedded.part] at hp
    split at hp <;> cases hp
    rfl
  rw [Embedded.split] at hp
  split at hp
  case h_1 =>
    split at hp
    case isTrue => cases b <;> cases hp; rfl
    case isFalse =>
      split at hp <;> cases b <;> cases hp
      rfl
  case h_2 => cases b <;> exact crossing hp

-- Parts of a line or a plane can be put together if they are cut at one tolerance.
theorem Embedding.reunites (E : Embedding R) {tolerance : R} (h : tolerance == tolerance) :
    E.space.Reunites fun s : Embedded E => s.remaining.tolerance = tolerance where
  split hs hp := (Embedded.tolerance_split hp).trans hs
  reunite {s s'} hs hs' := by
    have ht :
        Region.tolerance (Embedded.remaining s) == Region.tolerance (Embedded.remaining s') := by
      rwa [hs, hs']
    have ⟨r, hr, hrt⟩ := Region.exists_union ht
    refine ⟨_, congrArg (_ <$> ·) hr, hrt.trans hs⟩

end Embedded
end SpacePartition
