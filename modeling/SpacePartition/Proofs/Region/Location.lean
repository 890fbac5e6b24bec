import Mathlib.Data.Set.Basic
import SpacePartition.Region.Basic

/-!
Locations. They sum up what a region has close to a point: all of it inside, none of it, or some.
-/

namespace SpacePartition.Location

variable {P : Type} {l l' : Location} {X Y U V : Set P}

def ofInside (inside : Bool) : Location :=
  if inside then .inside else .outside

-- The location of a point on a cut, from what is inside on its two sides.
def between (x y : Bool) : Location :=
  if x = y then ofInside x else .boundary

-- The location in the complement.
def opposite : Location → Location
  | inside    => outside
  | outside   => inside
  | boundary  => boundary
  | undefined => undefined

theorem join_ofInside {x y : Bool} : (ofInside x).join (ofInside y) = between x y := by
  cases x <;> cases y <;> rfl

theorem between_comm {x y : Bool} : between x y = between y x := by
  cases x <;> cases y <;> rfl

theorem join_eq_inside : l.join l' = inside ↔ l = inside ∧ l' = inside := by
  cases l <;> cases l' <;> decide

theorem join_eq_outside : l.join l' = outside ↔ l = outside ∧ l' = outside := by
  cases l <;> cases l' <;> decide

theorem join_eq_undefined : l.join l' = undefined ↔ l = undefined ∨ l' = undefined := by
  cases l <;> cases l' <;> decide

theorem opposite_join : (l.join l').opposite = l.opposite.join l'.opposite := by
  cases l <;> cases l' <;> rfl

-- Whether a location says of points whether all of them, none of them or some are in a set.
structure Sums (l : Location) (X U : Set P) : Prop where
  inside  : l = .inside ↔ X ⊆ U
  outside : l = .outside ↔ ∀ x ∈ X, x ∉ U
  defined : l ≠ .undefined

theorem Sums.join (h : l.Sums X U) (h' : l'.Sums Y U) : (l.join l').Sums (X ∪ Y) U where
  inside  := by rw [join_eq_inside, h.inside, h'.inside, Set.union_subset_iff]
  outside := by
    simp only [join_eq_outside, h.outside, h'.outside, Set.mem_union, or_imp, forall_and]
  defined := join_eq_undefined.not.mpr <| not_or.mpr ⟨h.defined, h'.defined⟩

theorem Sums.congr (h : l.Sums X U) (hX : ∀ x ∈ X, x ∈ U ↔ x ∈ V) : l.Sums X V where
  inside  := h.inside.trans <| forall₂_congr hX
  outside := h.outside.trans <| forall₂_congr fun x hx => not_congr (hX x hx)
  defined := h.defined

theorem Sums.boundary (h : l.Sums X U) :
    l = .boundary ↔ (∃ x ∈ X, x ∈ U) ∧ ∃ x ∈ X, x ∉ U := by
  have hb : l = .boundary ↔ l ≠ .outside ∧ l ≠ .inside := by
    have := h.defined
    cases l <;> simp_all
  rw [hb, Ne, Ne, h.inside, h.outside, Set.not_subset]
  simp only [not_forall, not_not, exists_prop]

theorem sums_ofInside (hX : X.Nonempty) (inside : Bool) :
    (ofInside inside).Sums X {_x | inside = true} := by
  cases inside <;> constructor <;> simp [ofInside, hX.ne_empty, Set.nonempty_def.mp hX]

end SpacePartition.Location
