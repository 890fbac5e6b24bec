import SpacePartition.Node.Cell
import SpacePartition.Node.Walk

/-!
What the operations on nodes do to sizes, identifiers, leaves and paths.
-/

namespace SpacePartition

variable {R : Type} {S : Space R} {ι κ α : Type}

namespace Node

@[simp]
theorem length_ids (n : Node S ι α) : n.ids.length = n.size := by
  induction n <;> simp_all [ids, size, Nat.add_assoc]

-- A fork has two sides, so that leaves outnumber forks by one.
theorem size_add_one (n : Node S ι α) : n.size + 1 = 2 * n.leafCount := by
  induction n
  case leaf => rfl
  case fork => simp only [size, leafCount]; omega

@[simp]
theorem size_relabel (f : ι → κ) (n : Node S ι α) : (n.relabel f).size = n.size := by
  induction n <;> simp_all [relabel, size]

@[simp]
theorem ids_relabel (f : ι → κ) (n : Node S ι α) : (n.relabel f).ids = n.ids.map f := by
  induction n <;> simp_all [relabel, ids]

@[simp]
theorem leafAttrs_relabel (f : ι → κ) (n : Node S ι α) : (n.relabel f).leafAttrs = n.leafAttrs := by
  induction n <;> simp_all [relabel, leafAttrs]

@[simp]
theorem size_number (k : Nat) (n : Node S ι α) : (n.number k).size = n.size := by
  induction n generalizing k <;> simp_all [number, size]

@[simp]
theorem leafAttrs_number (k : Nat) (n : Node S ι α) : (n.number k).leafAttrs = n.leafAttrs := by
  induction n generalizing k <;> simp_all [number, leafAttrs]

@[simp]
theorem ids_number (k : Nat) (n : Node S ι α) : (n.number k).ids = List.range' k n.size := by
  induction n generalizing k
  case leaf => simp [number, ids, size]
  case fork hp hm =>
    simp only [number, ids, size, hp, hm, List.append_assoc, ← List.range'_append_1,
      List.range'_one, Nat.add_assoc]

theorem mem_leafAttrs_condense [DecidableEq α] {n : Node S ι α} {a : Option α} :
    a ∈ n.condense.leafAttrs ↔ a ∈ n.leafAttrs := by
  fun_cases condense n <;> simp_all [leafAttrs]

theorem mem_leafAttrs_simplify [DecidableEq α] {n : Node S ι α} {a : Option α} :
    a ∈ n.simplify.leafAttrs ↔ a ∈ n.leafAttrs := by
  induction n <;> simp_all [simplify, mem_leafAttrs_condense, leafAttrs]

@[simp]
theorem leafAttrs_clearForks (n : Node S ι α) : n.clearForks.leafAttrs = n.leafAttrs := by
  induction n <;> simp_all [clearForks, leafAttrs]

theorem at?_append (p q : Path) (n : Node S ι α) : n.at? (p ++ q) = (n.at? p).bind (·.at? q) := by
  fun_induction at? p n <;> simp_all [at?]

-- The nodes on the way to another one are forks.
theorem exists_fork {n m : Node S ι α} {p q : Path} {b : Branch}
    (h : n.at? (p ++ b :: q) = some m) :
    ∃ i t c l r, n.at? p = some (fork i t c l r) ∧ (b.pick l r).at? q = some m := by
  rw [at?_append, Option.bind_eq_some_iff] at h
  obtain ⟨k, hk, h⟩ := h
  cases k
  case leaf => cases h
  case fork => exact ⟨_, _, _, _, _, hk, by cases b <;> exact h⟩

theorem locateIn_node (cell : Cell S) (p : Path) (n : Node S ι α) :
    (n.locateIn cell p).map (·.2) = n.at? p := by
  fun_induction locateIn cell p n <;> simp_all [at?]

@[simp]
theorem locate_node (p : Path) (n : Node S ι α) : (n.locate p).map (·.2) = n.at? p :=
  n.locateIn_node [] p

theorem exists_locate {n m : Node S ι α} {p : Path} (h : n.at? p = some m) :
    ∃ cell, n.locate p = some (cell, m) := by
  obtain ⟨⟨cell, _⟩, hc, rfl⟩ := Option.map_eq_some_iff.mp <| (n.locate_node p).trans h
  exact ⟨cell, hc⟩

-- The walk to the cell of a point ends at the cell.
theorem at?_descend [Scalar R] (x : S.Point) (tolerance : R) (n : Node S ι α) :
    n.at? (n.descend x tolerance) = some (n.cellOf x tolerance) := by
  fun_induction descend x tolerance n <;> simp_all [at?, cellOf]

end Node
end SpacePartition
