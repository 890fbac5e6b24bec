import SpacePartition.Proofs.Region.Construction

/-!
Carving. The tree that facets carve is one of the partitions that the first facet to reach the cell
begins and the parts of the others continue, whichever order the facets come in.
-/

namespace SpacePartition

variable {R : Type} {S : Space R}

-- The parts of facets on a side of a hyperplane.
def scattered (h : S.Hyperplane) (fs : List S.Sub) (b : Branch) : List S.Sub :=
  b.pick (scatter h fs).1 (scatter h fs).2

-- The partitions of a cell that facets carve, as they come.
inductive Carving {ι α : Type} : Cell S → List S.Sub → Node S ι α → Prop
  | leaf {cell : Cell S} (i : ι) (a : Option α) : Carving cell [] (.leaf i a)
  | miss {cell : Cell S} {f : S.Sub} {fs : List S.Sub} {n : Node S ι α} :
      cell.fit (S.whole (S.hyperplane f)) = none → Carving cell fs n → Carving cell (f :: fs) n
  | fork {cell : Cell S} {f cut : S.Sub} {fs : List S.Sub} {p m : Node S ι α}
        (i : ι) (a : Option α) :
      cell.fit (S.whole (S.hyperplane f)) = some cut →
      (∀ b : Branch, Carving (⟨cut, b⟩ :: cell) (scattered (S.hyperplane f) fs b) (b.pick p m)) →
      Carving cell (f :: fs) (.fork i a cut p m)

namespace Node

variable {ι α : Type} {n n' : Node S ι α} {cell cell' : Cell S} {path : Path}

theorem modify_self (h : n.locateIn cell path = some (cell', n')) :
    n.modify (fun _ => n') path = n := by
  fun_induction locateIn cell path n <;> simp_all [modify]

-- Below a node that is exchanged, the new node is found.
theorem locate_modify {m : Node S ι α} (h : n.locate path = some (cell, n')) (path' : Path) :
    (n.modify (fun _ => m) path).locate (path ++ path') = m.locateIn cell path' := by
  rw [locate, locateIn_append, locateIn_modify h, Option.bind_some]

end Node

namespace Tree

variable {t : Tree S Bool} {path : Path} {fs : List S.Sub} {cell : Cell S} {i : Nat}
variable {a : Option Bool}

theorem insertCut_eq (h : t.root.locate path = some (cell, .leaf i a)) (plane : S.Hyperplane) :
    (cell.fit (S.whole plane) = none ∧ t.insertCut path plane = .ok none) ∨
    ∃ cut t' k j, cell.fit (S.whole plane) = some cut ∧ t.insertCut path plane = .ok (some t') ∧
      t'.root = t.root.modify (fun _ => .fork i none cut (.leaf k a) (.leaf j a)) path := by
  simp only [insertCut, h]
  cases hf : cell.fit (S.whole plane)
  case none     => exact .inl ⟨rfl, rfl⟩
  case some cut => exact .inr ⟨cut, _, _, _, rfl, rfl, rfl⟩

-- Carving a leaf puts one of the partitions in its place.
theorem root_carve (h : t.root.locate path = some (cell, .leaf i a)) :
    ∃ n, (t.carve path fs).root = t.root.modify (fun _ => n) path ∧ Carving cell fs n := by
  fun_induction carve t path fs generalizing cell i a
  case case1 => exact ⟨_, (Node.modify_self h).symm, .leaf i a⟩
  case case2 t path f fs t' hi _ u ihp ihm =>
    obtain ⟨-, hn⟩ | ⟨cut, t', k, j, hf, hc, ht⟩ := insertCut_eq h (S.hyperplane f)
    case inl => rw [hn] at hi; cases hi
    case inr =>
      rw [hc] at hi
      cases hi
      obtain ⟨p, hp, cp⟩ := ihp (by rw [ht, Node.locate_modify h]; rfl)
      have hu : u.root = t.root.modify (fun _ => .fork i none cut p (.leaf j a)) path := by
        rw [hp, ht, Node.modify_append, Node.modify_modify]
        rfl
      obtain ⟨m, hm, cm⟩ := ihm (by rw [hu, Node.locate_modify h]; rfl)
      refine ⟨.fork i none cut p m, ?root, .fork i none hf fun b => ?sides⟩
      case root =>
        rw [hm, hu, Node.modify_append, Node.modify_modify]
        rfl
      case sides =>
        cases b
        case plus  => exact cp
        case minus => exact cm
  case case3 t path f fs hi ih =>
    obtain ⟨hf, -⟩ | ⟨_, t', _, _, _, hc, _⟩ := insertCut_eq h (S.hyperplane f)
    case inl => exact (ih h).imp fun n hn => ⟨hn.1, .miss hf hn.2⟩
    case inr => exact absurd hc (hi t')

-- A whole tree is carved from a single leaf.
theorem carving_carve (fs : List S.Sub) (a : Option Bool) :
    Carving [] fs (carve (.leaf a) [] fs).root := by
  have hl : (leaf (S := S) a).root.locate [] = some ([], .leaf 0 a) := rfl
  obtain ⟨n, hn, hc⟩ := root_carve hl
  exact hn ▸ hc

end Tree
end SpacePartition
