import Mathlib.Algebra.Order.Field.Rat
import SpacePartition.Proofs.Arena.Fitting
import SpacePartition.Proofs.Line.Layout

/-!
Fitting a node of the line to its cell. Cuts are kept as they are or taken away, so that those that
are left lie beyond every wall, and fitting the node once more leaves it alone.
-/

namespace SpacePartition

variable {R : Type} [Scalar R] {ι α : Type} {cell cell' walls : Cell (line R)}
variable {wall : Wall (line R)}
variable {n : Node (line R) ι α} {choose : Choice (line R) ι α} {s h : OrientedPoint R} {b : Branch}

-- A part lies strictly beyond the tolerance.
theorem OrientedPoint.lt_offset_of_part {part : OrientedPoint R}
    (hp : (s.split h).on b = some part) :
    b.pick (h.tolerance < h.offset s.location) (h.offset s.location < -h.tolerance) := by
  rw [split] at hp
  split at hp
  case isTrue hm => cases b <;> cases hp; exact hm
  case isFalse =>
    split at hp
    case isTrue hp' => cases b <;> cases hp; exact hp'
    case isFalse    => cases b <;> cases hp

namespace Node

theorem mem_cuts_trim (hs : s ∈ (n.trim choose h b cell).cuts) :
    s ∈ n.cuts ∧ (s.split h).on b = some s := by
  induction n generalizing cell
  case leaf => cases hs
  case fork i a c p m hp hm =>
    have here {part} (hc : (c.split h).on b = some part) : part = c := OrientedPoint.part_eq hc
    rw [trim_fork] at hs
    split at hs
    case h_2 => cases hs
    case h_1 part hc =>
      cases here hc
      rcases List.mem_cons.mp hs with rfl | hs
      case inl => exact ⟨List.mem_cons_self, hc⟩
      case inr =>
        rcases List.mem_append.mp hs with hs | hs
        case inl =>
          exact (hp hs).imp_left fun hs => List.mem_cons_of_mem _ <| List.mem_append_left _ hs
        case inr =>
          exact (hm hs).imp_left fun hs => List.mem_cons_of_mem _ <| List.mem_append_right _ hs

-- The walls are met one after the other, and what one of them has left, the others keep or take
-- away.
theorem keptBy_trimAll : (n.trimAll choose cell walls).KeptBy walls ∧
    (n.trimAll choose cell walls).cuts ⊆ n.cuts := by
  induction walls generalizing n
  case nil => exact ⟨fun _ => nofun, List.Subset.refl _⟩
  case cons wall walls ih =>
    rw [trimAll_cons]
    obtain ⟨hk, hs⟩ := ih (n := n.trim choose wall.cut wall.side cell)
    refine ⟨List.forall_mem_cons.mpr ⟨fun s hm => ?kept, hk⟩, fun s hm => ?subset⟩
    case kept   => exact (mem_cuts_trim <| hs hm).2
    case subset => exact (mem_cuts_trim <| hs hm).1

theorem keptBy_placeIn [DecidableEq α] : (n.placeIn choose cell).KeptBy cell :=
  fun wall hw s hs => keptBy_trimAll.1 wall hw s <| cuts_condense_subset hs

end Node

namespace Arena

variable {a : Arena (line R) α} {i : Nat} [DecidableEq α]

-- Every cut that is left is beyond the walls of the cell, whatever the walls further up have taken
-- away after it was met by one of them.
theorem insertIn_fits (ha : a.WellFormed) (hi : a.Reachable i) (hr : i ≠ a.root)
    (fallback : Option α) :
    ∃ place a',
      (Action.slot i : Action _ α Unit Empty _) (a, ()) = some (.ok (some place, a, ())) ∧
      (Action.insertIn (Action.agreed fallback) i (some place) : Action _ α Unit Empty _) (a, ()) =
        some (.ok ((), a', ())) ∧
      (∀ wall ∈ a.wallsAbove i, ∀ c ∈ a'.cutsBelow i, wall.side.pick
        (wall.cut.tolerance < wall.cut.offset c.location)
        (wall.cut.offset c.location < -wall.cut.tolerance)) ∧
      (∀ j, (∀ path, a.follow path i ≠ some j) → a'.entries[j]? = a.entries[j]?) ∧
      ∀ (σ ε : Type) (fix : Handler (line R) α σ ε) (s : σ),
        Action.insertIn fix i (some place) (a', s) = some (.ok ((), a', s)) := by
  obtain ⟨q, b, cell, forks, m, rfl, hl, hq, hw⟩ := ha.exists_located hi hr
  obtain ⟨_, a', _, hrun, m', hid, hp, hm, hsize⟩ :=
    (Action.yields_insertIn (σ := Unit) (ε := Empty) (Action.answers_agreed fallback)
      hl.walls hl.holds hl.nodup hl.apart hl.vacant).exists_ok ()
  rw [Node.insertIn_pure, SetM.mem_run_pure] at hm
  have hk : m'.KeptBy cell := by
    rw [← Node.keptBy_bare, hm]
    exact Node.keptBy_placeIn
  have hc : m'.bare.condense = m'.bare := by
    rw [hm]
    exact Node.condense_condense
  rw [← hid] at hq
  refine ⟨(q, b), a', Action.run_slot hl.holds.entry Node.parent_entry hl.hangs, hrun,
    ?beyond, ?rest, fun σ ε fix s => ?again⟩
  case beyond =>
    intro wall hwall c hc'
    rw [← hid, hp.located.holds.mem_cutsBelow] at hc'
    exact OrientedPoint.lt_offset_of_part <| hk wall (hw wall hwall) c hc'
  case rest =>
    refine fun j hj => hp.entry_eq hq hsize fun hjm => ?_
    obtain ⟨path, k, hk, rfl⟩ := Node.mem_ids_iff_at?.mp hjm
    exact hj path <| hl.holds.follow.trans <| Option.map_eq_some_iff.mpr ⟨k, hk, rfl⟩
  case again =>
    rw [← hid]
    refine Action.run_insertIn hp.located ?_ hk hc
    rintro _ _ ⟨⟩
    rw [child?, hp.attaches.entry_eq hq]
    exact hq

-- Of two cuts below a ray, one is on the other side of its bound.
theorem insertIn_fits_of_cut_beyond_wall :
    let cut (x : ℚ) : OrientedPoint (Exact ℚ) := ⟨.finite x, true, .finite 1⟩
    let a : Arena (line (Exact ℚ)) Nat :=
      ⟨#[⟨.leaf, some 2, some 7⟩, ⟨.leaf, some 2, some 8⟩, ⟨.fork (cut 5) 0 1, some 4, none⟩,
        ⟨.leaf, some 4, some 6⟩, ⟨.fork (cut (-5)) 2 3, some 6, none⟩, ⟨.leaf, some 6, none⟩,
        ⟨.fork (cut 0) 5 4, none, none⟩], 6⟩
    let fix : Handler (line (Exact ℚ)) Nat Unit Empty := Action.agreed (some 9)
    (a.WellFormed ∧ a.Reachable 4 ∧ 4 ≠ a.root) ∧
    ∃ a', Action.insertIn fix 4 (some (6, .minus)) (a, ()) = some (.ok ((), a', ())) ∧
      (∀ c ∈ a'.cutsBelow 4, (cut 0).offset c.location < -.finite 1) ∧
      Action.insertIn fix 4 (some (6, .minus)) (a', ()) = some (.ok ((), a', ())) := by
  intro cut a fix
  let n : Node (line (Exact ℚ)) Nat Nat := .fork 6 none (cut 0) (.leaf 5 none)
    (.fork 4 none (cut (-5)) (.fork 2 none (cut 5) (.leaf 0 (some 7)) (.leaf 1 (some 8)))
      (.leaf 3 (some 6)))
  have hn : a.Holds none n := ⟨rfl, rfl, rfl, ⟨rfl, rfl, rfl⟩, rfl⟩
  have ha : a.WellFormed := hn.wellFormed rfl rfl (by decide : [5, 0, 1, 2, 3, 4, 6].Nodup)
  have hi : a.Reachable 4 := ⟨[.minus], rfl⟩
  refine ⟨⟨ha, hi, by decide⟩, ?_⟩
  obtain ⟨place, a', hs, hr, hb, -, hr'⟩ := insertIn_fits ha hi (by decide) (some 9)
  have hs' : (Action.slot 4 : Action _ Nat Unit Empty _) (a, ()) =
      some (.ok (some (6, .minus), a, ())) := rfl
  cases hs.symm.trans hs'
  have hw : ⟨cut 0, .minus⟩ ∈ a.wallsAbove 4 := ⟨6, [], _, _, _, _, ⟨[], rfl⟩, rfl, rfl⟩
  exact ⟨a', hr, hb _ hw, hr' Unit Empty fix ()⟩

end Arena
end SpacePartition
