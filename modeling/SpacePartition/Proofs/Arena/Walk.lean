import Mathlib.Algebra.Order.Field.Rat
import SpacePartition.Arena.Walk
import SpacePartition.Line.Basic
import SpacePartition.Proofs.Arena.Extract
import SpacePartition.Proofs.Arena.Fitting
import SpacePartition.Proofs.Node.Walk
import SpacePartition.Proofs.Scalar.Exact

/-!
Visits to the nodes of an arena. Whatever orders the forks are given, a visit comes by each node
below the first one once, and by the nodes below any other node one after the other.
-/

namespace SpacePartition.Arena

variable {R : Type} {S : Space R} {α σ ε : Type}
variable {a : Arena S α} {p : Option Nat} {n : Node S Nat α} {f : Index → Order} {i : Nat} {s : σ}

namespace Action

-- Whether an action leaves the arena as it is and records given nodes.
def Records (x : Action S α (List Index) ε Unit) (a : Arena S α) (l : List Index) : Prop :=
  ∀ log, x (a, log) = some (.ok ((), a, log ++ l))

section Records

variable {x y z : Action S α (List Index) ε Unit} {k l m : List Index}

theorem Records.three (hx : x.Records a k) (hy : y.Records a l) (hz : z.Records a m) :
    (do x; y; z : Action S α (List Index) ε Unit).Records a (k ++ l ++ m) := by
  intro log
  refine (run_bind (hx log)).trans <| (run_bind (hy _)).trans <| (hz _).trans ?_
  simp only [List.append_assoc]

theorem records_visit (h : a.Holds p n) :
    (Index.visit (.collecting f) n.id : Action S α _ ε Unit).Records a (n.tour f) := by
  induction n generalizing p
  case leaf i t =>
    intro log
    rw [Index.visit]
    exact run_bind (run_children h)
  case fork i t c l r hl hr =>
    have plus := hl h.2.1
    have minus := hr h.2.2
    let v : Visitor S α (List Index) := .collecting f
    have self : (consult v.fork i : Action S α _ ε Unit).Records a [i] := fun _ => rfl
    intro log
    have order :
        (consult v.order i : Action S α _ ε Order) (a, log) = some (.ok (f i, a, log)) := rfl
    rw [Index.visit]
    refine (run_bind (run_children h.1)).trans <| (run_bind order).trans ?_
    rw [Node.tour]
    cases f i
    case plusMinusSelf => exact plus.three minus self log
    case plusSelfMinus => exact plus.three self minus log
    case minusPlusSelf => exact minus.three plus self log
    case minusSelfPlus => exact minus.three self plus log
    case selfPlusMinus => exact self.three plus minus log
    case selfMinusPlus => exact self.three minus plus log

theorem records_visit_root (h : a.Holds p n) (hr : n.id = a.root) :
    (visit (.collecting f) : Action S α _ ε Unit).Records a (n.tour f) :=
  fun log => (run_bind run_arena).trans <| hr ▸ records_visit h log

end Records

-- The search comes by the nodes below the top of the stack before it goes on with the rest.
theorem run_reach {stack : Stack} {l : List Index} (h : a.Holds p n)
    (hs : (stack.reach : Action S α σ ε _) (a, s) = some (.ok (l, a, s))) :
    (stack.push n.id |>.reach : Action S α σ ε _) (a, s) =
      some (.ok (n.tour (fun _ => .selfPlusMinus) ++ l, a, s)) := by
  induction n generalizing p stack l
  case leaf i t =>
    rw [Stack.push, Stack.reach]
    exact (run_bind (run_children h)).trans <| run_bind hs
  case fork i t c l r hl hr =>
    rw [Stack.push, Stack.reach]
    refine (run_bind (run_children h.1)).trans <| (run_bind <| hl h.2.1 <| hr h.2.2 hs).trans ?_
    simp only [Node.tour, Order.arrange, List.append_assoc]
    rfl

theorem run_reach_one (h : a.Holds p n) : (Stack.reach [n.id] : Action S α σ ε _) (a, s) =
    some (.ok (n.tour fun _ => .selfPlusMinus, a, s)) := by
  have hs : (Stack.reach [] : Action S α σ ε _) (a, s) = some (.ok ([], a, s)) := by
    rw [Stack.reach]
    rfl
  exact (run_reach h hs).trans <| by rw [List.append_nil]

theorem run_countLeaves {k : Nat} (h : a.Holds p n) :
    ((n.tour fun _ => .selfPlusMinus).foldlM (fun k i => return if ← isLeaf i then k + 1 else k) k :
      Action S α σ ε Nat) (a, s) = some (.ok (k + n.leafCount, a, s)) := by
  induction n generalizing p k
  case leaf i t =>
    rw [Node.tour, List.foldlM_cons]
    exact run_bind <| run_bind <| run_isLeaf (n := .leaf i t) h
  case fork i t c l r hl hr =>
    have ht : (Node.fork i t c l r).tour (fun _ => .selfPlusMinus) =
        i :: (l.tour (fun _ => .selfPlusMinus) ++ r.tour fun _ => .selfPlusMinus) := rfl
    rw [ht, List.foldlM_cons, Node.leafCount, ← Nat.add_assoc]
    refine (run_bind <| run_bind <| run_isLeaf (n := .fork i t c l r) h.1).trans ?_
    rw [List.foldlM_append]
    exact (run_bind (hl h.2.1)).trans (hr h.2.2)

theorem run_nodeCount (h : a.Holds p n) (hr : n.id = a.root) :
    (nodeCount : Action S α σ ε Nat) (a, s) = some (.ok (n.size, a, s)) := by
  refine (run_bind run_arena).trans <| (run_bind <| hr ▸ run_reach_one h).trans ?_
  rw [Node.length_tour]
  rfl

theorem run_leafCount (h : a.Holds p n) (hr : n.id = a.root) :
    (leafCount : Action S α σ ε Nat) (a, s) = some (.ok (n.leafCount, a, s)) := by
  refine (run_bind run_arena).trans <| (run_bind <| hr ▸ run_reach_one h).trans ?_
  exact (run_countLeaves h).trans <| by rw [Nat.zero_add]

end Action

open SpacePartition.Arena.Action

-- Whether a list has the nodes at and below a node, each once and with the forks between their
-- sides as their orders say.
structure Covers (a : Arena S α) (f : Index → Order) (i : Index) (l : List Index) : Prop where
  once   : l.Nodup
  below {j : Nat} : j ∈ l ↔ ∃ path, a.follow path i = some j
  placed {c plus minus p t} : a.entries[i]? = some ⟨.fork c plus minus, p, t⟩ → ∃ lp lm,
    (Index.visit (.collecting f) plus : Action S α _ Empty Unit).Records a lp ∧
    (Index.visit (.collecting f) minus : Action S α _ Empty Unit).Records a lm ∧
    l = (f i).arrange lp lm [i]

theorem Holds.covers (h : a.Holds p n) (hn : n.ids.Nodup) : a.Covers f n.id (n.tour f) where
  once := Node.tour_perm.nodup_iff.mpr hn
  below := by
    intro j
    simp only [Node.tour_perm.mem_iff, Node.mem_ids_iff_at?, h.follow, Option.map_eq_some_iff]
  placed he := by
    cases n
    case leaf => cases h.symm.trans he
    case fork =>
      cases h.1.symm.trans he
      exact ⟨_, _, records_visit h.2.1, records_visit h.2.2, rfl⟩

-- A visit comes by the nodes at and below the first one, once each and with every fork where its
-- order has it, and the nodes below any of them are visited one after the other. Mirrored orders
-- give the visit backwards. In a copy, the entries stand in the order in which forks come last. The
-- nodes below the root are one less than twice as many as the leaves among them.
theorem covers_visit (ha : a.WellFormed) (f : Index → Order) :
    (∀ i, a.Reachable i → ∃ l,
      (Index.visit (.collecting f) i : Action S α _ Empty Unit).Records a l ∧ a.Covers f i l ∧
      (∀ j ∈ l, ∃ block, (Index.visit (.collecting f) j : Action S α _ Empty Unit).Records a block ∧
        a.Covers f j block ∧ block <:+: l) ∧
      (Index.visit (.collecting fun j => (f j).mirror) i :
        Action S α _ Empty Unit).Records a l.reverse ∧
      ∃ c, (extract i : Action S α Unit Empty _) (a, ()) = some (.ok (c, a, ())) ∧
        (nodeCount : Action S α Unit Empty _) (c, ()) = some (.ok (l.length, c, ())) ∧
        (visit (.collecting fun _ => .plusMinusSelf) : Action S α _ Empty Unit).Records c
          (List.range l.length)) ∧
    ∃ l k, (visit (.collecting f) : Action S α _ Empty Unit).Records a l ∧
      (nodeCount : Action S α Unit Empty _) (a, ()) = some (.ok (l.length, a, ())) ∧
      (leafCount : Action S α Unit Empty _) (a, ()) = some (.ok (k, a, ())) ∧
      l.length + 1 = 2 * k := by
  constructor
  case left =>
    intro i hi
    obtain ⟨p, n, hn, rfl, hd⟩ := ha.exists_holds_below hi
    have hc : a.Covers f n.id (n.tour f) := hn.covers hd
    refine ⟨n.tour f, records_visit hn, hc, fun j hj => ?block, ?mirror, ?copy⟩
    case block =>
      obtain ⟨path, m, hm, rfl⟩ := Node.mem_ids_iff_at?.mp <| Node.tour_perm.mem_iff.mp hj
      obtain ⟨q, hq⟩ := hn.at? hm
      have hb : m.tour f <:+: n.tour f := Node.infix_tour hm
      have hdm : m.ids.Nodup := Node.tour_perm.nodup_iff.mp <| hc.once.sublist hb.sublist
      exact ⟨m.tour f, records_visit hq, hq.covers hdm, hb⟩
    case mirror => exact Node.tour_mirror ▸ records_visit hn
    case copy =>
      obtain ⟨c, hc, hac⟩ := hn.exists_extract
      have hs : (Tree.ofNode n).root.size = n.size := Node.size_number ..
      refine ⟨c, hac, ?count, ?order⟩
      case count => rw [Node.length_tour, ← hs]; exact run_nodeCount hc.holds hc.root
      case order =>
        rw [Node.length_tour, show n.size = c.entries.size from hc.size.symm, ← hc.ids_eq,
          ← Node.tour_plusMinusSelf]
        exact records_visit_root hc.holds hc.root
  case right =>
    obtain ⟨n, hn, hr, -⟩ := ha.exists_holds
    refine ⟨n.tour f, n.leafCount, records_visit_root hn hr, ?nodes, run_leafCount hn hr, ?leaves⟩
    case nodes  => rw [Node.length_tour]; exact run_nodeCount hn hr
    case leaves => rw [Node.length_tour, Node.size_add_one]

-- The root comes between its sides, the minus side first, and the fork below it after its own. One
-- entry cannot be reached.
theorem covers_visit_of_mixed_orders :
    let cut (x : ℚ) : OrientedPoint (Exact ℚ) := ⟨.finite x, true, .finite 1⟩
    let a : Arena (line (Exact ℚ)) Bool := ⟨#[⟨.fork (cut 0) 3 1, none, none⟩,
      ⟨.leaf, some 0, some true⟩, ⟨.leaf, none, none⟩, ⟨.fork (cut 5) 5 4, some 0, none⟩,
      ⟨.leaf, some 3, some true⟩, ⟨.leaf, some 3, some false⟩], 0⟩
    let f (i : Index) : Order := if i = 0 then .minusSelfPlus else .plusMinusSelf
    a.WellFormed ∧ a.Reachable 0 ∧ a.Covers f 0 [1, 0, 5, 4, 3] ∧
      (visit (.collecting f) : Action _ _ _ Empty Unit).Records a [1, 0, 5, 4, 3] ∧
      (Index.visit (.collecting fun j => (f j).mirror) 0 : Action _ _ _ Empty Unit).Records a
        [3, 4, 5, 0, 1] ∧
      (nodeCount : Action _ _ Unit Empty _) (a, ()) = some (.ok (5, a, ())) ∧
      (leafCount : Action _ _ Unit Empty _) (a, ()) = some (.ok (3, a, ())) := by
  intro cut a f
  let n : Node (line (Exact ℚ)) Nat Bool := .fork 0 none (cut 0)
    (.fork 3 none (cut 5) (.leaf 5 (some false)) (.leaf 4 (some true))) (.leaf 1 (some true))
  have hn : a.Holds none n := ⟨rfl, ⟨rfl, rfl, rfl⟩, rfl⟩
  have ha : a.WellFormed := hn.wellFormed rfl rfl (by decide : [5, 4, 3, 1, 0].Nodup)
  have h0 : a.Reachable 0 := (hn.reachable_iff rfl).mpr (by decide : 0 ∈ [5, 4, 3, 1, 0])
  obtain ⟨below, l', k, hv, hs, hk, he⟩ := covers_visit ha f
  obtain ⟨l, hl, hc, -, hm, -⟩ := below 0 h0
  cases (hl []).symm.trans (records_visit hn [])
  cases (hv []).symm.trans (hl [])
  have hk3 : k = 3 := Nat.mul_left_cancel two_pos he.symm
  exact ⟨ha, h0, hc, hv, hm, hs, hk3 ▸ hk⟩

end SpacePartition.Arena
