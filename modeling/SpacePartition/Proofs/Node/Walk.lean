import Mathlib.Data.List.Perm.Basic
import SpacePartition.Arena.Walk
import SpacePartition.Node.Lemmas

/-!
Traversals in any orders. A traversal comes by every node once, and what it sees of a subtree is a
traversal of the subtree.
-/

namespace SpacePartition

variable {R : Type} {S : Space R} {ι α β γ : Type}

namespace Order

variable {o : Order} {plus minus self : List β}

theorem arrange_mirror : o.mirror.arrange plus.reverse minus.reverse self.reverse =
    (o.arrange plus minus self).reverse := by
  cases o <;> simp [mirror, arrange]

theorem arrange_perm : (o.arrange plus minus self).Perm (plus ++ minus ++ self) := by
  classical
  refine List.perm_iff_count.mpr fun x => ?_
  cases o <;> simp only [arrange, List.count_append] <;> omega

theorem map_arrange {f : β → γ} : (o.arrange plus minus self).map f =
    o.arrange (plus.map f) (minus.map f) (self.map f) := by
  cases o <;> simp [arrange]

-- Each side is in one piece.
theorem infix_arrange (b : Branch) : b.pick plus minus <:+: o.arrange plus minus self := by
  have first {l r : List β} : l <:+: l ++ r ++ self := ⟨[], r ++ self, by simp⟩
  have last {l r : List β} : r <:+: self ++ l ++ r := ⟨self ++ l, [], by simp⟩
  have around {l r : List β} : l <:+: l ++ self ++ r ∧ r <:+: l ++ self ++ r :=
    ⟨⟨[], self ++ r, by simp⟩, l ++ self, [], by simp⟩
  have middle {l r : List β} : r <:+: l ++ r ++ self ∧ l <:+: self ++ l ++ r :=
    ⟨List.infix_append .., List.infix_append ..⟩
  cases o <;> cases b
  all_goals
    first
    | exact first    | exact last
    | exact around.1 | exact around.2
    | exact middle.1 | exact middle.2

end Order

namespace Node

variable {n m p : Node S ι α} {f : ι → Order} {path : Path}

-- The identifiers of the nodes in the order of a traversal, when each fork chooses its order.
def tour (f : ι → Order) : Node S ι α → List ι
  | leaf i _       => [i]
  | fork i _ _ p m => (f i).arrange (p.tour f) (m.tour f) [i]

-- It does not matter whether orders are given to the forks or to the paths that lead to them.
theorem map_walk {order : Path → Order}
    (h : ∀ path' m, n.at? path' = some m → order (path ++ path') = f m.id) :
    (n.walk order path).map (·.2.id) = n.tour f := by
  induction n generalizing path
  case leaf => rfl
  case fork i t c p m hp hm =>
    have hs : order path = f i := path.append_nil ▸ h [] _ rfl
    have hp := hp fun path' k hk => List.append_cons path .plus path' ▸ h (.plus :: path') k hk
    have hm := hm fun path' k hk => List.append_cons path .minus path' ▸ h (.minus :: path') k hk
    rw [walk, tour, Order.map_arrange, hs, hp, hm]
    rfl

theorem tour_mirror : n.tour (fun i => (f i).mirror) = (n.tour f).reverse := by
  induction n
  case leaf       => rfl
  case fork hp hm => rw [tour, tour, hp, hm, ← Order.arrange_mirror, List.reverse_singleton]

theorem tour_perm : (n.tour f).Perm n.ids := by
  induction n
  case leaf       => exact .refl _
  case fork hp hm => exact Order.arrange_perm.trans <| (hp.append hm).append_right _

theorem length_tour : (n.tour f).length = n.size :=
  tour_perm.length_eq.trans n.length_ids

theorem tour_plusMinusSelf : n.tour (fun _ => .plusMinusSelf) = n.ids := by
  induction n
  case leaf       => rfl
  case fork hp hm => rw [tour, hp, hm]; rfl

theorem infix_tour (h : n.at? path = some m) : m.tour f <:+: n.tour f := by
  induction n generalizing path
  case leaf =>
    cases path <;> cases h
    exact List.infix_rfl
  case fork hp hm =>
    rcases path with _ | ⟨_ | _, path⟩
    case nil        => cases h; exact List.infix_rfl
    case cons.plus  => exact (hp h).trans <| Order.infix_arrange .plus
    case cons.minus => exact (hm h).trans <| Order.infix_arrange .minus

end Node
end SpacePartition
