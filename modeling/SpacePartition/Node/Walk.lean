import SpacePartition.Node.Basic

/-!
Traversals. A fork is visited before, between or after its two sides, as its order says.
-/

namespace SpacePartition

variable {R : Type}

-- The order of a fork: the letters name the plus side, the minus side and the fork itself.
inductive Order
  | plusMinusSelf
  | plusSelfMinus
  | minusPlusSelf
  | minusSelfPlus
  | selfPlusMinus
  | selfMinusPlus
  deriving DecidableEq, Repr

namespace Order

variable {β : Type}

def arrange (plus minus self : List β) : Order → List β
  | plusMinusSelf => plus ++ minus ++ self
  | plusSelfMinus => plus ++ self ++ minus
  | minusPlusSelf => minus ++ plus ++ self
  | minusSelfPlus => minus ++ self ++ plus
  | selfPlusMinus => self ++ plus ++ minus
  | selfMinusPlus => self ++ minus ++ plus

end Order

namespace Node

variable {S : Space R} {ι α : Type}

-- The visited nodes with their paths, when the fork at path `p` is visited in the order `order p`.
-- The node itself is at `path`.
def walk (order : Path → Order) (path : Path) : Node S ι α → List (Path × Node S ι α)
  | leaf i a       => [(path, leaf i a)]
  | fork i a c p m =>
    (order path).arrange
      (p.walk order (path ++ [.plus])) (m.walk order (path ++ [.minus])) [(path, fork i a c p m)]

end Node
end SpacePartition
