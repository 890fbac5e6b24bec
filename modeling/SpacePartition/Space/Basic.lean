import SpacePartition.Scalar.Basic
import SpacePartition.Space.Fault

/-!
Spaces, the hyperplanes that cut them in two, and the parts of hyperplanes that bound cells.
-/

namespace SpacePartition

variable {R : Type}

class Coordinates (P : Type) (R : outParam Type) where
  dimension : Nat
  toList    : P → List R
  ofList?   : List R → Option P
  fill      : R → P
  -- `combine a p b q` is the point `a * p + b * q`.
  combine   : R → P → R → P → P

namespace Coordinates

variable {P : Type} [Coordinates P R]

def ofList (coordinates : List R) : Except GeometryError P :=
  match ofList? coordinates with
  | some p => .ok p
  | none   => .error (.dimensionMismatch (dimension P) coordinates.length)

variable [Scalar R]

def origin : P :=
  fill 0

def undefined : P :=
  fill Scalar.nan

def isNaN (p : P) : Bool :=
  (toList p).any Scalar.isNaN

def isInfinite (p : P) : Bool :=
  !isNaN p && (toList p).any Scalar.isInfinite

end Coordinates

-- The Euclidean norm. Squares are added from the left, without scaling.
def Metric.norm [Metric R] : List R → R
  | []      => 0
  | x :: xs => sqrt (xs.foldl (fun s y => s + y * y) (x * x))

def Coordinates.distance {P : Type} [Coordinates P R] [Metric R] (p q : P) : R :=
  Metric.norm (List.zipWith (· - ·) (toList q) (toList p))

inductive Branch
  | plus
  | minus
  deriving DecidableEq, Repr

-- Chooses between what is on the plus side and what is on the minus side.
def Branch.pick {β : Type} (b : Branch) (plus minus : β) : β :=
  match b with
  | .plus  => plus
  | .minus => minus

-- Where an object lies relative to a hyperplane.
inductive Side
  | plus
  | minus
  | both
  | within
  deriving DecidableEq, Repr

-- What a hyperplane leaves of an object on each of its sides. A side without a part is `none`.
structure Parts (α : Type) where
  plus  : Option α
  minus : Option α
  deriving DecidableEq, Repr

namespace Parts

variable {α : Type}

def on (parts : Parts α) : Branch → Option α
  | .plus  => parts.plus
  | .minus => parts.minus

def side : Parts α → Side
  | ⟨some _, some _⟩ => .both
  | ⟨some _, none⟩   => .plus
  | ⟨none, some _⟩   => .minus
  | ⟨none, none⟩     => .within

end Parts

-- A space gives the partitioning its geometry. Nothing is assumed about the answers of its
-- functions: what a theorem needs of them is among its hypotheses.
structure Space (R : Type) where
  Point           : Type
  Hyperplane      : Type
  -- A part of a hyperplane.
  Sub             : Type
  coordinates     : Coordinates Point R
  -- The signed distance of a point from a hyperplane, positive on its plus side.
  offset          : Hyperplane → Point → R
  project         : Hyperplane → Point → Point
  -- Closer points count as lying on the hyperplane.
  tolerance       : Hyperplane → R
  sameOrientation : Hyperplane → Hyperplane → Bool
  reversed        : Hyperplane → Hyperplane
  whole           : Hyperplane → Sub
  hyperplane      : Sub → Hyperplane
  size            : Sub → Except (Violation R) R
  isEmpty         : Sub → Bool
  barycenter      : Sub → Except (Violation R) Point
  split           : Sub → Hyperplane → Parts Sub
  -- The union of two parts of one hyperplane.
  reunite         : Sub → Sub → Except (Violation R) Sub

namespace Space

attribute [instance] coordinates

variable (S : Space R)

def side (h other : S.Hyperplane) : Side :=
  (S.split (S.whole other) h).side

def sameHyperplane (h other : S.Hyperplane) : Bool :=
  S.side h other == .within

-- The side of a hyperplane on which a point lies, `none` within the tolerance of the hyperplane.
def heading [Scalar R] (h : S.Hyperplane) (tolerance : R) (p : S.Point) : Option Branch :=
  let d := S.offset h p
  if Scalar.abs d < tolerance then none
  else if d ≤ 0 then some .minus
  else some .plus

end Space
end SpacePartition
