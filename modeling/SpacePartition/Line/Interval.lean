import SpacePartition.Line.Basic
import SpacePartition.Region.Algebra

/-!
Regions of the line as lists of intervals.
-/

namespace SpacePartition

variable {R : Type} [Scalar R]

-- A closed interval. Its bounds may be infinite.
structure Interval (R : Type) where
  lower : R
  upper : R
  deriving Repr

namespace Interval

def size (i : Interval R) : R :=
  i.upper - i.lower

def barycenter (i : Interval R) : R :=
  Scalar.half * i.lower + Scalar.half * i.upper

-- Joins each interval of a sorted list to those before it that reach it.
def joinFrom (i : Interval R) : List (Interval R) → List (Interval R)
  | []      => [i]
  | j :: js =>
    if j.lower ≤ i.upper
    then joinFrom { i with upper := Scalar.max i.upper j.upper } js
    else i :: joinFrom j js

def join : List (Interval R) → List (Interval R)
  | []      => []
  | i :: is => joinFrom i is

-- The union of intervals, as disjoint intervals in increasing order.
def normalize (is : List (Interval R)) : List (Interval R) :=
  join (is.mergeSort fun i j => Scalar.totalLE i.lower j.lower)

end Interval

namespace Node

variable {ι : Type}

-- The cells of the inside leaves, clipped to the cell of the node. Beyond a cut outside of the cell
-- there is nothing.
def insideCells (cell : Interval R) : Node (line R) ι Bool → List (Interval R)
  | leaf _ a            => if a == some true then [cell] else []
  | fork _ _ cut plus minus =>
    let cut : OrientedPoint R := cut
    let x := cut.location
    let lower : Interval R := ⟨cell.lower, Scalar.min x cell.upper⟩
    let upper : Interval R := ⟨Scalar.max x cell.lower, cell.upper⟩
    let below := if cell.lower ≤ x then
      if cut.direct then minus.insideCells lower else plus.insideCells lower else []
    let above := if x ≤ cell.upper then
      if cut.direct then plus.insideCells upper else minus.insideCells upper else []
    below ++ above

end Node

namespace Region

def interval (lower upper tolerance : R) : Region (line R) where
  tree :=
    let cut x direct plus minus : Tree (line R) Bool :=
      .ofParts (⟨x, direct, tolerance⟩ : OrientedPoint R) plus minus none
    let outside := .leaf (some false)
    let inside  := .leaf (some true)
    match lower == -Scalar.infinity, upper == Scalar.infinity with
    | true, true   => inside
    | true, false  => cut upper true outside inside
    | false, true  => cut lower false outside inside
    | false, false => cut lower false outside (cut upper true outside inside)
  tolerance := tolerance

def ofIntervals (is : List (Interval R)) (tolerance : R) : Except (Violation R) (Region (line R)) :=
  match is.map fun i => interval i.lower i.upper tolerance with
  | []      => .ok (empty tolerance)
  | r :: rs => rs.foldlM union r

-- The disjoint closed intervals that make up a region, in increasing order. A leaf between two cuts
-- at one location yields a single point.
def intervals (r : Region (line R)) : List (Interval R) :=
  Interval.normalize (r.tree.root.insideCells ⟨-Scalar.infinity, Scalar.infinity⟩)

def inf (r : Region (line R)) : R :=
  match r.intervals.head? with
  | none   => Scalar.infinity
  | some i => i.lower

def sup (r : Region (line R)) : R :=
  match r.intervals.getLast? with
  | none   => -Scalar.infinity
  | some i => i.upper

-- The barycenter weighs midpoints by shares of the size, which stay finite where the products of
-- midpoints and sizes would not. A region without interior is taken to lie at its first cut.
def lineProperties (r : Region (line R)) : Properties (line R) :=
  match r.tree.root with
  | .leaf ..         => ⟨if r.isFull then Scalar.infinity else 0, (Scalar.nan : R)⟩
  | .fork _ _ cut .. =>
    let cut : OrientedPoint R := cut
    let is := r.intervals
    let size := Scalar.sum (is.map (·.size))
    let barycenter : R :=
      if Scalar.isInfinite size then Scalar.nan
      else if Scalar.leastSize ≤ size then
        Scalar.sum (is.map fun i => i.size / size * i.barycenter)
      else cut.location
    ⟨size, barycenter⟩

end Region

-- Facets of the line have no size, so that sizes come from intervals.
instance : Measured (line R) :=
  ⟨fun r => .ok r.lineProperties⟩

end SpacePartition
