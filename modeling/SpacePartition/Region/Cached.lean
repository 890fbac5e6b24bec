import SpacePartition.Region.Measure

/-!
Regions that remember what has been computed of them. Every change of the tree begins a new
generation, and what is remembered counts only in the generation it is of.
-/

namespace SpacePartition

variable {R : Type}

structure Memory (S : Space R) where
  generation   : UInt64
  properties   : Option (Properties S) := none
  boundarySize : Option R := none

structure CachedRegion (S : Space R) where
  region     : Region S
  generation : UInt64
  memory     : Memory S

namespace CachedRegion

variable {S : Space R}

def ofRegion (r : Region S) : CachedRegion S :=
  ⟨r, 0, { generation := 0 }⟩

-- What is remembered of the current generation.
def current (r : CachedRegion S) : Memory S :=
  if r.memory.generation = r.generation then r.memory else { generation := r.generation }

-- Puts another tree in place, and returns the one it replaces.
def replaceTree (t : Tree S Bool) (r : CachedRegion S) : Tree S Bool × CachedRegion S :=
  (r.region.tree, { r with region := { r.region with tree := t }, generation := r.generation + 1 })

def properties [Measured S] (r : CachedRegion S) :
    Except (Violation R) (Properties S × CachedRegion S) :=
  let memory := r.current
  match memory.properties with
  | some p => .ok (p, { r with memory })
  | none   => do
    let p ← r.region.properties
    return (p, { r with memory := { memory with properties := some p } })

def size [Measured S] (r : CachedRegion S) : Except (Violation R) (R × CachedRegion S) := do
  let (p, r) ← r.properties
  return (p.size, r)

def barycenter [Measured S] (r : CachedRegion S) :
    Except (Violation R) (S.Point × CachedRegion S) := do
  let (p, r) ← r.properties
  return (p.barycenter, r)

def boundarySize [Scalar R] (r : CachedRegion S) :
    Except (Violation R) (R × CachedRegion S) :=
  let memory := r.current
  match memory.boundarySize with
  | some x => .ok (x, { r with memory })
  | none   => do
    let x ← r.region.boundarySize
    return (x, { r with memory := { memory with boundarySize := some x } })

end CachedRegion
end SpacePartition
