import SpacePartition.Region.Algebra

/-!
Hyperplanes that are spaces themselves. A part of such a hyperplane is a region of it, so that a
space is built on the space one dimension below.
-/

namespace SpacePartition

variable {R : Type}

-- Where a hyperplane meets another one.
inductive Trace (R H : Type)
  -- Along a hyperplane of the hyperplane, with the minus side of the other one on its minus side.
  | crossing (h : H)
  -- Nowhere: the hyperplane has this offset from the other one.
  | parallel (offset : R)
  deriving Repr

structure Embedding (R : Type) where
  Point           : Type
  Hyperplane      : Type
  coordinates     : Coordinates Point R
  offset          : Hyperplane → Point → R
  tolerance       : Hyperplane → R
  sameOrientation : Hyperplane → Hyperplane → Bool
  reversed        : Hyperplane → Hyperplane
  -- The space that a hyperplane is.
  inner           : Space R
  measured        : Measured inner
  toInner         : Hyperplane → Point → inner.Point
  ofInner         : Hyperplane → inner.Point → Point
  trace           : Hyperplane → Hyperplane → Trace R inner.Hyperplane

namespace Embedding

attribute [instance] coordinates measured

end Embedding

structure Embedded (E : Embedding R) where
  hyperplane : E.Hyperplane
  remaining  : Region E.inner

namespace Embedded

variable {E : Embedding R}

def whole (h : E.Hyperplane) : Embedded E :=
  ⟨h, .whole (E.tolerance h)⟩

def size (s : Embedded E) : Except (Violation R) R :=
  s.remaining.size

def isEmpty (s : Embedded E) : Bool :=
  s.remaining.isEmpty

def barycenter (s : Embedded E) : Except (Violation R) E.Point :=
  E.ofInner s.hyperplane <$> s.remaining.barycenter

-- The part on the minus side of `trace`, whose partition is `half`.
def part (s : Embedded E) (trace : E.inner.Hyperplane) (half : Node E.inner Nat Bool) :
    Option (Embedded E) :=
  if half.isEmpty then none
  else some { s with
    remaining := { s.remaining with
      tree := .ofParts (E.inner.whole trace) (.leaf (some false)) (.ofNode half) none } }

def reunite [BEq R] (s other : Embedded E) : Except (Violation R) (Embedded E) :=
  ({ s with remaining := · }) <$> s.remaining.union other.remaining

def split [Scalar R] (s : Embedded E) (h : E.Hyperplane) : Parts (Embedded E) :=
  let tolerance := E.tolerance s.hyperplane
  match E.trace s.hyperplane h with
  | .parallel offset =>
    if offset < -tolerance then ⟨none, some s⟩
    else if tolerance < offset then ⟨some s, none⟩
    else ⟨none, none⟩
  | .crossing trace =>
    let halves := s.remaining.tree.root.split (E.inner.whole trace)
    ⟨s.part (E.inner.reversed trace) halves.plus, s.part trace halves.minus⟩

end Embedded

namespace Embedding

variable [Scalar R]

def space (E : Embedding R) : Space R where
  Point           := E.Point
  Hyperplane      := E.Hyperplane
  Sub             := Embedded E
  coordinates     := E.coordinates
  offset          := E.offset
  project h p     := E.ofInner h (E.toInner h p)
  tolerance       := E.tolerance
  sameOrientation := E.sameOrientation
  reversed        := E.reversed
  whole           := .whole
  hyperplane      := (·.hyperplane)
  size            := Embedded.size
  isEmpty         := Embedded.isEmpty
  barycenter      := Embedded.barycenter
  split           := Embedded.split
  reunite         := Embedded.reunite

-- Where a bounded boundary bounds a region or its complement, the boundary determines the size.
instance (E : Embedding R) : Measured E.space :=
  ⟨Region.divergence⟩

end Embedding
end SpacePartition
