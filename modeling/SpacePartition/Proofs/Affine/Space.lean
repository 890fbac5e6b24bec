import Mathlib.Analysis.Convex.Basic
import Mathlib.LinearAlgebra.Matrix.DotProduct
import SpacePartition.Region.Measure
import SpacePartition.Proofs.Scalar.Exact

/-!
Exact geometry in any dimension. A hyperplane is where an affine form vanishes, its plus side where
the form is positive, and a sub-hyperplane is any set of points of its hyperplane.
-/

namespace SpacePartition

variable {K : Type} [Field K] [LinearOrder K] {n : Nat}

structure AffineForm (K : Type) [Field K] (n : Nat) where
  normal    : Fin n → K
  constant  : K
  normal_ne : normal ≠ 0

namespace AffineForm

def eval (f : AffineForm K n) (x : Fin n → K) : K :=
  f.normal ⬝ᵥ x + f.constant

def reversed (f : AffineForm K n) : AffineForm K n :=
  ⟨-f.normal, -f.constant, neg_ne_zero.mpr f.normal_ne⟩

-- The form that is positive on a side of the hyperplane.
def toward (f : AffineForm K n) (b : Branch) : AffineForm K n :=
  match b with
  | .plus  => f
  | .minus => f.reversed

end AffineForm

@[ext]
structure Slice (K : Type) [Field K] (n : Nat) where
  form    : AffineForm K n
  points  : Set (Fin n → K)
  on_form : ∀ x ∈ points, form.eval x = 0

namespace Slice

def side (s : Slice K n) (h : AffineForm K n) (b : Branch) : Slice K n where
  form    := s.form
  points  := {x ∈ s.points | 0 < (h.toward b).eval x}
  on_form := fun x hx => s.on_form x hx.1

open Classical in
-- The points strictly on a side. A side without points has no part.
noncomputable def part (s : Slice K n) (h : AffineForm K n) (b : Branch) : Option (Slice K n) :=
  if (s.side h b).points.Nonempty then some (s.side h b) else none

noncomputable def split (s : Slice K n) (h : AffineForm K n) : Parts (Slice K n) :=
  ⟨s.part h .plus, s.part h .minus⟩

end Slice

-- How points and sub-hyperplanes are measured and shown. Boolean operations do not depend on it.
structure Gauge (K : Type) [Field K] [LinearOrder K] (n : Nat) where
  coordinates : Coordinates (Fin n → K) (Exact K)
  project     : AffineForm K n → (Fin n → K) → Fin n → K
  tolerance   : AffineForm K n → Exact K
  size        : Slice K n → Except (Violation (Exact K)) (Exact K)
  barycenter  : Slice K n → Except (Violation (Exact K)) (Fin n → K)
  reunite     : Slice K n → Slice K n → Except (Violation (Exact K)) (Slice K n)

def Exact.value : Exact K → K
  | finite x => x
  | _        => 0

-- A gauge for hyperplanes that are not cut to a finite size.
def Gauge.unbounded (K : Type) [Field K] [LinearOrder K] (n : Nat) : Gauge K n where
  coordinates := {
    dimension := n
    toList x  := List.ofFn fun i => .finite (x i)
    ofList? l := if l.length = n then some fun i => (l.getD i .undefined).value else none
    fill x    := fun _ => x.value
    combine a x b y := a.value • x + b.value • y
  }
  project f x  := x - (f.eval x / f.normal ⬝ᵥ f.normal) • f.normal
  tolerance _  := .finite 0
  size _       := .ok (.infinite true)
  barycenter s := .ok (-(s.form.constant / s.form.normal ⬝ᵥ s.form.normal) • s.form.normal)
  reunite s _  := .ok s

open Classical in
@[reducible]
noncomputable def affine (gauge : Gauge K n) : Space (Exact K) where
  Point           := Fin n → K
  Hyperplane      := AffineForm K n
  Sub             := Slice K n
  coordinates     := gauge.coordinates
  offset h x      := .finite (h.eval x)
  project         := gauge.project
  tolerance       := gauge.tolerance
  sameOrientation := fun h h' => decide (0 < h.normal ⬝ᵥ h'.normal)
  reversed        := AffineForm.reversed
  whole h         := ⟨h, {x | h.eval x = 0}, fun _ h => h⟩
  hyperplane      := Slice.form
  size            := gauge.size
  isEmpty s       := decide (s.points = ∅)
  barycenter      := gauge.barycenter
  split           := Slice.split
  reunite         := gauge.reunite

noncomputable instance {gauge : Gauge K n} : Measured (affine gauge) :=
  ⟨Region.divergence⟩

end SpacePartition
