import Mathlib.Analysis.SpecialFunctions.Complex.Arg
import SpacePartition.Proofs.Scalar.Exact

/-!
Exact arithmetic of the real numbers, with their roots and angles.
-/

namespace SpacePartition

-- The angle of an infinite vector is left undefined.
noncomputable instance : Metric (Exact ℝ) where
  sqrt
    | .finite x      => if x < 0 then .undefined else .finite (Real.sqrt x)
    | .infinite true => .infinite true
    | _              => .undefined
  hypot
    | .infinite _, _         => .infinite true
    | _, .infinite _         => .infinite true
    | .finite x, .finite y   => .finite (Real.sqrt (x * x + y * y))
    | _, _                   => .undefined
  sin
    | .finite x => .finite (Real.sin x)
    | _         => .undefined
  cos
    | .finite x => .finite (Real.cos x)
    | _         => .undefined
  atan2
    | .finite y, .finite x => .finite (Complex.arg ⟨x, y⟩)
    | _, _                 => .undefined

namespace Exact

variable {x y : ℝ}

theorem sqrt_finite (h : 0 ≤ x) : Metric.sqrt (finite x) = finite (Real.sqrt x) :=
  if_neg h.not_gt

theorem norm_of_unit (h : x * x + y * y = 1) : ‖(⟨x, y⟩ : ℂ)‖ = 1 := by
  rw [Complex.norm_def, Complex.normSq_mk, h, Real.sqrt_one]

-- The angle of a unit vector has the vector back.
theorem cos_atan2 (h : x * x + y * y = 1) :
    Metric.cos (Metric.atan2 (finite y) (finite x)) = finite x := by
  have hn := norm_of_unit h
  have hz : (⟨x, y⟩ : ℂ) ≠ 0 := norm_ne_zero_iff.mp (hn ▸ one_ne_zero)
  change finite (Real.cos (Complex.arg ⟨x, y⟩)) = _
  rw [Complex.cos_arg hz, hn, div_one]

theorem sin_atan2 (h : x * x + y * y = 1) :
    Metric.sin (Metric.atan2 (finite y) (finite x)) = finite y := by
  change finite (Real.sin (Complex.arg ⟨x, y⟩)) = _
  rw [Complex.sin_arg, norm_of_unit h, div_one]

end Exact
end SpacePartition
