import SqlCode.Dft.Circle
import Mathlib.Analysis.SpecialFunctions.Log.Basic
import Mathlib.Analysis.SpecialFunctions.Pow.Real

/-!
# The functions of the mathematical library

What a numerical program takes from `math.h`, as a parameter: `Libm R` over any
type of numbers, and `exactLibm`, its exact reading over the reals. `PowLibm R` adds
the power function and `SqrtLibm R` the square root, each with its exact reading.
-/

namespace Dft

/-- The constant and the functions of `math.h` that the programs use, and the
conversion of a nonnegative floating-point number to an integer type. -/
structure Libm (R : Type) where
  /-- `M_PI`. -/
  pi : R
  /-- `cos`. -/
  cos : R → R
  /-- `sin`. -/
  sin : R → R
  /-- `log`. -/
  log : R → R
  /-- `(int) r`, which drops the fraction. -/
  toInt : R → ℕ

/-- The exact reading. -/
noncomputable def exactLibm : Libm ℝ where
  pi := Real.pi
  cos := Real.cos
  sin := Real.sin
  log := Real.log
  toInt r := ⌊r⌋₊

/-- The same with `pow`. -/
structure PowLibm (R : Type) extends Libm R where
  /-- `pow`. -/
  pow : R → R → R

/-- The exact reading, with real powers. -/
noncomputable def exactPowLibm : PowLibm ℝ where
  toLibm := exactLibm
  pow r e := r ^ e

/-- The same with `sqrt`. -/
structure SqrtLibm (R : Type) extends Libm R where
  /-- `sqrt`. -/
  sqrt : R → R

/-- The exact reading, with real square roots. -/
noncomputable def exactSqrtLibm : SqrtLibm ℝ where
  toLibm := exactLibm
  sqrt r := √r

end Dft
