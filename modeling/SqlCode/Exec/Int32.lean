import SqlCode.Exec.Prog
import Mathlib.Data.Int.Basic

/-!
# The type `int`

Values of type `int` are read as integers from `-2^31` to `2^31 - 1`, those of
`uint32_t` as natural numbers below `2^32`. A conversion between the two, or from a
wider type, keeps the value modulo `2^32` (`toInt`, `toUint32`); so does arithmetic
that wraps around. On values of the type it changes nothing (`toInt_eq`,
`toUint32_natCast`).

A signed operation without a value in the type is undefined: `checkedInt` stops there
with `Fault.overflow`.
-/

namespace Exec

/-- The value of an integer as an `int`. -/
def toInt (z : ℤ) : ℤ := z.bmod (2 ^ 32)

/-- The value of an integer as a `uint32_t`. -/
def toUint32 (z : ℤ) : ℕ := (z % 2 ^ 32).toNat

/-- The result of a signed operation with the exact value `z`. -/
def checkedInt (z : ℤ) : Prog ℤ :=
  if -2 ^ 31 ≤ z ∧ z < 2 ^ 31 then pure z else throw .overflow

theorem toInt_eq {z : ℤ} (hlo : -2 ^ 31 ≤ z) (hhi : z < 2 ^ 31) : toInt z = z :=
  Int.bmod_eq_of_le (by omega) (by omega)

theorem toInt_natCast {n : ℕ} (hn : n < 2 ^ 31) : toInt n = n :=
  toInt_eq (by omega) (by omega)

theorem toUint32_natCast {n : ℕ} (hn : n < 2 ^ 32) : toUint32 n = n := by
  unfold toUint32
  omega

theorem checkedInt_eq {z : ℤ} (hlo : -2 ^ 31 ≤ z) (hhi : z < 2 ^ 31) : checkedInt z = pure z :=
  if_pos ⟨hlo, hhi⟩

theorem fails_checkedInt {z : ℤ} (h : 2 ^ 31 ≤ z) : Fails (· = .overflow) (checkedInt z) := by
  unfold checkedInt
  rw [if_neg (by omega)]
  exact fails_throw rfl

end Exec
