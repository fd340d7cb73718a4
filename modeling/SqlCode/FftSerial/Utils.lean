import SqlCode.Exec.Prog
import Mathlib.Data.Nat.Bits
import Mathlib.Data.Nat.Bitwise
import Mathlib.Order.Bounds.Basic
import Mathlib.Tactic.Ring

/-!
# Bit counting helpers of the serial FFT

`ones32` and `floorLog2_32` of `fft_utils.c`, on natural numbers that stand for
`uint32_t` values: no operation of either leaves the 32-bit range.

* `ones32_returnsAfter` — the loop that clears the lowest one bit in each round
  returns the number of one bits, after as many rounds.
* `floorLog2_32_returns` — after the five shifts the argument is filled with
  ones below its highest bit (`smear_eq`), so counting them gives its logarithm.
-/

namespace SqlCode.FftSerial

open Exec

/-- `ones_32`: the number of one bits, by clearing the lowest one in each round. -/
def ones32 (n : ℕ) : Prog ℕ := do
  let (_, c) ← whileLoop (fun s : ℕ × ℕ => s.1 != 0)
    (fun s => pure (s.1 &&& (s.1 - 1), s.2 + 1)) (n, 0)
  pure c

/-- The five assignments of `floor_log2_32`. -/
def smear (x : ℕ) : ℕ :=
  let x := x ||| (x >>> 1)
  let x := x ||| (x >>> 2)
  let x := x ||| (x >>> 4)
  let x := x ||| (x >>> 8)
  x ||| (x >>> 16)

/-- `floor_log2_32`. -/
def floorLog2_32 (x : ℕ) : Prog ℕ :=
  ones32 (smear x >>> 1)

/-! ### Counting ones -/

/-- The number of one bits of a number. -/
def onesCount (n : ℕ) : ℕ :=
  n.bits.count true

theorem onesCount_two_mul (n : ℕ) : onesCount (2 * n) = onesCount n := by
  rcases Nat.eq_zero_or_pos n with rfl | hn
  · rfl
  · rw [onesCount, Nat.bit0_bits n (by omega), onesCount]
    simp

theorem onesCount_two_mul_add_one (n : ℕ) : onesCount (2 * n + 1) = onesCount n + 1 := by
  rw [onesCount, Nat.bit1_bits, onesCount]
  simp

theorem onesCount_two_pow_pred (L : ℕ) : onesCount (2 ^ L - 1) = L := by
  induction L with
  | zero => rfl
  | succ L ih =>
    have hL := Nat.two_pow_pos L
    rw [show 2 ^ (L + 1) - 1 = 2 * (2 ^ L - 1) + 1 by rw [pow_succ]; omega,
      onesCount_two_mul_add_one, ih]

/-- Clearing the lowest one of an even number happens in its half. -/
private theorem two_mul_and_pred {n : ℕ} (hn : 0 < n) :
    2 * n &&& (2 * n - 1) = 2 * (n &&& (n - 1)) := by
  have h := Nat.land_bit false n true (n - 1)
  simp only [Nat.bit_val, Bool.false_and, Bool.toNat_false, Bool.toNat_true, add_zero] at h
  rw [← h, show 2 * n - 1 = 2 * (n - 1) + 1 by omega]

/-- Clearing the lowest one of an odd number. -/
private theorem two_mul_add_one_and_pred (n : ℕ) : (2 * n + 1) &&& (2 * n + 1 - 1) = 2 * n := by
  have h := Nat.land_bit true n false n
  simp only [Nat.bit_val, Bool.and_false, Bool.toNat_false, Bool.toNat_true, add_zero,
    Nat.and_self] at h
  rw [Nat.add_sub_cancel, h]

/-- **`n & (n - 1)` has one bit less than `n`.** -/
theorem onesCount_and_pred {n : ℕ} (hn : 0 < n) :
    onesCount (n &&& (n - 1)) + 1 = onesCount n := by
  induction n using Nat.strong_induction_on with
  | _ n ih =>
    obtain ⟨k, rfl | rfl⟩ := Nat.even_or_odd' n
    · -- the lowest bit is clear, and the one that goes is in the half
      rw [two_mul_and_pred (by omega), onesCount_two_mul, onesCount_two_mul]
      exact ih k (by omega) (by omega)
    · rw [two_mul_add_one_and_pred, onesCount_two_mul, onesCount_two_mul_add_one]

/-- The loop of `ones_32`, from any count. The induction is on the number of one bits,
which is the number of rounds to go. -/
private theorem ones32_loop (n c : ℕ) :
    ReturnsAfter (whileLoop (fun s : ℕ × ℕ => s.1 != 0)
      (fun s => pure (s.1 &&& (s.1 - 1), s.2 + 1)) (n, c)) (onesCount n) (0, c + onesCount n) := by
  induction hk : onesCount n generalizing n c with
  | zero =>
    obtain rfl : n = 0 := by
      by_contra h
      have := onesCount_and_pred (Nat.pos_of_ne_zero h)
      omega
    exact returnsAfter_while_false rfl
  | succ k ih =>
    have hn : 0 < n := by
      rcases Nat.eq_zero_or_pos n with rfl | h
      · simp [onesCount] at hk
      · exact h
    have hstep := onesCount_and_pred hn
    refine returnsAfter_while_true (by simp; omega) (fun _ => rfl) ?_
    have h := ih (n &&& (n - 1)) (c + 1) (by omega)
    rwa [show c + 1 + k = c + (k + 1) by omega] at h

/-- `ones_32` counts the one bits of its argument, with one round for each of them. -/
theorem ones32_returnsAfter (n : ℕ) : ReturnsAfter (ones32 n) (onesCount n) (onesCount n) := by
  have h := (ones32_loop n 0).bind_pure Prod.snd
  rwa [zero_add] at h

theorem ones32_returns (n : ℕ) : Returns (ones32 n) (onesCount n) :=
  (ones32_returnsAfter n).returns

/-! ### The logarithm -/

/-- One shift doubles the window of bits that are carried down. -/
private theorem testBit_or_shift {x y : ℕ} (w : ℕ)
    (hy : ∀ i, y.testBit i ↔ ∃ d, d < w ∧ x.testBit (i + d)) (i : ℕ) :
    (y ||| (y >>> w)).testBit i ↔ ∃ d, d < 2 * w ∧ x.testBit (i + d) := by
  rw [Nat.testBit_or, Nat.testBit_shiftRight, Bool.or_eq_true, hy, hy]
  constructor
  · -- from the lower or from the upper part of the window
    rintro (⟨d, hd, h⟩ | ⟨d, hd, h⟩)
    · exact ⟨d, by omega, h⟩
    · exact ⟨w + d, by omega, by rwa [show i + (w + d) = w + i + d by omega]⟩
  · rintro ⟨d, hd, h⟩
    rcases Nat.lt_or_ge d w with hdw | hdw
    · exact Or.inl ⟨d, hdw, h⟩
    · exact Or.inr ⟨d - w, by omega, by rwa [show w + i + (d - w) = i + d by omega]⟩

/-- After the five assignments a bit is set iff one of the 32 bits from it
upwards was. -/
private theorem testBit_smear (x i : ℕ) :
    (smear x).testBit i ↔ ∃ d, d < 32 ∧ x.testBit (i + d) := by
  refine testBit_or_shift 16 (testBit_or_shift 8 (testBit_or_shift 4 (testBit_or_shift 2
    (testBit_or_shift 1 fun i => ?_)))) i
  constructor
  · exact fun h => ⟨0, by omega, h⟩
  · rintro ⟨d, hd, h⟩
    rwa [show d = 0 by omega] at h

/-- The five assignments fill a 32-bit number with ones below its highest bit. -/
theorem smear_eq {x : ℕ} (h0 : x ≠ 0) (hx : x < 2 ^ 32) : smear x = 2 ^ (x.log2 + 1) - 1 := by
  have hlog : x.log2 < 32 := (Nat.log2_lt h0).mpr hx
  refine Nat.eq_of_testBit_eq fun i => ?_
  rw [Nat.testBit_two_pow_sub_one, Bool.eq_iff_iff, testBit_smear, decide_eq_true_iff]
  constructor
  · -- no bit is above the highest one
    rintro ⟨d, -, h⟩
    have h1 := Nat.ge_two_pow_of_testBit h
    have h2 : i + d ≤ x.log2 := (Nat.le_log2 h0).mpr h1
    omega
  · intro h
    exact ⟨x.log2 - i, by omega, by
      rw [show i + (x.log2 - i) = x.log2 by omega]
      exact Nat.testBit_log2 h0⟩

/-- `floor_log2_32` returns the logarithm of a `uint32_t`, and `0` at `0`. -/
theorem floorLog2_32_returns {x : ℕ} (hx : x < 2 ^ 32) : Returns (floorLog2_32 x) x.log2 := by
  have h := ones32_returns (smear x >>> 1)
  rcases Nat.eq_zero_or_pos x with rfl | h0
  · exact h
  · have hsmear : smear x >>> 1 = 2 ^ x.log2 - 1 := by
      have hp := Nat.two_pow_pos x.log2
      rw [smear_eq (by omega) hx, Nat.shiftRight_one, pow_succ]
      omega
    rw [hsmear, onesCount_two_pow_pred] at h
    rwa [floorLog2_32, hsmear]

/-- **`ones_32` and `floor_log2_32`.** The one counts one bits, a round for each, and the
other finds the largest power of two that is not above its argument. -/
theorem floorLog2_32_greatest :
    (∀ n, n < 2 ^ 32 → ReturnsAfter (ones32 n) (onesCount n) (onesCount n)) ∧
      ∀ x, 0 < x → x < 2 ^ 32 →
        ∃ k, Returns (floorLog2_32 x) k ∧ IsGreatest {k | 2 ^ k ≤ x} k := by
  refine ⟨fun n _ => ones32_returnsAfter n, fun x h0 hx => ?_⟩
  have hx0 : x ≠ 0 := h0.ne'
  refine ⟨x.log2, floorLog2_32_returns hx, Nat.log2_self_le hx0, ?_⟩
  intro k hk
  exact (Nat.le_log2 hx0).mpr hk

theorem floorLog2_32_greatest_top :
    ReturnsAfter (ones32 12) (onesCount 12) (onesCount 12) ∧
      ∃ k, Returns (floorLog2_32 (2 ^ 32 - 1)) k ∧ IsGreatest {k | 2 ^ k ≤ 2 ^ 32 - 1} k :=
  ⟨floorLog2_32_greatest.1 12 (by decide),
    floorLog2_32_greatest.2 (2 ^ 32 - 1) (by decide) (by decide)⟩

/-! ### Above the type

No `uint32_t` has a value from `2 ^ 32` on. The operations are those of the natural numbers
there too, and count at most the 32 bits that the five assignments fill. -/

theorem onesCount_mul_two_pow (n k : ℕ) : onesCount (n * 2 ^ k) = onesCount n := by
  induction k with
  | zero => rw [pow_zero, mul_one]
  | succ k ih => rw [pow_succ', mul_left_comm, onesCount_two_mul, ih]

theorem smear_two_pow {p : ℕ} (hp : 31 ≤ p) : smear (2 ^ p) = (2 ^ 32 - 1) * 2 ^ (p - 31) := by
  refine Nat.eq_of_testBit_eq fun i => ?_
  rw [Nat.testBit_mul_two_pow, Nat.testBit_two_pow_sub_one, Bool.eq_iff_iff, testBit_smear]
  simp only [Nat.testBit_two_pow, decide_eq_true_eq, Bool.and_eq_true]
  constructor
  · rintro ⟨d, hd, hpd⟩
    omega
  · intro h
    exact ⟨p - i, by omega, by omega⟩

theorem floorLog2_32_returns_long {p : ℕ} (hp : 32 ≤ p) : Returns (floorLog2_32 (2 ^ p)) 32 := by
  have h := ones32_returns (smear (2 ^ p) >>> 1)
  have hshift : smear (2 ^ p) >>> 1 = (2 ^ 32 - 1) * 2 ^ (p - 32) := by
    rw [smear_two_pow (by omega), show p - 31 = p - 32 + 1 by omega, Nat.pow_succ 2 (p - 32),
      ← mul_assoc, Nat.shiftRight_one, Nat.mul_div_cancel _ Nat.two_pos]
  rwa [hshift, onesCount_mul_two_pow, onesCount_two_pow_pred, ← hshift] at h

end SqlCode.FftSerial
