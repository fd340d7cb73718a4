import SqlCode.Dft.RealSignal
import Mathlib.Algebra.CharZero.Defs

/-!
# Decimation in time for any radix

A transform of `p * m` samples is made from the `p` transforms of its decimated
samples (`dft_mul`). For the output `u + j * m` the part that depends on `j` is itself
a transform, of length `p` (`recombine_column`): the column of the `p` inputs
`u`, `u + m`, `u + 2 * m`, …, each multiplied by its twiddle factor. So an algorithm
that leaves these short transforms in the columns leaves the long one in the array
(`recombine_dft`).

The short transforms of length 2, 3, 4 and 5 are written out for the roots of unity
over pairs (`dft_two`, `dft_three_one`, …), with conjugates in place of the high powers.
-/

namespace Dft

open Finset

section Recombine

variable {K : Type} [CommRing K]

/-- A sum over `p * m` terms, by residues modulo `p`. -/
theorem sum_range_mul (p m : ℕ) (f : ℕ → K) :
    ∑ t ∈ range (p * m), f t = ∑ q ∈ range p, ∑ t ∈ range m, f (p * t + q) := by
  rw [sum_comm]
  induction m with
  | zero => rw [mul_zero, sum_range_zero, sum_range_zero]
  | succ m ih => rw [Nat.mul_succ, sum_range_add, ih, sum_range_succ]

/-- **Decimation in time.** A transform of `p * m` samples from the transforms of the
samples `q`, `p + q`, `2 * p + q`, …. -/
theorem dft_mul (ω : K) (p m : ℕ) (x : ℕ → K) (k : ℕ) :
    dft ω (p * m) x k =
      ∑ q ∈ range p, ω ^ (q * k) * dft (ω ^ p) m (fun t => x (p * t + q)) k := by
  rw [dft, sum_range_mul]
  refine sum_congr rfl fun q _ => ?_
  rw [dft, mul_sum]
  refine sum_congr rfl fun t _ => ?_
  rw [← pow_mul, show (p * t + q) * k = q * k + p * (t * k) by ring, pow_add]
  ring

/-- A transform only depends on its frequency modulo the length. -/
theorem dft_mod {ω : K} {N : ℕ} (hω : ω ^ N = 1) (x : ℕ → K) (k : ℕ) :
    dft ω N x (k % N) = dft ω N x k := by
  refine sum_congr rfl fun t _ => ?_
  have hpow : ω ^ (t * (k % N)) = ω ^ (t * k) := by
    rw [mul_comm t (k % N), mul_comm t k, pow_mul, pow_mul, ← pow_eq_pow_mod k hω]
  rw [hpow]

/-- The exponents of a transform only matter modulo the length. -/
theorem dft_eq_sum_mod {ω : K} {N : ℕ} (hω : ω ^ N = 1) (x : ℕ → K) (k : ℕ) :
    dft ω N x k = ∑ t ∈ range N, x t * ω ^ (t * k % N) :=
  sum_congr rfl fun t _ => by rw [← pow_eq_pow_mod _ hω]

/-- The output `k` of one stage of radix `p`, from inputs that hold the short transforms one
after the other. -/
def recombine (ω : K) (p m : ℕ) (y : ℕ → K) (k : ℕ) : K :=
  ∑ q ∈ range p, ω ^ (q * k) * y (k % m + q * m)

/-- **One stage** makes the long transform from the short ones. -/
theorem recombine_dft {ω : K} {p m : ℕ} (hω : ω ^ (p * m) = 1) (hm : 0 < m) {x y : ℕ → K}
    (hy : ∀ q u, q < p → u < m → y (u + q * m) = dft (ω ^ p) m (fun t => x (p * t + q)) u)
    (k : ℕ) : recombine ω p m y k = dft ω (p * m) x k := by
  have hroot : (ω ^ p) ^ m = 1 := by rw [← pow_mul, hω]
  rw [dft_mul]
  refine sum_congr rfl fun q hq => ?_
  rw [hy q _ (mem_range.mp hq) (Nat.mod_lt k hm), dft_mod hroot]

/-- The inputs of a column, with their twiddle factors. -/
def column (ω : K) (m : ℕ) (y : ℕ → K) (u q : ℕ) : K := y (u + q * m) * ω ^ (q * u)

/-- **A column** of outputs is a transform of length `p`. -/
theorem recombine_column (ω : K) (p : ℕ) {m u : ℕ} (hu : u < m) (y : ℕ → K) (j : ℕ) :
    recombine ω p m y (u + j * m) = dft (ω ^ m) p (column ω m y u) j := by
  refine sum_congr rfl fun q _ => ?_
  rw [Nat.add_mul_mod_self_right, Nat.mod_eq_of_lt hu, column, ← pow_mul,
    show q * (u + j * m) = q * u + m * (q * j) by ring, pow_add]
  ring

/-- A power of a Fourier root, where the length can be cancelled. -/
theorem FourierRoot.pow {ω : K} {p m : ℕ} (h : FourierRoot ω (p * m)) (hm : 0 < m)
    (hcancel : ∀ a : K, (m : K) * a = 0 → a = 0) : FourierRoot (ω ^ m) p where
  pow_eq_one := by rw [← pow_mul, mul_comm, h.pow_eq_one]
  orth d hd := by
    have hdvd : ¬ p * m ∣ m * d := by
      rw [mul_comm p m]
      exact fun hdvd => hd (Nat.dvd_of_mul_dvd_mul_left hm hdvd)
    -- every power of `ω ^ m` occurs `m` times in the long sum
    refine hcancel _ ?_
    calc (m : K) * ∑ j ∈ range p, (ω ^ m) ^ (d * j)
        = ∑ j ∈ range p, ∑ _t ∈ range m, (ω ^ m) ^ (d * j) := by
          rw [mul_sum]
          refine sum_congr rfl fun j _ => ?_
          rw [sum_const, card_range, nsmul_eq_mul]
      _ = ∑ k ∈ range (p * m), ω ^ (m * d * k) := by
          rw [sum_range_mul]
          refine sum_congr rfl fun j _ => sum_congr rfl fun t _ => ?_
          rw [← pow_mul, show m * d * (p * t + j) = p * m * (d * t) + m * (d * j) by ring,
            pow_add, pow_mul ω (p * m), h.pow_eq_one, one_pow, one_mul]
      _ = 0 := h.orth _ hdvd

/-- A harmonic has only its own frequency. -/
theorem FourierRoot.dft_harmonic {ω : K} {N : ℕ} (h : FourierRoot ω N) (c k : ℕ) :
    dft ω N (fun t => ω ^ (t * c)) k = if N ∣ c + k then (N : K) else 0 := by
  have hterm : ∀ t, ω ^ (t * c) * ω ^ (t * k) = ω ^ ((c + k) * t) := by
    intro t
    rw [← pow_add]
    congr 1
    ring
  unfold dft
  simp only [hterm]
  split_ifs with hdvd
  · obtain ⟨q, hq⟩ := hdvd
    simp [hq, pow_mul, h.pow_eq_one]
  · exact h.orth _ hdvd

end Recombine

/-! ### Short transforms -/

section Short

open Cplx

variable {R : Type} [Field R] {η : Cplx R} (z : ℕ → Cplx R)

/-- The frequency zero. -/
theorem dft_zero {K : Type} [CommRing K] (ω : K) (N : ℕ) (x : ℕ → K) :
    dft ω N x 0 = ∑ t ∈ range N, x t := by
  simp [dft]

theorem dft_two_one (h : η = -1) : dft η 2 z 1 = z 0 - z 1 := by
  simp only [dft, sum_range_succ, sum_range_zero, h]
  ring

theorem dft_four_one (h : η ^ 2 = -1) : dft η 4 z 1 = z 0 - z 2 + (z 1 - z 3) * η := by
  simp only [dft, sum_range_succ, sum_range_zero]
  linear_combination (z 2 + z 3 * η) * h

theorem dft_four_two (h : η ^ 2 = -1) : dft η 4 z 2 = z 0 + z 2 - (z 1 + z 3) := by
  simp only [dft, sum_range_succ, sum_range_zero]
  linear_combination (z 1 + z 2 * (η ^ 2 - 1) + z 3 * (η ^ 4 - η ^ 2 + 1)) * h

theorem dft_four_three (h : η ^ 2 = -1) : dft η 4 z 3 = z 0 - z 2 - (z 1 - z 3) * η := by
  simp only [dft, sum_range_succ, sum_range_zero]
  linear_combination (z 1 * η + z 2 * (η ^ 4 - η ^ 2 + 1)
    + z 3 * η * (η ^ 6 - η ^ 4 + η ^ 2 - 1)) * h

/-- The real part of a third root of unity. -/
theorem FourierRoot.real_third [CharZero R] (h : FourierRoot η 3) (hu : η * conj η = 1) :
    η.real = -(1 / 2) := by
  have hsum := h.orth 1 (by decide)
  have hconj : conj η = η ^ 2 := h.inv_eq_pow (by decide) hu
  simp only [sum_range_succ, sum_range_zero, one_mul, pow_zero, pow_one, ← hconj] at hsum
  have hreal := congrArg Cplx.real hsum
  simp only [add_real, one_real, zero_real, conj_real] at hreal
  linear_combination hreal / 2

theorem dft_three_one (h : η ^ 3 = 1) (hu : η * conj η = 1) :
    dft η 3 z 1 = z 0 + z 1 * η + z 2 * conj η := by
  simp only [dft, sum_range_succ, sum_range_zero]
  linear_combination z 2 * conj η * h - z 2 * η ^ 2 * hu

theorem dft_three_two (h : η ^ 3 = 1) (hu : η * conj η = 1) :
    dft η 3 z 2 = z 0 + z 1 * conj η + z 2 * η := by
  simp only [dft, sum_range_succ, sum_range_zero]
  linear_combination (z 1 * conj η + z 2 * η) * h - z 1 * η ^ 2 * hu

section Five

variable (h : η ^ 5 = 1) (hu : η * conj η = 1)
include h hu

theorem pow_four_of_fifth : η ^ 4 = conj η := by
  linear_combination conj η * h - η ^ 4 * hu

theorem pow_three_of_fifth : η ^ 3 = conj η ^ 2 := by
  have h4 := pow_four_of_fifth h hu
  linear_combination conj η * h4 - η ^ 3 * hu

theorem dft_five_one :
    dft η 5 z 1 = z 0 + z 1 * η + z 2 * η ^ 2 + z 3 * conj η ^ 2 + z 4 * conj η := by
  simp [dft_eq_sum_mod h, sum_range_succ, pow_three_of_fifth h hu, pow_four_of_fifth h hu]

theorem dft_five_two :
    dft η 5 z 2 = z 0 + z 1 * η ^ 2 + z 2 * conj η + z 3 * η + z 4 * conj η ^ 2 := by
  simp [dft_eq_sum_mod h, sum_range_succ, pow_three_of_fifth h hu, pow_four_of_fifth h hu]

theorem dft_five_three :
    dft η 5 z 3 = z 0 + z 1 * conj η ^ 2 + z 2 * η + z 3 * conj η + z 4 * η ^ 2 := by
  simp [dft_eq_sum_mod h, sum_range_succ, pow_three_of_fifth h hu, pow_four_of_fifth h hu]

theorem dft_five_four :
    dft η 5 z 4 = z 0 + z 1 * conj η + z 2 * conj η ^ 2 + z 3 * η ^ 2 + z 4 * η := by
  simp [dft_eq_sum_mod h, sum_range_succ, pow_three_of_fifth h hu, pow_four_of_fifth h hu]

end Five

end Short

end Dft
