import Mathlib.Tactic.Ring
import Mathlib.Tactic.LinearCombination
import Mathlib.Algebra.BigOperators.Ring.Finset
import Mathlib.Algebra.BigOperators.Intervals

/-!
# Discrete Fourier sums and towers of roots

`dft ω N x k` is the sum over `t < N` of `x t * ω ^ (t * k)`, over any
commutative ring. The two facts a radix-2 algorithm uses are its split into
even and odd samples (`dft_two_mul`) and what the split becomes in the upper
half of the frequencies (`dft_two_mul_add`).

`FourierRoot ω N` collects what makes the transform invertible: `ω ^ N = 1` and
the vanishing of the sums `∑ ω ^ (d * k)`. Inversion (`FourierRoot.dft_inv`)
holds for every length.

`RootTower` is the family of roots a power-of-two transform needs: a
`2 ^ l`-th root for every `l`, each the square of the next one, starting from
`1` and `-1`. Every level of a tower is a `FourierRoot`.
-/

namespace Dft

open Finset

variable {K : Type} [CommRing K]

/-- The discrete Fourier sum of `N` samples at frequency `k`. -/
def dft (ω : K) (N : ℕ) (x : ℕ → K) (k : ℕ) : K :=
  ∑ t ∈ range N, x t * ω ^ (t * k)

/-! ### Sums -/

theorem dft_congr {ω : K} {N : ℕ} {x y : ℕ → K} (h : ∀ t, t < N → x t = y t) (k : ℕ) :
    dft ω N x k = dft ω N y k :=
  sum_congr rfl fun t ht => by rw [h t (mem_range.mp ht)]

@[simp] theorem dft_one (ω : K) (x : ℕ → K) (k : ℕ) : dft ω 1 x k = x 0 := by
  simp [dft]

theorem dft_add (ω : K) (N : ℕ) (x y : ℕ → K) (k : ℕ) :
    dft ω N (fun t => x t + y t) k = dft ω N x k + dft ω N y k := by
  simp [dft, add_mul, sum_add_distrib]

theorem dft_mul_left (ω c : K) (N : ℕ) (x : ℕ → K) (k : ℕ) :
    dft ω N (fun t => c * x t) k = c * dft ω N x k := by
  simp [dft, mul_sum, mul_assoc]

/-- A sum over `2 * M` terms, even and odd indices apart. -/
theorem sum_range_two_mul (M : ℕ) (f : ℕ → K) :
    ∑ t ∈ range (2 * M), f t = ∑ t ∈ range M, f (2 * t) + ∑ t ∈ range M, f (2 * t + 1) := by
  induction M with
  | zero => simp
  | succ M ih =>
    rw [show 2 * (M + 1) = 2 * M + 1 + 1 by ring, sum_range_succ, sum_range_succ, ih,
      sum_range_succ, sum_range_succ]
    ring

/-- A sum over any number of terms, even and odd indices apart. -/
theorem sum_range_halves (L : ℕ) (f : ℕ → K) :
    ∑ t ∈ range L, f t
      = ∑ t ∈ range ((L + 1) / 2), f (2 * t) + ∑ t ∈ range (L / 2), f (2 * t + 1) := by
  obtain ⟨M, rfl | rfl⟩ : ∃ M, L = 2 * M ∨ L = 2 * M + 1 := ⟨L / 2, by omega⟩
  · rw [show (2 * M + 1) / 2 = M by omega, show 2 * M / 2 = M by omega, sum_range_two_mul]
  · rw [show (2 * M + 1 + 1) / 2 = M + 1 by omega, show (2 * M + 1) / 2 = M by omega,
      sum_range_succ, sum_range_two_mul, sum_range_succ _ M]
    ring

/-- **Decimation in time.** A transform of `2 * M` samples from the transforms
of the even and of the odd samples. -/
theorem dft_two_mul (ω : K) (M : ℕ) (x : ℕ → K) (k : ℕ) :
    dft ω (2 * M) x k =
      dft (ω ^ 2) M (fun t => x (2 * t)) k
        + ω ^ k * dft (ω ^ 2) M (fun t => x (2 * t + 1)) k := by
  unfold dft
  rw [sum_range_two_mul, mul_sum]
  congr 1
  · refine sum_congr rfl fun t _ => ?_
    rw [← pow_mul, mul_assoc]
  · refine sum_congr rfl fun t _ => ?_
    rw [← pow_mul, show (2 * t + 1) * k = k + 2 * (t * k) by ring, pow_add]
    ring

/-- A transform is periodic in its frequency. -/
theorem dft_add_period {ω : K} {N : ℕ} (hω : ω ^ N = 1) (x : ℕ → K) (k : ℕ) :
    dft ω N x (k + N) = dft ω N x k := by
  refine sum_congr rfl fun t _ => ?_
  rw [mul_add, pow_add, mul_comm t N, pow_mul ω N t, hω, one_pow, mul_one]

/-- Decimation in time in the upper half of the frequencies. -/
theorem dft_two_mul_add {ω : K} {M : ℕ} (hω : ω ^ M = -1) (x : ℕ → K) (k : ℕ) :
    dft ω (2 * M) x (k + M) =
      dft (ω ^ 2) M (fun t => x (2 * t)) k
        - ω ^ k * dft (ω ^ 2) M (fun t => x (2 * t + 1)) k := by
  have hsq : (ω ^ 2) ^ M = 1 := by
    rw [← pow_mul, mul_comm, pow_mul, hω]
    ring
  rw [dft_two_mul, dft_add_period hsq, dft_add_period hsq, pow_add, hω]
  ring

/-- A ring homomorphism transforms the samples and the root. -/
theorem map_dft {L : Type} [CommRing L] (f : K →+* L) (ω : K) (N : ℕ) (x : ℕ → K) (k : ℕ) :
    f (dft ω N x k) = dft (f ω) N (fun t => f (x t)) k := by
  simp [dft]

/-! ### Inversion -/

/-- What a root needs for the transform of length `N` to be invertible. -/
structure FourierRoot (ω : K) (N : ℕ) : Prop where
  /-- `ω` is an `N`-th root of unity. -/
  pow_eq_one : ω ^ N = 1
  /-- Its powers are orthogonal. -/
  orth : ∀ d, ¬ N ∣ d → ∑ k ∈ range N, ω ^ (d * k) = 0

variable {ω ω' : K} {N : ℕ}

theorem FourierRoot.inv_eq_pow (h : FourierRoot ω N) (hN : 0 < N) (hinv : ω * ω' = 1) :
    ω' = ω ^ (N - 1) := by
  have hpow : ω * ω ^ (N - 1) = 1 := by
    rw [← pow_succ', Nat.sub_add_cancel hN, h.pow_eq_one]
  calc ω' = (ω * ω ^ (N - 1)) * ω' := by rw [hpow, one_mul]
    _ = (ω * ω') * ω ^ (N - 1) := by ring
    _ = ω ^ (N - 1) := by rw [hinv, one_mul]

/-- Being congruent to a frequency, seen through its negative `(N - 1) * s`. -/
private theorem not_dvd_add_pred_mul {t s : ℕ} (ht : t < N) (hs : s < N) (hts : t ≠ s) :
    ¬ N ∣ t + (N - 1) * s := by
  rintro ⟨q, hq⟩
  have hNs : (N - 1) * s + s = N * s := by
    rw [← Nat.add_one_mul, Nat.sub_add_cancel (by omega)]
  have hsum : t + N * s = N * q + s := by omega
  have hmod : (t + N * s) % N = (N * q + s) % N := by rw [hsum]
  rw [Nat.add_mul_mod_self_left, Nat.mul_add_mod, Nat.mod_eq_of_lt ht, Nat.mod_eq_of_lt hs]
    at hmod
  exact hts hmod

/-- **Inversion.** Transforming back with the inverse root multiplies by the length. -/
theorem FourierRoot.dft_inv (h : FourierRoot ω N) (hinv : ω * ω' = 1) (x : ℕ → K) {s : ℕ}
    (hs : s < N) : dft ω' N (dft ω N x) s = N * x s := by
  have hω' := h.inv_eq_pow (by omega) hinv
  have hinner : ∀ t ∈ range N,
      ∑ k ∈ range N, x t * ω ^ (t * k) * ω' ^ (k * s) = if t = s then N * x s else 0 := by
    intro t ht
    -- the two exponents, collected
    have hpow : ∀ k, x t * ω ^ (t * k) * ω' ^ (k * s)
        = x t * ω ^ ((t + (N - 1) * s) * k) := by
      intro k
      rw [hω', ← pow_mul, mul_assoc, ← pow_add]
      congr 2
      ring
    rw [sum_congr rfl fun k _ => hpow k, ← mul_sum]
    by_cases hts : t = s
    · subst hts
      -- the exponents are multiples of `N`
      have hN : t + (N - 1) * t = N * t := by
        rw [add_comm, ← Nat.add_one_mul, Nat.sub_add_cancel (by omega)]
      rw [if_pos rfl, hN]
      simp only [pow_mul, h.pow_eq_one, one_pow, sum_const, card_range, nsmul_eq_mul, mul_one]
      ring
    · -- the powers cancel by orthogonality
      rw [if_neg hts, h.orth _ (not_dvd_add_pred_mul (mem_range.mp ht) hs hts), mul_zero]
  calc dft ω' N (dft ω N x) s
      = ∑ k ∈ range N, ∑ t ∈ range N, x t * ω ^ (t * k) * ω' ^ (k * s) := by
        refine sum_congr rfl fun k _ => ?_
        rw [dft, sum_mul]
    _ = ∑ t ∈ range N, ∑ k ∈ range N, x t * ω ^ (t * k) * ω' ^ (k * s) := sum_comm
    _ = ∑ t ∈ range N, if t = s then (N : K) * x s else 0 := sum_congr rfl hinner
    _ = N * x s := by rw [sum_ite_eq' (range N) s, if_pos (mem_range.mpr hs)]

/-- A constant signal has only the frequency zero. -/
theorem FourierRoot.dft_const (h : FourierRoot ω N) (v : K) {k : ℕ} (hk : ¬ N ∣ k) :
    dft ω N (fun _ => v) k = 0 := by
  have hsum := h.orth k hk
  unfold dft
  rw [← mul_sum, sum_congr rfl fun t _ => by rw [mul_comm t k], hsum, mul_zero]

/-- The inverse of a Fourier root is one. -/
theorem FourierRoot.symm (h : FourierRoot ω N) (hN : 0 < N) (hinv : ω * ω' = 1) :
    FourierRoot ω' N where
  pow_eq_one := by
    rw [h.inv_eq_pow hN hinv, ← pow_mul, mul_comm, pow_mul, h.pow_eq_one, one_pow]
  orth d hd := by
    have hd' : ¬ N ∣ (N - 1) * d := by
      intro hdvd
      obtain ⟨M, rfl⟩ : ∃ M, N = M + 1 := ⟨N - 1, by omega⟩
      rw [Nat.add_sub_cancel] at hdvd
      refine hd ((Nat.dvd_add_right hdvd).mp ?_)
      exact ⟨d, by ring⟩
    rw [← h.orth _ hd']
    refine sum_congr rfl fun k _ => ?_
    rw [h.inv_eq_pow hN hinv, ← pow_mul]
    congr 1
    ring

/-! ### Towers of roots -/

/-- A `2 ^ l`-th root of unity for every `l`, each the square of the next. -/
structure RootTower (K : Type) [CommRing K] where
  /-- The root at level `l`. -/
  root : ℕ → K
  /-- The tower starts at `1`. -/
  root_zero : root 0 = 1
  /-- Its first proper root is `-1`. -/
  root_one : root 1 = -1
  /-- Each root is the square of the next one. -/
  root_sq : ∀ l, root (l + 1) ^ 2 = root l

namespace RootTower

variable (ρ : RootTower K)

theorem root_pow_two_pow (l a : ℕ) : ρ.root (l + a) ^ 2 ^ a = ρ.root l := by
  induction a with
  | zero => simp
  | succ a ih => rw [pow_succ', pow_mul, ← add_assoc, ρ.root_sq, ih]

/-- Halfway round the circle. -/
theorem root_pow_half (l : ℕ) : ρ.root (l + 1) ^ 2 ^ l = -1 := by
  rw [add_comm l 1, ρ.root_pow_two_pow, ρ.root_one]

/-- All the way round. -/
theorem root_pow_full (l : ℕ) : ρ.root l ^ 2 ^ l = 1 := by
  have h := ρ.root_pow_two_pow 0 l
  rwa [zero_add, ρ.root_zero] at h

/-- **Orthogonality**, by halving: the sum of level `m + 1` is `1 + root ^ d`
times the sum of level `m`. -/
theorem sum_root_pow (m d : ℕ) (hd : ¬ 2 ^ m ∣ d) :
    ∑ k ∈ range (2 ^ m), ρ.root m ^ (d * k) = 0 := by
  induction m with
  | zero => exact absurd (one_dvd d) hd
  | succ m ih =>
    have heven : ∑ k ∈ range (2 ^ m), ρ.root (m + 1) ^ (d * (2 * k))
        = ∑ k ∈ range (2 ^ m), ρ.root m ^ (d * k) := by
      refine sum_congr rfl fun k _ => ?_
      rw [← ρ.root_sq m, ← pow_mul]
      congr 1
      ring
    have hodd : ∑ k ∈ range (2 ^ m), ρ.root (m + 1) ^ (d * (2 * k + 1))
        = ρ.root (m + 1) ^ d * ∑ k ∈ range (2 ^ m), ρ.root m ^ (d * k) := by
      rw [← heven, mul_sum]
      refine sum_congr rfl fun k _ => ?_
      rw [← pow_add]
      congr 1
      ring
    rw [pow_succ', sum_range_two_mul, heven, hodd]
    by_cases hm : 2 ^ m ∣ d
    · -- `d` is an odd multiple of half the circle, so the two halves cancel
      obtain ⟨q, rfl⟩ := hm
      have hq : q % 2 = 1 := by
        rcases Nat.mod_two_eq_zero_or_one q with h | h
        · refine absurd ?_ hd
          rw [pow_succ]
          exact Nat.mul_dvd_mul_left _ (Nat.dvd_of_mod_eq_zero h)
        · exact h
      have hroot : ρ.root (m + 1) ^ (2 ^ m * q) = -1 := by
        rw [pow_mul, ρ.root_pow_half, Odd.neg_one_pow (Nat.odd_iff.mpr hq)]
      rw [hroot]
      ring
    · rw [ih hm]
      ring

/-- Every level of a tower is a Fourier root. -/
theorem fourierRoot (m : ℕ) : FourierRoot (ρ.root m) (2 ^ m) where
  pow_eq_one := ρ.root_pow_full m
  orth := ρ.sum_root_pow m

end RootTower

end Dft
