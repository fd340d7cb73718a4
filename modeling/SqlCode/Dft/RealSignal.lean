import SqlCode.Dft.Cplx
import SqlCode.Dft.RootTower
import Mathlib.Algebra.Field.Basic

/-!
# Transforms and conjugation

Negating an index of a transform, be it of a sample or of a frequency, is the
same as inverting the root (`dft_mirror_time`, `dft_mirror_freq`). Over pairs
and for a root whose inverse is its conjugate this gives the symmetries of real
samples (`conj_dft_ofReal`) and two ways to save work with them:

* two real transforms of length `N` can be read off the transform of one array
  that holds the first in its real and the second in its imaginary parts
  (`dft_pack`, `packed_parts`, `packed_self`);
* the inverse transform of a conjugate-symmetric spectrum is the transform of a
  real array, folded (`hartley`).
-/

namespace Dft

open Finset

/-- `-k` modulo `N`, for `k < N`. -/
def mirror (N k : ℕ) : ℕ := (N - k) % N

@[simp] theorem mirror_zero (N : ℕ) : mirror N 0 = 0 := by
  simp [mirror]

theorem mirror_of_pos {N k : ℕ} (h : 0 < k) (hk : k < N) : mirror N k = N - k :=
  Nat.mod_eq_of_lt (by omega)

theorem mirror_lt {N k : ℕ} (hk : k < N) : mirror N k < N :=
  Nat.mod_lt _ (by omega)

theorem mirror_mirror {N k : ℕ} (hk : k < N) : mirror N (mirror N k) = k := by
  rcases Nat.eq_zero_or_pos k with rfl | h
  · simp
  · rw [mirror_of_pos h hk, mirror_of_pos (by omega) (by omega)]
    omega

section Mirror

variable {K : Type} [CommRing K] {ω ω' : K} {N : ℕ}

theorem pow_mirror_mul (hω : ω ^ N = 1) (hinv : ω * ω' = 1) {k : ℕ} (hk : k < N) (t : ℕ) :
    ω ^ (mirror N k * t) = ω' ^ (k * t) := by
  rcases Nat.eq_zero_or_pos k with rfl | h
  · simp
  have hsum : N * t = (N - k) * t + k * t := by
    rw [← add_mul, Nat.sub_add_cancel hk.le]
  rw [mirror_of_pos h hk]
  calc ω ^ ((N - k) * t)
      = ω ^ ((N - k) * t) * (ω * ω') ^ (k * t) := by rw [hinv, one_pow, mul_one]
    _ = (ω ^ N) ^ t * ω' ^ (k * t) := by rw [mul_pow, ← mul_assoc, ← pow_add, ← pow_mul, hsum]
    _ = ω' ^ (k * t) := by rw [hω, one_pow, one_mul]

/-- A negated frequency. -/
theorem dft_mirror_freq (hω : ω ^ N = 1) (hinv : ω * ω' = 1) (x : ℕ → K) {k : ℕ} (hk : k < N) :
    dft ω N x (mirror N k) = dft ω' N x k := by
  refine sum_congr rfl fun t _ => ?_
  rw [mul_comm t, pow_mirror_mul hω hinv hk, mul_comm k]

/-- Negated times. -/
theorem dft_mirror_time (hω : ω ^ N = 1) (hinv : ω * ω' = 1) (x : ℕ → K) (k : ℕ) :
    dft ω N (fun t => x (mirror N t)) k = dft ω' N x k := by
  refine sum_nbij' (mirror N) (mirror N) ?_ ?_ ?_ ?_ ?_
  · exact fun t ht => mem_range.mpr (mirror_lt (mem_range.mp ht))
  · exact fun t ht => mem_range.mpr (mirror_lt (mem_range.mp ht))
  · exact fun t ht => mirror_mirror (mem_range.mp ht)
  · exact fun t ht => mirror_mirror (mem_range.mp ht)
  · intro t ht
    have ht := mem_range.mp ht
    rw [← pow_mirror_mul hω hinv (mirror_lt ht), mirror_mirror ht]

end Mirror

open Cplx

section Conj

variable {R : Type} [CommRing R] {ω : Cplx R} {N : ℕ}

/-- **Real samples** have a conjugate-symmetric transform. -/
theorem conj_dft_ofReal (hω : ω ^ N = 1) (hunit : ω * conj ω = 1) (r : ℕ → R) {k : ℕ}
    (hk : k < N) :
    conj (dft ω N (fun t => ofReal (r t)) k)
      = dft ω N (fun t => ofReal (r t)) (mirror N k) := by
  rw [map_dft, dft_mirror_freq hω hunit _ hk]
  simp only [conj_ofReal]

/-- A conjugated power of a root goes to the other side as the power itself. -/
theorem conj_eq_of_conj_mul (hunit : ω * conj ω = 1) {q s : Cplx R} {n : ℕ}
    (h : conj (ω ^ n * q) = s) : conj q = ω ^ n * s := by
  rw [map_mul, map_pow] at h
  calc conj q = (ω * conj ω) ^ n * conj q := by rw [hunit, one_pow, one_mul]
    _ = ω ^ n * (conj ω ^ n * conj q) := by rw [mul_pow, mul_assoc]
    _ = ω ^ n * s := by rw [h]

/-- The transform of an array of pairs, from those of its two parts. -/
theorem dft_pack (ω : Cplx R) (N : ℕ) (x : ℕ → Cplx R) (k : ℕ) :
    dft ω N x k = dft ω N (fun t => ofReal (x t).real) k
      + I * dft ω N (fun t => ofReal (x t).imag) k := by
  rw [← dft_mul_left, ← dft_add]
  refine dft_congr (fun t _ => ?_) k
  ext <;> simp

end Conj

/-- The roots of the tower are inverted by conjugation. -/
def RootTower.Unitary {R : Type} [CommRing R] (ρ : RootTower (Cplx R)) : Prop :=
  ∀ l, ρ.root l * conj (ρ.root l) = 1

/-! ### Over a field -/

section Field

variable {R : Type} [Field R] [NeZero (2 : R)] {ω : Cplx R} {N : ℕ}

private theorem eq_zero_of_eq_neg {r : R} (h : r = -r) : r = 0 := by
  have h2 : 2 * r = 0 := by linear_combination h
  exact (mul_eq_zero.mp h2).resolve_left (NeZero.ne 2)

theorem cplx_eq_zero_of_eq_neg {a : Cplx R} (h : a = -a) : a = 0 :=
  Cplx.ext (eq_zero_of_eq_neg (congrArg real h)) (eq_zero_of_eq_neg (congrArg imag h))

/-- Two numbers are determined by their sum and their difference. -/
theorem eq_of_add_sub {a b c d : Cplx R} (hadd : a + b = c + d) (hsub : a - b = c - d) :
    a = c ∧ b = d := by
  constructor
  · apply sub_eq_zero.mp
    apply cplx_eq_zero_of_eq_neg
    linear_combination hadd + hsub
  · apply sub_eq_zero.mp
    apply cplx_eq_zero_of_eq_neg
    linear_combination hadd - hsub

/-- A number is zero if a root with `-1` among its powers leaves it alone. -/
theorem eq_zero_of_mul_self {a v : Cplx R} {n : ℕ} (ha : a ^ n = -1) (h : v = a * v) : v = 0 := by
  have hpow : ∀ n, v = a ^ n * v := by
    intro n
    induction n with
    | zero => rw [pow_zero, one_mul]
    | succ n ih => rw [pow_succ', mul_assoc, ← ih, ← h]
  apply cplx_eq_zero_of_eq_neg
  calc v = a ^ n * v := hpow n
    _ = -v := by rw [ha, neg_one_mul]

theorem imag_eq_zero_of_conj {a : Cplx R} (h : conj a = a) : a.imag = 0 :=
  eq_zero_of_eq_neg (by rw [← conj_imag, h])

theorem real_eq_zero_of_conj {a : Cplx R} (h : conj a = -a) : a.real = 0 := by
  refine eq_zero_of_eq_neg ?_
  rw [← neg_real, ← h, conj_real]

/-- **Unpacking.** The two transforms packed into one, from its entries at `k`
and `-k`. -/
theorem packed_parts {e o z z' : Cplx R} (hz : z = e + I * o) (hz' : z' = conj e + I * conj o) :
    (z.real + z'.real) / 2 = e.real ∧ (z.imag - z'.imag) / 2 = e.imag ∧
      (z.imag + z'.imag) / 2 = o.real ∧ -(z.real - z'.real) / 2 = o.imag := by
  have h2 : (2 : R) ≠ 0 := NeZero.ne 2
  subst hz hz'
  refine ⟨?_, ?_, ?_, ?_⟩ <;>
    · rw [div_eq_iff h2]
      simp
      ring

/-- Unpacking where `-k` is `k`. -/
theorem packed_self {e o z : Cplx R} (hz : z = e + I * o) (he : conj e = e) (ho : conj o = o) :
    e = ⟨z.real, 0⟩ ∧ o = ⟨z.imag, 0⟩ := by
  have he0 := imag_eq_zero_of_conj he
  have ho0 := imag_eq_zero_of_conj ho
  subst hz
  constructor <;> ext <;> simp [he0, ho0]

/-- **The Hartley identity.** The inverse transform of a conjugate-symmetric
spectrum is real, and it is the sum of the parts of the forward transform of the
real array that holds the sums of the parts. -/
theorem hartley (hω : ω ^ N = 1) (hunit : ω * conj ω = 1) {x : ℕ → Cplx R}
    (hx : ∀ t, t < N → x (mirror N t) = conj (x t)) {k : ℕ} {f : Cplx R}
    (hf : f = dft ω N (fun t => ofReal ((x t).real + (x t).imag)) k) :
    dft (conj ω) N x k = ofReal (f.real + f.imag) := by
  set a := dft ω N (fun t => ofReal (x t).real) k with ha
  set b := dft ω N (fun t => ofReal (x t).imag) k with hb
  -- the real parts are even, so their transform is real
  have hca : conj a = a := by
    rw [ha, map_dft, ← dft_mirror_time hω hunit]
    refine dft_congr (fun t ht => ?_) k
    rw [hx t ht, conj_ofReal, conj_real]
  -- the imaginary parts are odd, so their transform is imaginary
  have hcb : conj b = -b := by
    rw [hb, map_dft, ← dft_mirror_time hω hunit, ← neg_one_mul, ← dft_mul_left]
    refine dft_congr (fun t ht => ?_) k
    rw [hx t ht, conj_ofReal, conj_imag, map_neg, neg_one_mul]
  have ha0 := imag_eq_zero_of_conj hca
  have hb0 := real_eq_zero_of_conj hcb
  have hfab : f = a + b := by
    rw [hf, ha, hb, ← dft_add]
    exact dft_congr (fun t _ => map_add ofReal _ _) k
  have hinv : dft (conj ω) N x k = conj a + I * conj b := by
    rw [dft_pack, ha, hb, map_dft, map_dft]
    simp only [conj_ofReal]
  rw [hinv, hca, hcb, hfab]
  ext <;> simp [ha0, hb0]

end Field

end Dft
