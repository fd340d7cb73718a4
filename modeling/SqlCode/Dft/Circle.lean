import SqlCode.Dft.RealSignal
import Mathlib.RingTheory.RootsOfUnity.Complex

/-!
# Roots on the unit circle

The real instance of the algebra: pairs over `ℝ` are the complex numbers
(`Cplx.toComplex`), and the pairs of a cosine and a sine (`cis θ`) are their
points on the unit circle. `cis (± 2 * π / N)` is a `FourierRoot` for every
length `N`, and `circleTower`, the angles `- 2 * π / 2 ^ l`, is the tower of a
power-of-two transform.
-/

namespace Dft

open Real Finset

/-- The complex number a pair stands for. -/
def Cplx.toComplex : Cplx ℝ →+* ℂ where
  toFun a := ⟨a.real, a.imag⟩
  map_one' := rfl
  map_mul' a b := by apply Complex.ext <;> simp
  map_zero' := rfl
  map_add' a b := by apply Complex.ext <;> simp

namespace Cplx

@[simp] theorem toComplex_re (a : Cplx ℝ) : (toComplex a).re = a.real := rfl

@[simp] theorem toComplex_im (a : Cplx ℝ) : (toComplex a).im = a.imag := rfl

theorem toComplex_injective : Function.Injective toComplex := by
  intro a b h
  exact Cplx.ext (congrArg Complex.re h) (congrArg Complex.im h)

end Cplx

open Cplx

/-- The point of the unit circle at angle `θ`. -/
noncomputable def cis (θ : ℝ) : Cplx ℝ := ⟨cos θ, sin θ⟩

theorem toComplex_cis (θ : ℝ) : toComplex (cis θ) = Complex.exp (θ * Complex.I) := by
  apply Complex.ext
  · rw [Complex.exp_ofReal_mul_I_re]
    rfl
  · rw [Complex.exp_ofReal_mul_I_im]
    rfl

theorem cis_add (θ φ : ℝ) : cis (θ + φ) = cis θ * cis φ := by
  apply toComplex_injective
  rw [map_mul, toComplex_cis, toComplex_cis, toComplex_cis, ← Complex.exp_add]
  push_cast
  rw [add_mul]

@[simp] theorem cis_zero : cis 0 = 1 := by
  ext <;> simp [cis]

theorem cis_pow (θ : ℝ) (n : ℕ) : cis θ ^ n = cis (n * θ) := by
  induction n with
  | zero => simp
  | succ n ih =>
    rw [pow_succ, ih, ← cis_add]
    congr 1
    push_cast
    ring

@[simp] theorem conj_cis (θ : ℝ) : conj (cis θ) = cis (-θ) := by
  ext <;> simp [cis]

theorem cis_mul_neg (θ : ℝ) : cis θ * cis (-θ) = 1 := by
  rw [← cis_add, add_neg_cancel, cis_zero]

/-- Once round the circle, in either direction. -/
theorem cis_two_pi : cis (2 * π) = 1 := by
  ext <;> simp [cis]

theorem cis_neg_two_pi : cis (-(2 * π)) = 1 := by
  ext <;> simp [cis]

/-- Half round the circle, in either direction. -/
theorem cis_pi : cis π = -1 := by
  ext <;> simp [cis]

theorem cis_neg_pi : cis (-π) = -1 := by
  ext <;> simp [cis]

/-- **The `N`-th parts of the circle are orthogonal**, for every length. -/
theorem fourierRoot_cis {N : ℕ} (hN : 0 < N) : FourierRoot (cis (2 * π / N)) N where
  pow_eq_one := by
    rw [cis_pow, mul_div_cancel₀ _ (by positivity), cis_two_pi]
  orth d hd := by
    apply toComplex_injective
    have hprim := Complex.isPrimitiveRoot_exp N (by omega)
    have hroot : toComplex (cis (2 * π / N)) = Complex.exp (2 * π * Complex.I / N) := by
      rw [toComplex_cis]
      congr 1
      push_cast
      ring
    set ζ := Complex.exp (2 * π * Complex.I / N) with hζ
    have hne : ζ ^ d ≠ 1 := fun h => hd ((hprim.pow_eq_one_iff_dvd d).mp h)
    have hgeom := mul_geom_sum (ζ ^ d) N
    rw [← pow_mul, mul_comm d N, pow_mul, hprim.pow_eq_one, one_pow, sub_self] at hgeom
    rw [map_sum, map_zero]
    simp only [map_pow, hroot, pow_mul]
    exact (mul_eq_zero.mp hgeom).resolve_left (sub_ne_zero.mpr hne)

theorem fourierRoot_cis_neg {N : ℕ} (hN : 0 < N) : FourierRoot (cis (-(2 * π / N))) N :=
  (fourierRoot_cis hN).symm hN (cis_mul_neg _)

/-- The tower of roots of the forward transform. -/
noncomputable def circleTower : RootTower (Cplx ℝ) where
  root l := cis (-(2 * π / 2 ^ l))
  root_zero := by rw [pow_zero, div_one, cis_neg_two_pi]
  root_one := by rw [pow_one, mul_div_cancel_left₀ _ two_ne_zero, cis_neg_pi]
  root_sq l := by
    rw [cis_pow, pow_succ]
    congr 1
    push_cast
    ring

theorem circleTower_root (l : ℕ) : circleTower.root l = cis (-(2 * π / 2 ^ l)) := rfl

theorem circleTower_unitary : circleTower.Unitary := by
  intro l
  rw [circleTower_root, conj_cis, cis_mul_neg]

/-- A root of the tower, as a complex exponential. -/
theorem toComplex_root (l : ℕ) :
    toComplex (circleTower.root l) = Complex.exp (-2 * π * Complex.I / 2 ^ l) := by
  rw [circleTower_root, toComplex_cis]
  congr 1
  push_cast
  ring

end Dft
