import SqlCode.FftOpenMp.Transform

/-!
# Forward and back

The accuracy check of `source_main` transforms `x` forward into `y` and `y` back
into `x`, with one table for both directions (`forwardBack`), and expects `n`
times the data it started from. Both calls are instances of `cfft2_spec`, at a
root and at its inverse; what is left is the orthogonality of the roots
(`FourierRoot.dft_inv`).
-/

namespace SqlCode.FftOpenMp

open Exec Dft

/-- The three calls of the accuracy check. The second call of `cfft2` has `y` as
its input and `x` as its output. -/
def forwardBack {R : Type} [Field R] [LinearOrder R] {xlen ylen wlen : ℕ} (M : Libm R) (n : ℕ)
    (x : Vector R xlen) (y : Vector R ylen) (w : Vector R wlen) :
    Prog (Vector R xlen × Vector R ylen) := do
  let w ← cffti M n w
  let (x, y) ← cfft2 M n x y w 1
  let (y, x) ← cfft2 M n y x w (-1)
  pure (x, y)

/-- **Forward and back is multiplication by `n`.** For every `n = 2^L`, `1 ≤ L ≤ 30`,
and every complex `x`, the two calls leave `n` times the original `x[k]` in `x[k]`. -/
theorem forwardBack_mul {L : ℕ} (hL : 1 ≤ L) (hL' : L ≤ 30) (x y : Vector ℝ (2 ^ L * 2))
    (w : Vector ℝ (2 ^ L)) :
    ∃ x' y', Returns (forwardBack exactLibm (2 ^ L) x y w) (x', y') ∧
      ∀ k, k < 2 ^ L →
        Cplx.toComplex (pairAt x' k) = (2 ^ L : ℕ) * Cplx.toComplex (pairAt x k) := by
  suffices h : Ends (forwardBack exactLibm (2 ^ L) x y w) fun p => ∀ k, k < 2 ^ L →
      pairAt p.1 k = (2 ^ L : ℕ) * pairAt x k by
    obtain ⟨⟨x', y'⟩, hret, hvalue⟩ := h
    refine ⟨x', y', hret, fun k hk => ?_⟩
    rw [hvalue k hk, map_mul, map_natCast]
  have hpos : 0 < 2 ^ L := Nat.two_pow_pos L
  refine (cffti_holdsPowers w (Nat.div_mul_le_self _ _)).bind fun w' hw' => ?_
  refine (cfft2_cis hL hL' (Or.inl rfl) hw' x y).bind ?_
  rintro ⟨x₁, y₁⟩ hy₁
  refine (cfft2_cis hL hL' (Or.inr rfl) hw' y₁ x₁).bind ?_
  rintro ⟨y₂, x₂⟩ hx₂
  refine ends_pure fun k hk => ?_
  -- the second root is the inverse of the first one
  rw [one_mul] at hy₁
  rw [neg_one_mul] at hx₂
  calc pairAt x₂ k = dft (cis (-(2 * Real.pi / (2 ^ L : ℕ)))) (2 ^ L) (pairAt y₁) k := hx₂ k hk
    _ = dft (cis (-(2 * Real.pi / (2 ^ L : ℕ)))) (2 ^ L)
        (dft (cis (2 * Real.pi / (2 ^ L : ℕ))) (2 ^ L) (pairAt x)) k :=
      dft_congr (fun t ht => hy₁ t ht) k
    _ = (2 ^ L : ℕ) * pairAt x k :=
      (fourierRoot_cis hpos).dft_inv (cis_mul_neg _) (pairAt x) hk

/-- Four samples. -/
theorem forwardBack_mul_four :
    let x : Vector ℝ (2 ^ 2 * 2) := Vector.ofFn fun i => (i : ℕ)
    ∃ x' y', Returns (forwardBack exactLibm (2 ^ 2) x x (Vector.replicate (2 ^ 2) 0)) (x', y') ∧
      ∀ k, k < 2 ^ 2 →
        Cplx.toComplex (pairAt x' k) = (2 ^ 2 : ℕ) * Cplx.toComplex (pairAt x k) :=
  forwardBack_mul (by decide) (by decide) _ _ _

end SqlCode.FftOpenMp
