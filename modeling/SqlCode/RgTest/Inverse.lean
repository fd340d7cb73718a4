import SqlCode.RgTest.Transform

/-!
# When `IDFT` inverts `DFT`

The sums of `IDFT` are those of the inverse transform (`idftSum_ends`), so that after
`DFT` they are `size` times the original samples. `IDFT` divides them by the constant
`SIZE`, whatever its argument `size` is: the round trip scales by `size / SIZE`
(`dftIdft_ends`), and is the identity exactly at `size = SIZE` and on the signal
that is zero throughout (`dftIdft_inverse_iff`).
-/

namespace SqlCode.RgTest

open Exec Dft

section Sums

variable {R : Type} [Field R] {len dlen : ℕ}

/-- `IDFT` turns by the powers of a root of unity of order `n`. -/
def TurnsBack (M : Libm R) (ω : Cplx R) (n : ℕ) : Prop :=
  ∀ m t : ℕ, (⟨M.cos (M.pi * (2 : ℕ) * m * t / n), M.sin (M.pi * (2 : ℕ) * m * t / n)⟩ : Cplx R)
    = ω ^ (t * m)

/-- The two sums are the parts of the transform with that root. -/
theorem idftSum_ends {M : Libm R} {ω : Cplx R} {n : ℕ} (hM : TurnsBack M ω n)
    (src : Vector (Cplx R) len) (hlen : n ≤ len) (m : ℕ) :
    Ends (idftSum M src n m) fun s => (⟨s.1, s.2⟩ : Cplx R) = Dft.dft ω n (cell src) m := by
  unfold idftSum
  refine ends_forRange (Nat.zero_le n)
    (fun t (s : R × R) => (⟨s.1, s.2⟩ : Cplx R) = Dft.dft ω t (cell src) m) rfl ?_
  rintro t ⟨real, imagin⟩ - ht hs
  simp only [rd_eq src (lt_of_lt_of_le ht hlen), pure_bind]
  refine ends_pure ?_
  change _ = ∑ t ∈ Finset.range (t + 1), _
  rw [Finset.sum_range_succ]
  change _ = Dft.dft ω t (cell src) m + _
  rw [← hs, ← hM m t]
  ext <;> simp

/-- **`IDFT`** leaves the inverse transform of `src`, divided by `SIZE`, in `dst`, and
prints it. -/
theorem idft_ends {M : Libm R} {ω : Cplx R} {n : ℕ} (hM : TurnsBack M ω n)
    (src : Vector (Cplx R) len) (dst : Vector (Cplx R) dlen) (hlen : n ≤ len) (hdlen : n ≤ dlen) :
    Ends (idft M src (some dst) n) fun p => ∃ y, p.1 = some y ∧ ∀ m, m < n → cell y m =
      ⟨(Dft.dft ω n (cell src) m).real / SIZE, (Dft.dft ω n (cell src) m).imag / SIZE⟩ := by
  unfold idft
  refine (ends_forRange (Nat.zero_le n)
    (fun i (p : Option (Vector (Cplx R) dlen) × List (Cplx R)) => ∃ y, p.1 = some y ∧
      ∀ m, m < i → cell y m =
        ⟨(Dft.dft ω n (cell src) m).real / SIZE, (Dft.dft ω n (cell src) m).imag / SIZE⟩)
    ⟨dst, rfl, fun m hm => absurd hm (by omega)⟩ ?_)
  rintro i ⟨_, printed⟩ - hi ⟨y, rfl, hy⟩
  refine (idftSum_ends hM src hlen i).bind ?_
  rintro ⟨real, imagin⟩ hs
  simp only [wr_eq y (lt_of_lt_of_le hi hdlen), pure_bind]
  refine ends_pure ⟨_, rfl, fun m hm => ?_⟩
  rw [cell_set]
  split
  · next h => rw [h, ← hs]
  · exact hy m (by omega)

end Sums

/-- `IDFT` applied to the output of `DFT`. -/
def dftIdft {R : Type} [Field R] {len dlen dlen' : ℕ} (M : Libm R) (src : Vector R len)
    (dst : Vector (Cplx R) dlen) (dst' : Vector (Cplx R) dlen') (size : ℕ) :
    Prog (Option (Vector (Cplx R) dlen') × List (Cplx R)) := do
  let dst ← dft M src dst size
  idft M dst (some dst') size

theorem exactLibm_turnsBack (n : ℕ) : TurnsBack exactLibm (cis (2 * Real.pi / n)) n := by
  intro m t
  have hangle : ((t * m : ℕ) : ℝ) * (2 * Real.pi / n) = Real.pi * (2 : ℕ) * m * t / n := by
    push_cast
    ring
  rw [cis_pow, hangle]
  rfl

/-- **The round trip** scales by `size / SIZE`, at every length. -/
theorem dftIdft_ends {size : ℕ} (hsize : 1 ≤ size) (x : Vector ℝ size)
    (dst dst' : Vector (Cplx ℝ) size) :
    Ends (dftIdft exactLibm x dst dst' size) fun p => ∃ y, p.1 = some y ∧
      ∀ k, k < size → cell y k = ⟨size * cell x k / SIZE, 0⟩ := by
  refine (dft_spec (exactLibm_getsRoots size) x dst le_rfl le_rfl).bind fun F hF => ?_
  refine (idft_ends (exactLibm_turnsBack size) F dst' le_rfl le_rfl).mono ?_
  rintro ⟨_, printed⟩ ⟨y, rfl, hy⟩
  refine ⟨y, rfl, fun k hk => ?_⟩
  have hinv : cis (-(2 * Real.pi / size)) * cis (2 * Real.pi / size) = 1 := by
    rw [mul_comm, cis_mul_neg]
  have hround : Dft.dft (cis (2 * Real.pi / size)) size (cell F) k
      = (size : Cplx ℝ) * Cplx.ofReal (cell x k) :=
    (dft_congr hF.1 k).trans ((fourierRoot_cis_neg hsize).dft_inv hinv _ hk)
  rw [hy k hk, hround]
  ext <;> simp

/-- **When `IDFT` inverts `DFT`.** For every length and every real signal, the round
trip gives the signal back exactly if the length is `SIZE` or the signal is zero. -/
theorem dftIdft_inverse_iff {size : ℕ} (hsize : 1 ≤ size) (x : Vector ℝ size)
    (dst dst' : Vector (Cplx ℝ) size) :
    (∃ y printed, Returns (dftIdft exactLibm x dst dst' size) (some y, printed) ∧
      ∀ k, k < size → cell y k = ⟨cell x k, 0⟩) ↔
      size = SIZE ∨ ∀ k, k < size → cell x k = 0 := by
  have hSIZE : (SIZE : ℝ) ≠ 0 := by norm_num [SIZE]
  obtain ⟨⟨_, printed⟩, hret, y, rfl, hy⟩ := dftIdft_ends hsize x dst dst'
  constructor
  · -- a sample that is not zero comes back times `size / SIZE`
    rintro ⟨y', printed', hret', hy'⟩
    have heq := hret.unique hret'
    obtain ⟨rfl, -⟩ : y = y' ∧ printed = printed' := by simpa using heq
    by_contra hne
    obtain ⟨hsz, hx⟩ := not_or.mp hne
    obtain ⟨k, hk, hxk⟩ : ∃ k, k < size ∧ cell x k ≠ 0 := by simpa using hx
    have h := congrArg Cplx.real ((hy k hk).symm.trans (hy' k hk))
    change size * cell x k / SIZE = cell x k at h
    rw [div_eq_iff hSIZE, mul_comm] at h
    exact hsz (by exact_mod_cast mul_left_cancel₀ hxk h)
  · intro h
    refine ⟨y, printed, hret, fun k hk => ?_⟩
    rw [hy k hk]
    rcases h with rfl | hzero
    · rw [mul_div_cancel_left₀ _ hSIZE]
    · rw [hzero k hk, mul_zero, zero_div]

/-- The eight samples of a constant signal. -/
theorem dftIdft_inverse_iff_eight :
    (∃ y printed, Returns (dftIdft exactLibm (Vector.replicate 8 1) (Vector.replicate 8 0)
        (Vector.replicate 8 0) 8) (some y, printed) ∧
      ∀ k, k < 8 → cell y k = ⟨cell (Vector.replicate 8 1) k, 0⟩) ↔
      8 = SIZE ∨ ∀ k, k < 8 → cell (Vector.replicate 8 (1 : ℝ)) k = 0 :=
  dftIdft_inverse_iff (by decide) _ _ _

/-- **`IDFT` does not invert `DFT`** on the eight samples of a constant signal. -/
theorem dftIdft_not_inverse :
    ¬ ∃ y printed, Returns (dftIdft exactLibm (Vector.replicate 8 1) (Vector.replicate 8 0)
        (Vector.replicate 8 0) 8) (some y, printed) ∧
      ∀ k, k < 8 → cell y k = ⟨cell (Vector.replicate 8 1) k, 0⟩ := by
  rintro ⟨y, printed, hret, hy⟩
  obtain ⟨⟨_, printed'⟩, hret', y', rfl, hy'⟩ :=
    dftIdft_ends (by decide : 1 ≤ 8) (Vector.replicate 8 1) (Vector.replicate 8 0)
      (Vector.replicate 8 0)
  obtain ⟨rfl, -⟩ : y = y' ∧ printed = printed' := by simpa using hret.unique hret'
  have h := congrArg Cplx.real ((hy' 0 (by decide)).symm.trans (hy 0 (by decide)))
  rw [cell_eq (by decide : 0 < 8)] at h
  norm_num [SIZE] at h

end SqlCode.RgTest
