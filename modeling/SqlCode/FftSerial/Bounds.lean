import SqlCode.FftSerial.Main
import SqlCode.FftSerial.Inverse

/-!
# The accesses of the serial transforms

For which powers of two the four transforms of `fft.c` keep to the array of `N`
elements they are given and to the `21` entries of each table. Accesses are
checked in the model, so a transform that returns has made none outside.

There is a bound on either side. `fft_real` moves entry `ND4` to entry `N - ND4`
(`decompose_fails`), which for `N = 2` is `x[2]`. And the last stage on `2^m`
elements looks up entry `m - 1` of the tables (`twiddleStep_fails`), which for
`m = 22` is one too far. In between every access is in bounds
(`transforms_inBounds_iff`).
-/

namespace SqlCode.FftSerial

open Exec Dft

variable {R : Type} [Field R] {len : ℕ}

/-- The four transforms of an array of `N` elements. -/
def transforms {N : ℕ} (x : Vector (Cplx R) N) : List (Prog (Vector (Cplx R) N)) :=
  [fft sourceTables x N, fftReal sourceTables x N, ifft sourceTables x N,
    ifftReal sourceTables x N]

/-! ### Past the tables -/

theorem twiddleStep_fails {h : ℕ} (h32 : h < 2 ^ 32) (hh : 21 ≤ h.log2) :
    Fails (· = .outOfBounds) (twiddleStep (sourceTables : Tables R) h) := by
  refine Fails.bind_right (floorLog2_32_returns h32) (Fails.bind_left ?_ _)
  exact fails_rd (E := (· = .outOfBounds)) rfl _ hh

theorem stage_fails (N : ℕ) (x : Vector (Cplx R) len) :
    Fails (· = .outOfBounds) (stage sourceTables N 22 x) := by
  have hle2 : toUint32 (toInt (1 <<< 22 : ℕ) >>> (1 : ℕ)) = 2 ^ 21 := by decide
  rw [stage, hle2]
  exact (twiddleStep_fails (by decide) (by rw [Nat.log2_two_pow])).bind_left _

/-- `fft` has at least 22 stages on these lengths. Those that are no `uint32_t` have 32. -/
theorem exists_floorLog2_32 {p : ℕ} (hp : 22 ≤ p) :
    ∃ M, 22 ≤ M ∧ Returns (floorLog2_32 (2 ^ p)) M := by
  rcases Nat.lt_or_ge p 32 with h | h
  · exact ⟨p, hp, floorLog2_32_two_pow (by omega)⟩
  · exact ⟨32, by omega, floorLog2_32_returns_long h⟩

/-- `fft` goes past the tables in round `22`, the rounds before it being in bounds. -/
theorem fft_fails {p : ℕ} (hp : 22 ≤ p) (x : Vector (Cplx R) len) (hN : 2 ^ p ≤ len) :
    Fails (· = .outOfBounds) (fft sourceTables x (2 ^ p)) := by
  obtain ⟨M, hM, hlog⟩ := exists_floorLog2_32 hp
  refine Fails.bind_right hlog ?_
  obtain ⟨y, hy, -⟩ := bitReversal_spec x hN
  refine Fails.bind_right hy ?_
  refine fails_forRange (k := 22) (by omega) (by omega) (fun _ _ => True) trivial
    (fun l z h1 h2 _ => ?_) fun z _ => stage_fails _ z
  obtain ⟨l, rfl⟩ := Nat.exists_eq_add_of_le' h1
  exact stage_safe (sourceTables_definedTo.mono (by omega)) (by omega) (by omega) z hN

/-! ### Past the array -/

/-- The decomposition leaves an array that ends before entry `N - ND4`. -/
theorem decompose_fails {N M d : ℕ} (x : Vector (Cplx R) len) (hM : 2 * M ≤ len) (hd : 2 * d ≤ M)
    (hpos : 0 < len) (hN : len ≤ N - d) :
    Fails (· = .outOfBounds) (decompose x N M d) := by
  obtain ⟨y, hy, -⟩ := decomposeLoop_safe x hM hd
  refine Fails.bind_right hy ?_
  rw [rd_eq y (by omega : d < len), pure_bind]
  refine Fails.bind_left ?_ _
  exact (fails_rd (E := (· = .outOfBounds)) rfl y hN).bind_left _

/-! ### The four transforms -/

section Lengths

variable {m : ℕ} (x : Vector (Cplx R) (2 ^ m))

theorem fft_inBounds (hm : m ≤ 21) : Ends (fft sourceTables x (2 ^ m)) fun _ => True :=
  fft_safe (sourceTables_definedTo.mono (by omega)) (by omega) x le_rfl

theorem fftReal_inBounds (h2 : 2 ≤ m) (hm : m ≤ 21) :
    Ends (fftReal sourceTables x (2 ^ m)) fun _ => True := by
  have hhalf : 2 ^ m = 2 * 2 ^ (m - 1) := (mul_pow_sub_one (by omega) 2).symm
  have h4 : 2 ^ 2 ≤ 2 ^ m := Nat.pow_le_pow_right Nat.two_pos h2
  exact fftReal_safe (p := m - 1) (sourceTables_definedTo.mono (by omega)) (by omega) x
    (.inr (by omega)) le_rfl (by omega)

/-- `fft_real` on two elements. -/
theorem fftReal_fails_two (y : Vector (Cplx R) 2) :
    Fails (· = .outOfBounds) (fftReal sourceTables y 2) := by
  obtain ⟨y₁, hy₁, -⟩ := separate_ends (M := 1) y le_rfl
  obtain ⟨y₂, hy₂, -⟩ := fft_safe (p := 0) (T := (sourceTables : Tables R))
    (sourceTables_definedTo.mono (by omega)) (by decide) y₁ (by decide)
  refine Fails.bind_right hy₁ (Fails.bind_right hy₂ (Fails.bind_left ?_ _))
  exact decompose_fails y₂ (by decide) (by decide) (by decide) (by decide)

/-- `fft_real` on arrays that are too long for the tables: the half-length `fft` goes past them,
or the last stage does. -/
theorem fftReal_fails_long (hm : 22 ≤ m) :
    Fails (· = .outOfBounds) (fftReal sourceTables x (2 ^ m)) := by
  have hsize : 2 ^ m = 2 * 2 ^ (m - 1) := (mul_pow_sub_one (by omega) 2).symm
  have hhalf : 2 ^ m >>> 1 = 2 ^ (m - 1) := by
    rw [Nat.shiftRight_one]
    omega
  have h4 : 2 ^ 22 ≤ 2 ^ m := Nat.pow_le_pow_right Nat.two_pos hm
  obtain ⟨y₁, hy₁, -⟩ := separate_ends x (M := 2 ^ (m - 1)) (by omega)
  rw [fftReal, hhalf]
  refine Fails.bind_right hy₁ ?_
  -- at `m = 22` the half-length `fft` still works, and the last stage is the one that fails
  by_cases hlong : 22 ≤ m - 1
  · exact (fft_fails hlong y₁ (by omega)).bind_left _
  · obtain ⟨y₂, hy₂, -⟩ := fft_safe (p := m - 1) (T := (sourceTables : Tables R))
      (sourceTables_definedTo.mono (by omega)) (by omega) y₁ (by omega)
    have hquarter : 2 ^ m >>> 2 = 2 ^ m / 4 := Nat.shiftRight_eq_div_pow _ 2
    obtain ⟨y₃, hy₃, -⟩ := decompose_safe (N := 2 ^ m) (M := 2 ^ (m - 1)) (d := 2 ^ m >>> 2) y₂
      (by omega) (by omega) (by omega)
    refine Fails.bind_right hy₂ (Fails.bind_right hy₃ ?_)
    obtain rfl : m = 22 := by omega
    exact (twiddleStep_fails (by decide) (by rw [Nat.log2_two_pow])).bind_left _

/-- The first loop of `ifft`. -/
theorem negateLoop_safe :
    Ends (forRange 0 (uint32Pred (2 ^ m) + 1) x fun k x => do
      wrImag x k (-(← rd x k).imag)) fun _ => True := by
  rw [uint32Pred_add_one (Nat.two_pow_pos m)]
  refine safe_forRange x fun k y _ hk => ?_
  rw [rd_eq y hk, pure_bind, wrImag_eq y hk]
  exact ends_pure trivial

theorem ifft_inBounds (hm : m ≤ 21) : Ends (ifft sourceTables x (2 ^ m)) fun _ => True := by
  refine (negateLoop_safe x).bind fun y _ => (fft_inBounds y hm).bind fun z _ => ?_
  rw [uint32Pred_add_one (Nat.two_pow_pos m)]
  refine safe_forRange z fun k y _ hk => ?_
  simp only [rd_eq _ hk, wrReal_eq _ hk, wrImag_eq _ hk, pure_bind]
  exact ends_pure trivial

theorem ifft_fails (hm : 22 ≤ m) : Fails (· = .outOfBounds) (ifft sourceTables x (2 ^ m)) := by
  obtain ⟨y, hy, -⟩ := negateLoop_safe x
  exact Fails.bind_right hy ((fft_fails hm y le_rfl).bind_left _)

/-- The first loop of `ifft_real`. -/
theorem mirrorLoop_safe :
    Ends (forRange ((2 ^ m >>> 1) + 1) (2 ^ m) x fun k x => do
      let x ← wrReal x k (← rd x (2 ^ m - k)).real
      wrImag x k (-(← rd x (2 ^ m - k)).imag)) fun _ => True := by
  refine safe_forRange x fun k y hlo hk => ?_
  have hmk : 2 ^ m - k < 2 ^ m := by omega
  simp only [rd_eq _ hmk, wrReal_eq _ hk, wrImag_eq _ hk, pure_bind]
  exact ends_pure trivial

/-- The second loop of `ifft_real`. -/
theorem foldLoop_safe :
    Ends (forRange 0 (2 ^ m) x fun k x => do
      let c ← rd x k
      wrReal x k (c.real + c.imag)) fun _ => True := by
  refine safe_forRange x fun k y _ hk => ?_
  rw [rd_eq y hk, pure_bind, wrReal_eq y hk]
  exact ends_pure trivial

theorem ifftReal_inBounds (h2 : 2 ≤ m) (hm : m ≤ 21) :
    Ends (ifftReal sourceTables x (2 ^ m)) fun _ => True := by
  refine (mirrorLoop_safe x).bind fun y _ => (foldLoop_safe y).bind fun z _ => ?_
  refine (fftReal_inBounds z h2 hm).bind fun w _ => safe_forRange w fun k y _ hk => ?_
  simp only [rd_eq _ hk, wrReal_eq _ hk, wrImag_eq _ hk, pure_bind]
  exact ends_pure trivial

/-- `ifft_real` goes out of bounds where `fft_real` does. -/
theorem ifftReal_fails
    (h : ∀ y : Vector (Cplx R) (2 ^ m), Fails (· = .outOfBounds) (fftReal sourceTables y (2 ^ m))) :
    Fails (· = .outOfBounds) (ifftReal sourceTables x (2 ^ m)) := by
  obtain ⟨y, hy, -⟩ := mirrorLoop_safe x
  obtain ⟨z, hz, -⟩ := foldLoop_safe y
  exact Fails.bind_right hy (Fails.bind_right hz ((h z).bind_left _))

/-- `fft_real` goes out of bounds at either end of the lengths. -/
theorem fftReal_fails (h : m = 1 ∨ 22 ≤ m) :
    Fails (· = .outOfBounds) (fftReal sourceTables x (2 ^ m)) := by
  rcases h with rfl | h
  · exact fftReal_fails_two x
  · exact fftReal_fails_long x h

/-- **The lengths that are in bounds.** On an array of `N = 2^m` elements, `m ≥ 1`, the four
transforms all return, having made every access in bounds, exactly for `4 ≤ N ≤ 2^21`. Each of
them that does not return goes out of bounds. -/
theorem transforms_inBounds_iff (hm : 1 ≤ m) :
    ((∀ p ∈ transforms x, ∃ y, Returns p y) ↔ 4 ≤ 2 ^ m ∧ 2 ^ m ≤ 2 ^ 21) ∧
      ∀ p ∈ transforms x, (∃ y, Returns p y) ∨ Fails (· = .outOfBounds) p := by
  have hlow : 4 ≤ 2 ^ m ↔ 2 ≤ m := Nat.pow_le_pow_iff_right (n := 2) Nat.one_lt_two
  have hhigh : 2 ^ m ≤ 2 ^ 21 ↔ m ≤ 21 := Nat.pow_le_pow_iff_right Nat.one_lt_two
  rw [hlow, hhigh]
  simp only [transforms, List.mem_cons, List.not_mem_nil, or_false, forall_eq_or_imp, forall_eq]
  refine ⟨⟨fun ⟨_, ⟨y, hy⟩, _, _⟩ => ?short, fun ⟨h2, h21⟩ => ⟨?_, ?_, ?_, ?_⟩⟩, ?_, ?_, ?_, ?_⟩
  case short =>
    by_contra hout
    exact (fftReal_fails x (by omega)).not_returns y hy
  · exact (fft_inBounds x h21).exists_returns
  · exact (fftReal_inBounds x h2 h21).exists_returns
  · exact (ifft_inBounds x h21).exists_returns
  · exact (ifftReal_inBounds x h2 h21).exists_returns
  -- whatever the length, a transform returns or goes out of bounds
  · rcases Nat.lt_or_ge m 22 with h | h
    · exact .inl (fft_inBounds x (by omega)).exists_returns
    · exact .inr (fft_fails h x le_rfl)
  · by_cases h : m = 1 ∨ 22 ≤ m
    · exact .inr (fftReal_fails x h)
    · exact .inl (fftReal_inBounds x (by omega) (by omega)).exists_returns
  · rcases Nat.lt_or_ge m 22 with h | h
    · exact .inl (ifft_inBounds x (by omega)).exists_returns
    · exact .inr (ifft_fails x h)
  · by_cases h : m = 1 ∨ 22 ≤ m
    · exact .inr (ifftReal_fails x fun y => fftReal_fails y h)
    · exact .inl (ifftReal_inBounds x (by omega) (by omega)).exists_returns

end Lengths

/-- Four elements. -/
theorem transforms_inBounds_iff_four :
    ((∀ p ∈ transforms (Vector.replicate (2 ^ 2) (1 : Cplx ℚ)), ∃ y, Returns p y) ↔
        4 ≤ 2 ^ 2 ∧ 2 ^ 2 ≤ 2 ^ 21) ∧
      ∀ p ∈ transforms (Vector.replicate (2 ^ 2) (1 : Cplx ℚ)),
        (∃ y, Returns p y) ∨ Fails (· = .outOfBounds) p :=
  transforms_inBounds_iff _ (by decide)

/-- On two elements `fft_real` accesses `x[2]`, and on `2^22` elements `fft` goes past the
tables. -/
theorem transforms_outOfBounds :
    Fails (· = .outOfBounds) (fftReal sourceTables (Vector.replicate 2 (0 : Cplx ℚ)) 2) ∧
      Fails (· = .outOfBounds)
        (fft sourceTables (Vector.replicate (2 ^ 22) (0 : Cplx ℚ)) (2 ^ 22)) :=
  ⟨fftReal_fails_two _, fft_fails le_rfl _ le_rfl⟩

end SqlCode.FftSerial
