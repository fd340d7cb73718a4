import SqlCode.FftSerial.Real

/-!
# The inverse transforms

`ifft` conjugates, transforms and conjugates again, so it transforms with the
conjugate root and divides by the length (`ifft_spec`); by orthogonality it
undoes `fft` and is undone by it (`fft_ifft_inverse`). For `N = 2^31`, where `fft` lacks its
last stage, it does not (`fft_ifft_inverse_fails`).

`ifft_real` never conjugates. It makes the spectrum symmetric, folds the two
parts of every entry into one real sample, runs `fft_real` and folds again
(`ifftReal_spec`). On a conjugate-symmetric spectrum that is the same inverse
transform, by the Hartley identity (`ifftReal_eq_ifft`), up to `N = 2^30`.
-/

namespace SqlCode.FftSerial

open Exec Dft Cplx

variable {R : Type} {len : ℕ} [Field R]

theorem uint32Pred_add_one {N : ℕ} (hN : 0 < N) : uint32Pred N + 1 = N := by
  rw [uint32Pred, if_neg (by omega), Nat.sub_add_cancel hN]

/-! ### `ifft` -/

/-- **`ifft`** conjugates what `fft` leaves of the conjugate array, and divides. -/
theorem ifft_ends {T : Tables R} {N : ℕ} (hpos : 0 < N) (x : Vector (Cplx R) len) (hN : N ≤ len)
    {f : ℕ → Cplx R}
    (hfft : ∀ x' : Vector (Cplx R) len, (∀ k, k < N → cell x' k = conj (cell x k)) →
      Ends (fft T x' N) fun y =>
        (∀ k, k < N → cell y k = f k) ∧ ∀ k, N ≤ k → cell y k = cell x' k) :
    Ends (ifft T x N) fun y =>
      (∀ k, k < N → cell y k = ofReal (N : R)⁻¹ * conj (f k)) ∧
        ∀ k, N ≤ k → cell y k = cell x k := by
  rw [ifft, uint32Pred_add_one hpos]
  -- the first loop conjugates
  have hconj := @ends_forCells _ len _ 0 N
    (fun k x => do wrImag x k (-(← rd x k).imag)) x (fun k => conj (cell x k))
    (Nat.zero_le _) fun k y _ hk htodo => by
      have hkl : k < len := by omega
      rw [rd_eq _ hkl, pure_bind, wrImag_eq _ hkl, ← htodo k (by omega)]
      exact ends_pure ⟨cell_set_self _ _ _, fun t ht => cell_set_ne _ _ _ ht⟩
  refine hconj.bind fun x₁ hx₁ =>
    (hfft x₁ fun k hk => hx₁.1 k (Nat.zero_le k) hk).bind fun x₂ hx₂ => ?_
  -- the last one conjugates again and divides
  refine (ends_forCells (fun k => ofReal (N : R)⁻¹ * conj (f k))
    (Nat.zero_le _) fun k y _ hk htodo => ?_).mono fun y hy =>
      ⟨fun k hk => hy.1 k (Nat.zero_le k) hk, fun k hk => ?_⟩
  · have hkl : k < len := by omega
    have hval : cell y k = f k := by
      rw [htodo k (by omega), hx₂.1 k hk]
    simp only [rd_eq _ hkl, wrReal_eq _ hkl, wrImag_eq _ hkl, pure_bind, cell_set_self, hval]
    refine ends_pure ⟨?_, fun t ht => ?_⟩
    · rw [cell_set_self]
      ext <;> simp [div_eq_inv_mul]
    · rw [cell_set_ne _ _ _ ht, cell_set_ne _ _ _ ht]
  · rw [hy.2 k (Or.inr hk), hx₂.2 k hk, hx₁.2 k (Or.inr hk)]

/-- **`ifft` computes the inverse transform** of the first `2 ^ m` cells. -/
theorem ifft_spec {T : Tables R} {ρ : RootTower (Cplx R)} (hT : T.Holds ρ) {m : ℕ} (hm : m ≤ 30)
    (x : Vector (Cplx R) len) (hN : 2 ^ m ≤ len) :
    Ends (ifft T x (2 ^ m)) fun y =>
      (∀ k, k < 2 ^ m →
        cell y k = ofReal ((2 ^ m : ℕ) : R)⁻¹ * dft (conj (ρ.root m)) (2 ^ m) (cell x) k) ∧
        ∀ k, 2 ^ m ≤ k → cell y k = cell x k := by
  refine (ifft_ends (f := fun k => conj (dft (conj (ρ.root m)) (2 ^ m) (cell x) k))
    (Nat.two_pow_pos m) x hN fun x' hx' => ?_).mono fun y hy => ?_
  · refine (fft_spec hT hm x' hN).mono fun y hy => ⟨fun k hk => ?_, hy.2⟩
    rw [hy.1 k hk, map_dft, conj_conj]
    exact dft_congr hx' k
  · simpa only [conj_conj] using hy

/-- **`ifft` on `2^31` cells**, without the last stage of its `fft`. -/
theorem ifft_spec_top {T : Tables R} {ρ : RootTower (Cplx R)} (hT : T.Holds ρ)
    (x : Vector (Cplx R) len) (hN : 2 ^ 31 ≤ len) :
    Ends (ifft T x (2 ^ 31)) fun y =>
      ∀ k, k < 2 ^ 31 → cell y k = ofReal ((2 ^ 31 : ℕ) : R)⁻¹ *
        dft (conj (ρ.root 30)) (2 ^ 30) (fun t => cell x (2 * t + k / 2 ^ 30)) (k % 2 ^ 30) := by
  refine (ifft_ends (f := fun k => conj (dft (conj (ρ.root 30)) (2 ^ 30)
    (fun t => cell x (2 * t + k / 2 ^ 30)) (k % 2 ^ 30))) (by omega) x hN fun x' hx' => ?_).mono
      fun y hy => ?_
  · refine (fft_spec_top hT x' hN).mono fun y hy => ⟨fun k hk => ?_, hy.2⟩
    rw [hy.1 k hk, map_dft, conj_conj]
    exact dft_congr (fun t ht => hx' _ (by omega)) _
  · simpa only [conj_conj] using hy.1

/-- The factor of the inverse transform undoes the factor of orthogonality. -/
theorem ofReal_inv_mul_natCast [NeZero (2 : R)] (m : ℕ) :
    ofReal ((2 ^ m : ℕ) : R)⁻¹ * ((2 ^ m : ℕ) : Cplx R) = 1 := by
  have h2 : ((2 ^ m : ℕ) : R) ≠ 0 := by
    rw [Nat.cast_pow, Nat.cast_ofNat]
    exact pow_ne_zero m (NeZero.ne 2)
  rw [← map_natCast (ofReal (R := R)), ← map_mul, inv_mul_cancel₀ h2, map_one]

/-- **`fft` and `ifft` are mutually inverse** on every array of `2 ^ m` elements, `m ≤ 30`. -/
theorem fft_ifft_inverse {m : ℕ} (hm : m ≤ 30) (x : Vector (Cplx ℝ) (2 ^ m)) :
    Returns (do let y ← fft exactTables x (2 ^ m); ifft exactTables y (2 ^ m)) x ∧
      Returns (do let y ← ifft exactTables x (2 ^ m); fft exactTables y (2 ^ m)) x := by
  have hω := circleTower_unitary m
  have hroot := circleTower.fourierRoot m
  constructor
  · -- forward, then back
    obtain ⟨y, hy, hdft, -⟩ := fft_spec exactTables_holds hm x le_rfl
    obtain ⟨z, hz, hinv, -⟩ := ifft_spec exactTables_holds hm y le_rfl
    have hzx : z = x := ext_cell fun k hk => by
      rw [hinv k hk, dft_congr hdft, hroot.dft_inv hω _ hk, ← mul_assoc,
        ofReal_inv_mul_natCast, one_mul]
    rw [hzx] at hz
    exact hy.bind hz
  · -- back, then forward
    obtain ⟨y, hy, hinv, -⟩ := ifft_spec exactTables_holds hm x le_rfl
    obtain ⟨z, hz, hdft, -⟩ := fft_spec exactTables_holds hm y le_rfl
    have hzx : z = x := ext_cell fun k hk => by
      rw [hdft k hk, dft_congr hinv, dft_mul_left,
        (hroot.symm (Nat.two_pow_pos m) hω).dft_inv (by rw [mul_comm, hω]) _ hk, ← mul_assoc,
        ofReal_inv_mul_natCast, one_mul]
    rw [hzx] at hz
    exact hy.bind hz

/-- Four elements. -/
theorem fft_ifft_inverse_four :
    let x := Vector.ofFn fun i : Fin (2 ^ 2) => (⟨(i : ℕ), 1⟩ : Cplx ℝ)
    Returns (do let y ← fft exactTables x (2 ^ 2); ifft exactTables y (2 ^ 2)) x ∧
      Returns (do let y ← ifft exactTables x (2 ^ 2); fft exactTables y (2 ^ 2)) x :=
  fft_ifft_inverse (by decide) _

/-- For `N = 2^31` the first of the two leaves something else, on the array with a single
`1`. -/
theorem fft_ifft_inverse_fails :
    ¬ Returns (do let y ← fft exactTables (impulse (2 ^ 31)) (2 ^ 31); ifft exactTables y (2 ^ 31))
      (impulse (2 ^ 31)) := by
  intro h
  obtain ⟨y, hy, hfft⟩ := fft_impulse
  obtain ⟨z, hz, hifft⟩ := ifft_spec_top exactTables_holds y le_rfl
  have hround : Returns (do let y ← fft exactTables (impulse (2 ^ 31)) (2 ^ 31)
                            ifft exactTables y (2 ^ 31)) z := hy.bind hz
  obtain rfl := hround.unique h
  have hval := hifft (2 ^ 30) (by omega)
  rw [cell_impulse (by omega), if_neg (by omega), Nat.div_self (by omega), Nat.mod_self, dft]
    at hval
  -- half of the odd entries of `y` are ones, and they add up
  have hsum : ∑ t ∈ Finset.range (2 ^ 30),
      cell y (2 * t + 1) * conj (circleTower.root 30) ^ (t * 0) = ((2 ^ 29 : ℕ) : Cplx ℝ) := by
    have hterm : ∀ t ∈ Finset.range (2 ^ 30),
        cell y (2 * t + 1) * conj (circleTower.root 30) ^ (t * 0)
          = if t < 2 ^ 29 then 1 else 0 := by
      intro t ht
      have ht' := Finset.mem_range.mp ht
      rw [hfft _ (by omega), mul_zero, pow_zero, mul_one]
      exact if_congr (by omega) rfl rfl
    have hones : (Finset.range (2 ^ 30)).filter (· < 2 ^ 29) = Finset.range (2 ^ 29) := by
      ext t
      simp only [Finset.mem_filter, Finset.mem_range]
      omega
    rw [Finset.sum_congr rfl hterm, Finset.sum_boole, hones, Finset.card_range]
  rw [hsum, ← map_natCast (ofReal (R := ℝ)), ← map_mul] at hval
  have hreal := congrArg Cplx.real hval
  rw [ofReal_real] at hreal
  norm_num at hreal

/-! ### `ifft_real` -/

/-- The spectrum with its upper half replaced by the conjugate of its lower half. -/
def symmetrized (N : ℕ) (x : ℕ → Cplx R) (k : ℕ) : Cplx R :=
  if k < N / 2 + 1 then x k else conj (x (N - k))

/-- The two parts of an entry, added up. -/
def fold (a : Cplx R) : R := a.real + a.imag

/-- What `ifft_real` computes: the transform of the folded spectrum, folded. -/
def hartleyInverse (ω : Cplx R) (N : ℕ) (x : ℕ → Cplx R) (k : ℕ) : Cplx R :=
  ofReal (fold (dft ω N (fun t => ofReal (fold (symmetrized N x t))) k) / N)

variable [NeZero (2 : R)]

/-- **`ifft_real`**, in terms of the lower half of its argument. -/
theorem ifftReal_spec {T : Tables R} {ρ : RootTower (Cplx R)} (hT : T.Holds ρ)
    (hρ : ρ.Unitary) {m : ℕ} (hm : 2 ≤ m) (hm' : m ≤ 31) (x : Vector (Cplx R) len)
    (hN : 2 ^ m ≤ len) :
    Ends (ifftReal T x (2 ^ m)) fun y =>
      (∀ k, k < 2 ^ m → cell y k = hartleyInverse (ρ.root m) (2 ^ m) (cell x) k) ∧
        ∀ k, 2 ^ m ≤ k → cell y k = cell x k := by
  have hhalf : (2 ^ m) >>> 1 = 2 ^ m / 2 := Nat.shiftRight_one _
  have h4 : 2 ^ 2 ≤ 2 ^ m := Nat.pow_le_pow_right Nat.two_pos hm
  rw [ifftReal, hhalf]
  -- the lower half is only read while the upper half is written
  refine (ends_forCells (fun k => conj (cell x (2 ^ m - k))) (by omega)
    fun k y hlo hk htodo => ?_).bind fun x₁ hx₁ => ?_
  · have hkl : k < len := by omega
    have hml : 2 ^ m - k < len := by omega
    simp only [rd_eq _ hml, wrReal_eq _ hkl, wrImag_eq _ hkl, pure_bind]
    refine ends_pure ⟨?_, fun t ht => ?_⟩
    · rw [cell_set_self, cell_set_self, cell_set_ne _ _ _ (by omega), htodo _ (by omega)]
      rfl
    · rw [cell_set_ne _ _ _ ht, cell_set_ne _ _ _ ht]
  have hsym : ∀ k, k < 2 ^ m → cell x₁ k = symmetrized (2 ^ m) (cell x) k := by
    intro k hk
    unfold symmetrized
    split
    · next h => exact hx₁.2 k (Or.inl h)
    · next h => exact hx₁.1 k (by omega) hk
  -- the sums of the parts, their real transform, and the sums of its parts, scaled
  refine (ends_forCells (fun k => ⟨fold (cell x₁ k), (cell x₁ k).imag⟩)
    (Nat.zero_le _) fun k y _ hk htodo => ?_).bind fun x₂ hx₂ => ?_
  · have hkl : k < len := by omega
    rw [rd_eq _ hkl, pure_bind, wrReal_eq _ hkl, ← htodo k (by omega)]
    exact ends_pure ⟨cell_set_self _ _ _, fun t ht => cell_set_ne _ _ _ ht⟩
  refine (fftReal_spec hT hρ hm hm' x₂ hN).bind fun x₃ hx₃ => ?_
  refine (ends_forCells (hartleyInverse (ρ.root m) (2 ^ m) (cell x)) (Nat.zero_le _)
    fun k y _ hk htodo => ?_).mono fun y hy => ⟨fun k hk => hy.1 k (Nat.zero_le k) hk,
      fun k hk => ?_⟩
  · have hkl : k < len := by omega
    have hval : cell y k = dft (ρ.root m) (2 ^ m) (fun t =>
        ofReal (fold (symmetrized (2 ^ m) (cell x) t))) k := by
      rw [htodo k (by omega), hx₃.1 k hk]
      refine dft_congr (fun t ht => ?_) k
      rw [hx₂.1 t (Nat.zero_le t) ht, hsym t ht]
    simp only [rd_eq _ hkl, wrReal_eq _ hkl, wrImag_eq _ hkl, pure_bind, hval]
    refine ends_pure ⟨?_, fun t ht => ?_⟩
    · rw [cell_set_self, cell_set_self]
      rfl
    · rw [cell_set_ne _ _ _ ht, cell_set_ne _ _ _ ht]
  · rw [hy.2 k (Or.inr hk), hx₃.2 k hk, hx₂.2 k (Or.inr hk), hx₁.2 k (Or.inr hk)]

omit [NeZero (2 : R)] in
/-- The folded inverse reads the lower half of the spectrum only. -/
theorem hartleyInverse_congr {ω : Cplx R} {N : ℕ} {x x' : ℕ → Cplx R}
    (h : ∀ k, k ≤ N / 2 → x' k = x k) (k : ℕ) :
    hartleyInverse ω N x' k = hartleyInverse ω N x k := by
  have hsym : ∀ t, t < N → symmetrized N x' t = symmetrized N x t := by
    intro t ht
    unfold symmetrized
    split
    · exact h t (by omega)
    · rw [h (N - t) (by omega)]
  unfold hartleyInverse
  rw [dft_congr (fun t ht => by rw [hsym t ht]) k]

/-- On a conjugate-symmetric spectrum the folded inverse is the inverse. -/
theorem hartleyInverse_eq {ω : Cplx R} {N : ℕ} (hω : ω ^ N = 1) (hunit : ω * conj ω = 1)
    {x : ℕ → Cplx R} (hx : ∀ t, t < N → x (mirror N t) = conj (x t)) (k : ℕ) :
    hartleyInverse ω N x k = ofReal (N : R)⁻¹ * dft (conj ω) N x k := by
  have hsym : ∀ t, t < N → symmetrized N x t = x t := by
    intro t ht
    unfold symmetrized
    split
    · rfl
    · rw [← mirror_of_pos (by omega) ht, hx t ht, conj_conj]
  rw [hartley hω hunit hx rfl, ← map_mul, ← div_eq_inv_mul, hartleyInverse,
    dft_congr (fun t ht => by rw [hsym t ht]) k]
  rfl

/-- The spectrum of a real signal: entry `-k` is the conjugate of entry `k`. -/
def ConjSymmetric {N : ℕ} (x : Vector (Cplx R) N) : Prop :=
  ∀ k, k < N → cell x ((N - k) % N) = conj (cell x k)

/-- **`ifft_real` refines `ifft`.** For `N = 2^m`, `2 ≤ m ≤ 31`, what `ifft_real` leaves
depends only on the entries `0, …, N / 2`, on every spectrum. Up to `2^30` it is what `ifft`
leaves on every conjugate-symmetric one. -/
theorem ifftReal_eq_ifft {m : ℕ} (hm : 2 ≤ m) (hm' : m ≤ 31) (x : Vector (Cplx ℝ) (2 ^ m)) :
    ∃ y, Returns (ifftReal exactTables x (2 ^ m)) y ∧
      (m ≤ 30 → ConjSymmetric x → Returns (ifft exactTables x (2 ^ m)) y) ∧
      ∀ x' : Vector (Cplx ℝ) (2 ^ m), (∀ k, k ≤ 2 ^ m / 2 → cell x' k = cell x k) →
        Returns (ifftReal exactTables x' (2 ^ m)) y := by
  have hspec := fun x : Vector (Cplx ℝ) (2 ^ m) =>
    ifftReal_spec exactTables_holds circleTower_unitary hm hm' x le_rfl
  obtain ⟨y, hy, hval, -⟩ := hspec x
  refine ⟨y, hy, fun h30 hx => ?_, fun x' hx' => ?_⟩
  · obtain ⟨z, hz, hinv, -⟩ := ifft_spec exactTables_holds h30 x le_rfl
    have hzy : z = y := ext_cell fun k hk => by
      rw [hinv k hk, hval k hk,
        hartleyInverse_eq (circleTower.root_pow_full m) (circleTower_unitary m) hx]
    rwa [← hzy]
  · obtain ⟨z, hz, hval', -⟩ := hspec x'
    have hzy : z = y := ext_cell fun k hk => by
      rw [hval' k hk, hval k hk, hartleyInverse_congr hx']
    rwa [← hzy]

/-- A symmetric spectrum of four entries, and one with the same lower half. -/
theorem ifftReal_eq_ifft_four :
    let x := Vector.mk (n := 2 ^ 2) #[(⟨1, 0⟩ : Cplx ℝ), ⟨1, 2⟩, ⟨3, 0⟩, ⟨1, -2⟩] rfl
    let x' := Vector.mk (n := 2 ^ 2) #[(⟨1, 0⟩ : Cplx ℝ), ⟨1, 2⟩, ⟨3, 0⟩, ⟨7, 5⟩] rfl
    ∃ y, Returns (ifftReal exactTables x (2 ^ 2)) y ∧ Returns (ifft exactTables x (2 ^ 2)) y ∧
      Returns (ifftReal exactTables x' (2 ^ 2)) y := by
  intro x x'
  obtain ⟨y, hreal, hifft, hlower⟩ := ifftReal_eq_ifft (le_refl 2) (by decide) x
  refine ⟨y, hreal, hifft (by decide) fun k hk => ?_, hlower x' fun k hk => ?_⟩
  · interval_cases k <;> ext <;> simp [cell, x]
  · have hk : k ≤ 2 := hk
    interval_cases k <;> rfl

theorem impulse_conjSymmetric (N : ℕ) : ConjSymmetric (impulse N) := by
  intro k hk
  rw [cell_impulse (Nat.mod_lt _ (by omega)), cell_impulse hk]
  by_cases h0 : k = 0
  · subst h0
    rw [Nat.sub_zero, Nat.mod_self, if_pos rfl, map_one]
  · rw [Nat.mod_eq_of_lt (by omega), if_neg (by omega), if_neg h0, map_zero]

/-- For `N = 2^31` the two differ, on the spectrum with a single `1`. -/
theorem ifftReal_eq_ifft_fails :
    ConjSymmetric (impulse (2 ^ 31)) ∧
      ¬ ∃ y, Returns (ifftReal exactTables (impulse (2 ^ 31)) (2 ^ 31)) y ∧
        Returns (ifft exactTables (impulse (2 ^ 31)) (2 ^ 31)) y := by
  refine ⟨impulse_conjSymmetric _, ?_⟩
  rintro ⟨y, hreal, hifft⟩
  have hk : 2 ^ 30 < 2 ^ 31 := by omega
  have hsome := ((ifftReal_spec exactTables_holds circleTower_unitary (by omega) le_rfl
    (impulse (2 ^ 31)) le_rfl).of_unique hreal).1 (2 ^ 30) hk
  rw [hartleyInverse_eq (circleTower.root_pow_full 31) (circleTower_unitary 31)
    (impulse_conjSymmetric _), dft_impulse _ (by omega), mul_one] at hsome
  -- the upper half of `ifft` is made from the odd entries alone
  have hzero := (ifft_spec_top exactTables_holds (impulse (2 ^ 31)) le_rfl).of_unique hifft
    (2 ^ 30) hk
  have hodd : ∀ t, t < 2 ^ 30 → cell (impulse (2 ^ 31)) (2 * t + 2 ^ 30 / 2 ^ 30) = 0 := by
    intro t ht
    rw [cell_impulse (by omega), if_neg (by omega)]
  have hnone : dft (conj (circleTower.root 30)) (2 ^ 30) (fun _ => 0) (2 ^ 30 % 2 ^ 30) = 0 :=
    Finset.sum_eq_zero fun t _ => zero_mul _
  rw [dft_congr hodd, hsome, hnone, mul_zero] at hzero
  have hpart := congrArg Cplx.real hzero
  rw [ofReal_real, Cplx.zero_real] at hpart
  norm_num at hpart

end SqlCode.FftSerial
