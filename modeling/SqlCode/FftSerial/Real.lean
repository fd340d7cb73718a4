import SqlCode.FftSerial.Transform

/-!
# `fft_real` computes the transform of the real parts

For `N = 2 * M` samples `r`, with `M` a power of two, let `e` and `o` be the
transforms of length `M` of the even and of the odd samples. `fft_real` goes
through four states of its first `N` cells:

1. `separate`: `x[k]` holds `r (2 k)` and `r (2 k + 1)` as its two parts, `k < M`;
2. `fft`: `x[k] = e k + i * o k` (`dft_pack`);
3. `decompose`: `x[k] = e k` and `x[M + k] = o k` (`Unpacked`). A round unpacks
   the four cells of a pair `k`, `M - k` (`decomposeAt_ends`); the assignments
   after the loop unpack the two entries that are their own mirror image;
4. `lastStage`: one pass of butterflies, `x[k] = e k + root ^ k * o k` and
   `x[M + k] = e k - root ^ k * o k`, the transform of length `N`.

Step 3 halves and conjugates, so the result needs a field with `2 ≠ 0` and roots
whose inverses are their conjugates (`RootTower.Unitary`). Step 2 transforms `2^30` cells
at most, so `fft_real` is right for `N = 2^31` too, where `fft` is not.
-/

namespace SqlCode.FftSerial

open Exec Dft Cplx

variable {R : Type} {len : ℕ}

/-! ### Assignments to one part of a cell -/

section Parts

variable [CommRing R]

theorem wrReal_eq (x : Vector (Cplx R) len) {i : ℕ} (hi : i < len) (v : R) :
    wrReal x i v = pure (x.set i ⟨v, (cell x i).imag⟩) := by
  rw [wrReal, rd_eq x hi, pure_bind, wr_eq x hi]

theorem wrImag_eq (x : Vector (Cplx R) len) {i : ℕ} (hi : i < len) (v : R) :
    wrImag x i v = pure (x.set i ⟨(cell x i).real, v⟩) := by
  rw [wrImag, rd_eq x hi, pure_bind, wr_eq x hi]

end Parts

variable [Field R]

/-! ### Packing -/

/-- **The packing loop** reads samples `2 * k` and `2 * k + 1` before either is
overwritten. -/
theorem separate_ends {M : ℕ} (x : Vector (Cplx R) len) (hM : 2 * M ≤ len) :
    Ends (separate x M) fun y =>
      (∀ k, k < M → cell y k = ⟨(cell x (2 * k)).real, (cell x (2 * k + 1)).real⟩) ∧
        ∀ k, M ≤ k → cell y k = cell x k := by
  refine (ends_forCells (fun k => ⟨(cell x (2 * k)).real, (cell x (2 * k + 1)).real⟩)
    (Nat.zero_le M) ?_).mono fun y hy => ⟨fun k hk => hy.1 k (by omega) hk, fun k hk =>
      hy.2 k (Or.inr hk)⟩
  rintro k y - hk htodo
  have hkl : k < len := by omega
  have heven : 2 * k < len := by omega
  have hodd : 2 * k + 1 < len := by omega
  have hshift : k <<< 1 = 2 * k := by rw [Nat.shiftLeft_eq, pow_one, mul_comm]
  simp only [hshift, rd_eq _ heven, rd_eq _ hodd, wrReal_eq _ hkl, wrImag_eq _ hkl, pure_bind]
  refine ends_pure ⟨?_, fun t ht => ?_⟩
  · rw [cell_set_self, cell_set_self, cell_set_ne _ _ _ (by omega), htodo (2 * k) (by omega),
      htodo (2 * k + 1) (by omega)]
  · rw [cell_set_ne _ _ _ ht, cell_set_ne _ _ _ ht]

/-! ### Unpacking -/

section Unpack

variable [NeZero (2 : R)]

/-- **One round of the decomposition** unpacks two mirror entries. -/
private theorem decomposeAt_ends {M i : ℕ} (x : Vector (Cplx R) len) (h0 : 0 < i)
    (hi : 2 * i < M) (hlen : 2 * M ≤ len) {e o : Cplx R} (hz : cell x i = e + I * o)
    (hz' : cell x (M - i) = conj e + I * conj o) :
    Ends (decomposeAt M i x) fun y =>
      (cell y i = e ∧ cell y (M - i) = conj e ∧
        cell y (M + i) = o ∧ cell y (M + (M - i)) = conj o) ∧
      ∀ t, t ≠ i → t ≠ M - i → t ≠ M + i → t ≠ M + (M - i) → cell y t = cell x t := by
  obtain ⟨her, hei, hor, hoi⟩ := packed_parts hz hz'
  clear hz hz'
  generalize hj : M - i = j at *
  -- the four cells are distinct and in bounds
  have hji : j ≠ i := by omega
  have hki : M + i ≠ i := by omega
  have hli : M + j ≠ i := by omega
  have hkj : M + i ≠ j := by omega
  have hlj : M + j ≠ j := by omega
  have hlk : M + j ≠ M + i := by omega
  have hil : i < len := by omega
  have hjl : j < len := by omega
  have hkl : M + i < len := by omega
  have hll : M + j < len := by omega
  rw [decomposeAt, hj, add_comm i, add_comm j]
  simp only [rd_eq _ hil, rd_eq _ hjl, rd_eq _ hkl, wrReal_eq _ hil, wrReal_eq _ hjl,
    wrReal_eq _ hkl, wrReal_eq _ hll, wrImag_eq _ hil, wrImag_eq _ hjl, wrImag_eq _ hkl,
    wrImag_eq _ hll, pure_bind, Nat.cast_ofNat, cell_set, if_true, if_neg hji, if_neg hji.symm,
    if_neg hki.symm, if_neg hli.symm, if_neg hkj.symm, if_neg hlj.symm, if_neg hlk, if_neg hlk.symm,
    her, hei, hor, hoi]
  -- each of the four cells is written last by one of the assignments
  refine ends_pure ⟨⟨?_, ?_, ?_, ?_⟩, fun t hti htj htk htl => ?_⟩
  · simp only [cell_set, if_true, if_neg hji.symm]
  · simp only [cell_set, if_true]
    rfl
  · simp only [cell_set, if_true, if_neg hki, if_neg hkj, if_neg hlk.symm]
  · simp only [cell_set, if_true, if_neg hli, if_neg hlj]
    rfl
  · simp only [cell_set, if_neg hti, if_neg htj, if_neg htk, if_neg htl]

/-- Within the decomposition, when the entries in `D` are unpacked. -/
private structure Unpacked (M : ℕ) (e o : ℕ → Cplx R) (D : ℕ → Prop) (a a' : ℕ → Cplx R) :
    Prop where
  todo : ∀ k, k < M → ¬ D k → a' k = e k + I * o k
  even : ∀ k, k < M → D k → a' k = e k
  odd : ∀ k, k < M → D k → a' (M + k) = o k
  frame : ∀ k, 2 * M ≤ k → a' k = a k

/-- A round of the loop unpacks the entry `i` and its mirror image. -/
private theorem Unpacked.step {d i : ℕ} {e o a : ℕ → Cplx R} {y : Vector (Cplx R) len}
    (h1 : 1 ≤ i) (hi : i < d) (hlen : 4 * d ≤ len)
    (he : ∀ k, k < 2 * d → conj (e k) = e (mirror (2 * d) k))
    (ho : ∀ k, k < 2 * d → conj (o k) = o (mirror (2 * d) k))
    (hy : Unpacked (2 * d) e o (fun k => 0 < k ∧ k < i ∨ 2 * d - i < k) a (cell y)) :
    Ends (decomposeAt (2 * d) i y) fun z =>
      Unpacked (2 * d) e o (fun k => 0 < k ∧ k < i + 1 ∨ 2 * d - (i + 1) < k) a (cell z) := by
  have hmi : mirror (2 * d) i = 2 * d - i := mirror_of_pos (by omega) (by omega)
  have hz := hy.todo i (by omega) (by omega)
  have hz' := hy.todo (2 * d - i) (by omega) (by omega)
  rw [← hmi, ← he i (by omega), ← ho i (by omega), hmi] at hz'
  refine (decomposeAt_ends y h1 (by omega) (by omega) hz hz').mono ?_
  rintro z ⟨⟨hzi, hzj, hzk, hzl⟩, hframe⟩
  rw [he i (by omega), hmi] at hzj
  rw [ho i (by omega), hmi] at hzl
  refine ⟨fun k hk hdk => ?_, fun k hk hdk => ?_, fun k hk hdk => ?_, fun k hk => ?_⟩
  · rw [hframe k (by omega) (by omega) (by omega) (by omega), hy.todo k hk (by omega)]
  -- an unpacked entry is one of the two of this round, or was there before
  · by_cases hki : k = i
    · rw [hki, hzi]
    · by_cases hkj : k = 2 * d - i
      · rw [hkj, hzj]
      · rw [hframe k hki hkj (by omega) (by omega), hy.even k hk (by omega)]
  · by_cases hki : k = i
    · rw [hki, hzk]
    · by_cases hkj : k = 2 * d - i
      · rw [hkj, hzl]
      · rw [hframe _ (by omega) (by omega) (by omega) (by omega), hy.odd k hk (by omega)]
  · rw [hframe k (by omega) (by omega) (by omega) (by omega), hy.frame k hk]

/-- **The decomposition** unpacks every entry. -/
theorem decompose_ends {d : ℕ} (hd : 0 < d) {e o : ℕ → Cplx R} (x : Vector (Cplx R) len)
    (hlen : 4 * d ≤ len) (hz : ∀ k, k < 2 * d → cell x k = e k + I * o k)
    (he : ∀ k, k < 2 * d → conj (e k) = e (mirror (2 * d) k))
    (ho : ∀ k, k < 2 * d → conj (o k) = o (mirror (2 * d) k)) :
    Ends (decompose x (4 * d) (2 * d) d) fun y =>
      (∀ k, k < 2 * d → cell y k = e k ∧ cell y (2 * d + k) = o k) ∧
        ∀ k, 4 * d ≤ k → cell y k = cell x k := by
  have hloop := @ends_forRange _ 1 d x (fun i x => decomposeAt (2 * d) i x) hd
    (fun i y => Unpacked (2 * d) e o (fun k => 0 < k ∧ k < i ∨ 2 * d - i < k) (cell x) (cell y))
    ⟨fun k hk _ => hz k hk, fun k _ hk => absurd hk (by omega),
      fun k _ hk => absurd hk (by omega), fun _ _ => rfl⟩
    fun i y h1 hi hy => hy.step h1 hi hlen he ho
  refine hloop.bind fun y hy => ?_
  -- the entries `0` and `d` are left, which are their own mirror images
  have hself : ∀ k, k < 2 * d → mirror (2 * d) k = k → cell y k = e k + I * o k →
      e k = ⟨(cell y k).real, 0⟩ ∧ o k = ⟨(cell y k).imag, 0⟩ := fun k hk hmk hyk =>
    packed_self hyk (by rw [he k hk, hmk]) (by rw [ho k hk, hmk])
  have hmd : mirror (2 * d) d = d := by
    rw [mirror_of_pos hd (by omega)]
    omega
  obtain ⟨he0, ho0⟩ := hself 0 (by omega) (mirror_zero _) (hy.todo 0 (by omega) (by omega))
  obtain ⟨hed, hod⟩ := hself d (by omega) hmd (hy.todo d (by omega) (by omega))
  have h0 : 0 < len := by omega
  have h1 : d < len := by omega
  have h2 : 2 * d < len := by omega
  have h3 : 3 * d < len := by omega
  rw [show 4 * d - d = 3 * d by omega]
  simp only [rd_eq _ h0, rd_eq _ h1, wrReal_eq _ h2, wrReal_eq _ h3, wrImag_eq _ h0,
    wrImag_eq _ h1, wrImag_eq _ h2, wrImag_eq _ h3, pure_bind]
  refine ends_pure ⟨fun k hk => ?_, fun k hk => ?_⟩
  · by_cases hk0 : k = 0
    · subst hk0
      rw [he0, ho0]
      grind [cell_set]
    · by_cases hkd : k = d
      · subst hkd
        rw [hed, hod]
        grind [cell_set]
      · -- every other entry was unpacked by the loop
        have hdone : 0 < k ∧ k < d ∨ 2 * d - d < k := by omega
        rw [← hy.even k hk hdone, ← hy.odd k hk hdone]
        grind [cell_set]
  · rw [← hy.frame k (by omega)]
    grind [cell_set]

end Unpack

/-! ### The last stage -/

/-- **The last stage** is one pass of butterflies over one block. -/
theorem lastStage_ends {T : Tables R} {M : ℕ} {s : Cplx R} (hs : Returns (twiddleStep T M) s)
    (x : Vector (Cplx R) len) (hlen : 2 * M ≤ len) :
    Ends (lastStage T x M) fun y =>
      Butterflied s M 1 (fun _ _ => True) (cell x) (cell y) := by
  refine (Ends.of_returns hs rfl).bind fun s' hs' => ?_
  subst hs'
  refine (ends_forRange (Nat.zero_le _) (fun i (q : Vector (Cplx R) len × Cplx R) =>
    Butterflied s M 1 (fun _ o => o < i) (cell x) (cell q.1) ∧
      q.2 = s ^ i) ⟨?_, (pow_zero _).symm⟩ ?_).bind fun q hq => ends_pure ?_
  · exact (Butterflies.start _ _ _ _).congr fun b o _ _ => by simp
  · -- the factor of round `i` is the power of the step that `u` has reached
    rintro i ⟨y, u⟩ - hi ⟨hy, rfl⟩
    refine (butterfly_ends _ y (by omega) (by omega) (by omega)).bind fun z hz =>
      ends_pure ⟨?_, ?_⟩
    · -- the only block starts at cell zero
      apply (hy.step_write (c := cell z) Nat.one_pos hi (by omega) ?_).congr
      · exact fun b o _ _ => by omega
      · rw [zero_mul, zero_add]
        exact hz
    · rw [advance_eq, ← pow_succ]
  · exact hq.1.congr fun b o _ ho => by simpa using ho

/-- The last stage joins the transforms of the even and of the odd samples. -/
theorem lastStage_joins {ω : Cplx R} {M : ℕ} (hω : ω ^ M = -1) {a a' s : ℕ → Cplx R}
    (hpass : Butterflied ω M 1 (fun _ _ => True) a a')
    (heven : ∀ k, k < M → a k = dft (ω ^ 2) M (fun t => s (2 * t)) k)
    (hodd : ∀ k, k < M → a (M + k) = dft (ω ^ 2) M (fun t => s (2 * t + 1)) k) {k : ℕ}
    (hk : k < 2 * M) : a' k = dft ω (2 * M) s k := by
  rcases Nat.lt_or_ge k M with hlt | hge
  · have hlo := hpass.lo_done 0 k Nat.one_pos hlt trivial
    rw [zero_mul, zero_add, heven k hlt, add_comm k, hodd k hlt] at hlo
    rw [hlo, dft_two_mul]
  · obtain ⟨k, rfl⟩ := Nat.exists_eq_add_of_le' hge
    have hlt : k < M := by omega
    have hhi := hpass.hi_done 0 k Nat.one_pos hlt trivial
    rw [zero_mul, zero_add, heven k hlt, add_comm k M, hodd k hlt] at hhi
    rw [add_comm k, hhi, add_comm M, dft_two_mul_add hω]

/-! ### The whole transform -/

/-- **`fft_real` computes the transform** of the real parts of the first
`2 ^ m` cells, `2 ≤ m ≤ 31`, and leaves the others as they were. -/
theorem fftReal_spec [NeZero (2 : R)] {T : Tables R} {ρ : RootTower (Cplx R)} (hT : T.Holds ρ)
    (hρ : ρ.Unitary) {m : ℕ} (hm : 2 ≤ m) (hm' : m ≤ 31) (x : Vector (Cplx R) len)
    (hN : 2 ^ m ≤ len) :
    Ends (fftReal T x (2 ^ m)) fun y =>
      (∀ k, k < 2 ^ m →
        cell y k = dft (ρ.root m) (2 ^ m) (fun t => ofReal (cell x t).real) k) ∧
        ∀ k, 2 ^ m ≤ k → cell y k = cell x k := by
  obtain ⟨p, rfl⟩ : ∃ p, m = p + 2 := ⟨m - 2, by omega⟩
  have hd := Nat.two_pow_pos p
  have hM : 2 ^ (p + 1) = 2 * 2 ^ p := pow_succ' 2 p
  have hN4 : 2 ^ (p + 2) = 4 * 2 ^ p := by rw [pow_add]; ring
  have hshift1 : (2 ^ (p + 2)) >>> 1 = 2 ^ (p + 1) := by
    rw [Nat.shiftRight_one]
    omega
  have hshift2 : (2 ^ (p + 2)) >>> 2 = 2 ^ p := by
    rw [Nat.shiftRight_eq_div_pow]
    omega
  -- the transforms of the even and of the odd samples
  let e := dft (ρ.root (p + 1)) (2 ^ (p + 1)) fun t => ofReal (cell x (2 * t)).real
  let o := dft (ρ.root (p + 1)) (2 ^ (p + 1)) fun t => ofReal (cell x (2 * t + 1)).real
  -- separation and one complex transform of half the length leave them packed
  rw [fftReal, hshift1, hshift2]
  refine (separate_ends x (by omega : 2 * 2 ^ (p + 1) ≤ len)).bind fun x₁ hx₁ => ?_
  refine (fft_spec hT (by omega) x₁ (by omega)).bind fun x₂ hx₂ => ?_
  have hpacked : ∀ k, k < 2 * 2 ^ p → cell x₂ k = e k + I * o k := by
    intro k hk
    rw [hx₂.1 k (by omega), dft_pack]
    congr 1
    · exact dft_congr (fun t ht => by rw [hx₁.1 t ht]) k
    · congr 1
      exact dft_congr (fun t ht => by rw [hx₁.1 t ht]) k
  -- both are transforms of real samples, so the decomposition can tell them apart
  have hconj : ∀ r : ℕ → R, ∀ k, k < 2 * 2 ^ p →
      conj (dft (ρ.root (p + 1)) (2 ^ (p + 1)) (fun t => ofReal (r t)) k)
        = dft (ρ.root (p + 1)) (2 ^ (p + 1)) (fun t => ofReal (r t)) (mirror (2 * 2 ^ p) k) := by
    intro r k hk
    rw [← hM] at hk ⊢
    exact conj_dft_ofReal (ρ.root_pow_full _) (hρ _) r hk
  rw [hN4] at hN ⊢
  rw [hM]
  refine (decompose_ends hd x₂ hN hpacked (hconj _) (hconj _)).bind fun x₃ hx₃ => ?_
  rw [← hM]
  -- the last stage joins them to the transform of the whole signal
  have hlt : 2 ^ (p + 1) < 2 ^ 32 := Nat.pow_lt_pow_right Nat.one_lt_two (by omega)
  have hroot : ρ.root (p + 1) = ρ.root (p + 2) ^ 2 := (ρ.root_sq (p + 1)).symm
  have hwhole : 4 * 2 ^ p = 2 * 2 ^ (p + 1) := by omega
  refine (lastStage_ends (twiddleStep_returns hT hlt Nat.log2_two_pow) x₃ (by omega)).mono
    fun y hy => ⟨fun k hk => ?_, fun k hk => ?_⟩
  · rw [hwhole] at hk ⊢
    refine lastStage_joins (ρ.root_pow_half _) hy (fun k hk => ?_) (fun k hk => ?_) hk
    · rw [← hroot]
      exact (hx₃.1 k (by omega)).1
    · rw [← hroot]
      have hodd := (hx₃.1 k (by omega)).2
      rwa [← hM] at hodd
  · rw [hy.frame k (by omega), hx₃.2 k hk, hx₂.2 k (by omega), hx₁.2 k (by omega)]

/-! ### Against `fft` -/

/-- The array with its imaginary parts cleared. -/
def realParts (x : Vector (Cplx R) len) : Vector (Cplx R) len :=
  x.map fun c => ⟨c.real, 0⟩

theorem cell_realParts (x : Vector (Cplx R) len) (k : ℕ) :
    cell (realParts x) k = ofReal (cell x k).real := by
  unfold cell realParts
  split
  · rw [Vector.getElem_map]
    rfl
  · rfl

/-- **`fft_real` refines `fft`.** For `N = 2^m`, `2 ≤ m ≤ 31`, what it leaves in the array does
not depend on the imaginary parts on entry. Up to `2^30` it is what `fft` leaves in the array
of the real parts. -/
theorem fftReal_eq_fft {m : ℕ} (hm : 2 ≤ m) (hm' : m ≤ 31) (x : Vector (Cplx ℝ) (2 ^ m)) :
    ∃ y, (m ≤ 30 → Returns (fft exactTables (realParts x) (2 ^ m)) y) ∧
      Returns (fftReal exactTables x (2 ^ m)) y ∧
      ∀ x', realParts x' = realParts x → Returns (fftReal exactTables x' (2 ^ m)) y := by
  obtain ⟨y, hy, hdft, -⟩ := fftReal_spec exactTables_holds circleTower_unitary hm hm' x le_rfl
  refine ⟨y, fun h30 => ?_, hy, fun x' hx' => ?_⟩
  · obtain ⟨z, hz, hzdft, -⟩ := fft_spec exactTables_holds h30 (realParts x) le_rfl
    have hzy : z = y := ext_cell fun k hk => by
      rw [hzdft k hk, hdft k hk]
      exact dft_congr (fun t _ => cell_realParts x t) k
    rwa [← hzy]
  · obtain ⟨z, hz, hzdft, -⟩ :=
      fftReal_spec exactTables_holds circleTower_unitary hm hm' x' le_rfl
    have hzy : z = y := ext_cell fun k hk => by
      rw [hzdft k hk, hdft k hk]
      refine dft_congr (fun t _ => ?_) k
      rw [← cell_realParts, hx', cell_realParts]
    rwa [← hzy]

/-- Four samples, with imaginary parts to be ignored. -/
theorem fftReal_eq_fft_four :
    let x := Vector.ofFn fun i : Fin (2 ^ 2) => (⟨(i : ℕ), 1⟩ : Cplx ℝ)
    ∃ y, (2 ≤ 30 → Returns (fft exactTables (realParts x) (2 ^ 2)) y) ∧
      Returns (fftReal exactTables x (2 ^ 2)) y ∧
      ∀ x', realParts x' = realParts x → Returns (fftReal exactTables x' (2 ^ 2)) y :=
  fftReal_eq_fft (le_refl 2) (by decide) _

theorem realParts_impulse (N : ℕ) : realParts (impulse N) = impulse N :=
  ext_cell fun k hk => by
    rw [cell_realParts, cell_impulse hk]
    split <;> rfl

/-- For `N = 2^31` the two differ, on the array with a single `1`. -/
theorem fftReal_eq_fft_fails :
    ¬ ∃ y, Returns (fft exactTables (realParts (impulse (2 ^ 31))) (2 ^ 31)) y ∧
      Returns (fftReal exactTables (impulse (2 ^ 31)) (2 ^ 31)) y := by
  rintro ⟨y, hfft, hreal⟩
  rw [realParts_impulse] at hfft
  have hzero := fft_impulse.of_unique hfft (2 ^ 30) (by omega)
  have hone := ((fftReal_spec exactTables_holds circleTower_unitary (by omega) le_rfl
    (impulse (2 ^ 31)) le_rfl).of_unique hreal).1 (2 ^ 30) (by omega)
  simp only [← cell_realParts, realParts_impulse] at hone
  rw [dft_impulse _ (by omega), hzero, if_neg (lt_irrefl _)] at hone
  exact zero_ne_one (congrArg Cplx.real hone)

end SqlCode.FftSerial
