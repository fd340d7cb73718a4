import SqlCode.FftSerial.Real
import SqlCode.RgTest.Transform
import SqlCode.FftOpenMp.Transform
import SqlCode.FftMpi.Runs
import SqlCode.FftMpi1.Transform

/-!
# The three transforms side by side

The three functions that the database can call for a Fourier transform, on the
same real signal `r` of `2 ^ m` samples: the serial `fft_real`, the OpenMP
`cfft2` with `sgn = +1`, and the MPI program. The last two use the root
`exp (2 π i / N)` and agree (`transforms_agree`). The serial one uses its inverse,
so it gives the complex conjugate, which is a different number already for a
single sample at time `1` (`transforms_differ`). The MPI program has room for
`MAX_N` coefficients, and for more no run of it finishes.

Three of the programs reorder an array by the reversed bits of its indices: `fft`
swaps in place, `FFT_remap` splits even from odd entries and recurses, and
`printResult` gathers through the table that `reverse` counts up. They do the same
(`bitReversals_agree`).
-/

namespace SqlCode

open Exec Dft Process

/-! ### The bit reversals -/

/-- The array whose entry `i` is the entry of `x` at the reversal of the `m` bits of `i`. -/
def bitReversed {α : Type} (m : ℕ) (x : Vector α (2 ^ m)) : Vector α (2 ^ m) :=
  Vector.ofFn fun i => x.get ⟨bitRev m i, bitRev_lt m i⟩

theorem cell_bitReversed {α : Type} [Zero α] {m t : ℕ} (x : Vector α (2 ^ m)) (ht : t < 2 ^ m) :
    cell (bitReversed m x) t = cell x (bitRev m t) := by
  rw [bitReversed, cell_ofFn _ ht, cell_eq (bitRev_lt m t)]
  rfl

theorem eq_bitReversed {α : Type} [Zero α] {m : ℕ} {x y : Vector α (2 ^ m)}
    (h : ∀ t, t < 2 ^ m → cell y t = cell x (bitRev m t)) : y = bitReversed m x :=
  ext_cell fun t ht => (h t ht).trans (cell_bitReversed x ht).symm

/-- **The three bit reversals agree**, for every power of two and every array of that length. -/
theorem bitReversals_agree {R : Type} [Field R] (m : ℕ) :
    (∀ x : Vector (Cplx R) (2 ^ m), Returns (FftSerial.bitReversal x (2 ^ m)) (bitReversed m x)) ∧
    (∀ (junk : ℕ → R) (x : Vector R (2 ^ m)),
      Returns (RgTest.fftRemap junk x 0 (2 ^ m)) (bitReversed m x)) ∧
    ∀ (junk : ℕ → Cplx ℝ) (junkInt : ℕ → ℕ) (x : Vector (Cplx ℝ) (2 ^ m)),
      Returns (FftMpi1.reverse exactPowLibm junkInt (2 ^ m) m)
        (bitReversed m (Vector.ofFn fun i => (i : ℕ))) ∧
      Returns (FftMpi1.printResult exactPowLibm junk junkInt m x) (bitReversed m x).toList := by
  refine ⟨fun x => ?serial, fun junk x => ?remap, fun junk junkInt x => ⟨?table, ?gather⟩⟩
  case serial =>
    obtain ⟨y, hy, hcell, -⟩ := FftSerial.bitReversal_spec x le_rfl
    rwa [← eq_bitReversed hcell]
  case remap =>
    obtain ⟨y, hy, hcell, -⟩ := @RgTest.fftRemap_spec R _ _ junk m x 0 (by omega)
    simp only [Nat.zero_add] at hcell
    rwa [← eq_bitReversed hcell]
  case table =>
    obtain ⟨b, hb, hcell⟩ := FftMpi1.reverse_ends junkInt m
    -- the table is the bit reversal of the identity
    have hrev : ∀ t, t < 2 ^ m → cell b t
        = cell (Vector.ofFn fun i : Fin (2 ^ m) => (i : ℕ)) (bitRev m t) := by
      intro t ht
      rw [hcell t ht, cell_ofFn _ (bitRev_lt m t)]
    rwa [← eq_bitReversed hrev]
  case gather =>
    obtain ⟨out, hout, rfl⟩ := FftMpi1.printResult_ends junk junkInt x
    have hlist : (bitReversed m x).toList
        = (List.range (2 ^ m)).map fun k => cell x (bitRev m k) := by
      rw [FftMpi1.toList_eq_map]
      exact List.map_congr_left fun k hk => cell_bitReversed x (List.mem_range.mp hk)
    rwa [hlist]

/-! ### The transforms -/

/-- The samples as the complex array of the serial transform. -/
def complexSignal (r : ℕ → ℝ) (N : ℕ) : Vector (Cplx ℝ) N :=
  Vector.ofFn fun t => ⟨r t, 0⟩

/-- The samples as the array of doubles of the OpenMP transform. -/
def interleavedSignal (r : ℕ → ℝ) (N : ℕ) : Vector ℝ (N * 2) :=
  Vector.ofFn fun i => if (i : ℕ) % 2 = 0 then r (i / 2) else 0

/-- The samples are the coefficients of the MPI job. -/
structure IsSignal (J : FftMpi.Job ℝ) (r : ℕ → ℝ) (N : ℕ) : Prop where
  /-- As many coefficients as samples. -/
  num : J.variableNum = N
  /-- The coefficients are the samples. -/
  coeff : ∀ t, t < N → J.p t = Cplx.ofReal (r t)

theorem cell_complexSignal (r : ℕ → ℝ) {N t : ℕ} (ht : t < N) :
    cell (complexSignal r N) t = Cplx.ofReal (r t) := by
  rw [complexSignal, cell_ofFn _ ht]
  rfl

theorem pairAt_interleavedSignal (r : ℕ → ℝ) {N t : ℕ} (ht : t < N) :
    FftOpenMp.pairAt (interleavedSignal r N) t = Cplx.ofReal (r t) := by
  unfold FftOpenMp.pairAt interleavedSignal
  rw [cell_ofFn _ (by omega), cell_ofFn _ (by omega)]
  ext
  · change (if t * 2 % 2 = 0 then r (t * 2 / 2) else 0) = r t
    rw [if_pos (by omega), Nat.mul_div_cancel t (by omega)]
  · change (if (t * 2 + 1) % 2 = 0 then r ((t * 2 + 1) / 2) else 0) = 0
    rw [if_neg (by omega)]

/-- The transform that the OpenMP and the MPI program compute. -/
noncomputable def forward (r : ℕ → ℝ) (N k : ℕ) : Cplx ℝ :=
  dft (cis ((2 : ℕ) * Real.pi / N)) N (fun t => Cplx.ofReal (r t)) k

/-- The serial transform is its complex conjugate. -/
theorem serial_ends {m : ℕ} (hm : 2 ≤ m) (hm' : m ≤ 31) (r : ℕ → ℝ) :
    Ends (FftSerial.fftReal FftSerial.exactTables (complexSignal r (2 ^ m)) (2 ^ m)) fun y =>
      ∀ k, k < 2 ^ m → cell y k = Cplx.conj (forward r (2 ^ m) k) := by
  refine (FftSerial.fftReal_spec FftSerial.exactTables_holds circleTower_unitary hm hm' _
    le_rfl).mono fun y hy k hk => ?_
  have hroot : circleTower.root m = cis (-(2 * Real.pi / (2 ^ m : ℕ))) := by
    rw [circleTower_root]
    push_cast
    rfl
  rw [hy.1 k hk, forward, map_dft, conj_cis, hroot]
  refine dft_congr (fun t ht => ?_) k
  rw [cell_complexSignal r ht, Cplx.ofReal_real, Cplx.conj_ofReal]

/-- The OpenMP transform. -/
theorem openMp_ends {m : ℕ} (hm : 1 ≤ m) (hm' : m ≤ 30) (r : ℕ → ℝ) (y : Vector ℝ (2 ^ m * 2))
    (w : Vector ℝ (2 ^ m)) :
    Ends (FftOpenMp.transform exactLibm (2 ^ m) (interleavedSignal r (2 ^ m)) y w 1) fun p =>
      ∀ k, k < 2 ^ m → FftOpenMp.pairAt p.2 k = forward r (2 ^ m) k := by
  refine (FftOpenMp.transform_spec hm hm' (.inl rfl) _ y w).mono fun p hp k hk => ?_
  rw [hp k hk, one_mul, forward]
  exact dft_congr (fun t ht => pairAt_interleavedSignal r ht) k

/-- What the MPI program prints. -/
theorem mpi_final {N : ℕ} {r : ℕ → ℝ} {J : FftMpi.Job ℝ} (hJ : J.Fits) (hr : IsSignal J r N)
    {mem : ℕ → FftMpi.Rank ℝ} {c : Config (FftMpi.Rank ℝ) FftMpi.Tag (FftMpi.Message ℝ)}
    (h : Reachable (FftMpi.fftMain exactLibm J) J.size (FftMpi.start mem) c)
    (hfin : ∀ q, q < J.size → (c.loc q).pc = .finished) :
    (c.loc 0).printed.map FftMpi.Line.value = (List.range N).map (forward r N) := by
  obtain ⟨-, hlines, -⟩ := FftMpi.fftMain_final hJ h hfin
  rw [hlines, hr.num]
  refine List.map_congr_left fun k _ => ?_
  rw [FftMpi.result_even, hr.num, forward]
  exact dft_congr hr.coeff k

/-- **The three transforms agree up to conjugation.** For every `N = 2^m`, `2 ≤ m ≤ 30`, and
every real signal of `N` samples: `fft_real` and `cfft2` with `sgn = +1` give complex
conjugates, and every run of the MPI program on the signal that finishes, on any number of
ranks from `1` to `2 * N`, prints the values of `cfft2`, if there is room for `N`
coefficients. -/
theorem transforms_agree {m : ℕ} (hm : 2 ≤ m) (hm' : m ≤ 30) (r : ℕ → ℝ)
    (y₀ : Vector ℝ (2 ^ m * 2)) (w₀ : Vector ℝ (2 ^ m)) :
    ∃ y x' y',
      Returns (FftSerial.fftReal FftSerial.exactTables (complexSignal r (2 ^ m)) (2 ^ m)) y ∧
      Returns (FftOpenMp.transform exactLibm (2 ^ m) (interleavedSignal r (2 ^ m)) y₀ w₀ 1)
        (x', y') ∧
      (∀ k, k < 2 ^ m → cell y k = Cplx.conj (FftOpenMp.pairAt y' k)) ∧
      (2 ^ m ≤ FftMpi.maxN → ∀ (J : FftMpi.Job ℝ), IsSignal J r (2 ^ m) → 1 ≤ J.size →
        J.size ≤ 2 * 2 ^ m → ∀ mem c,
        Reachable (FftMpi.fftMain exactLibm J) J.size (FftMpi.start mem) c →
        (∀ q, q < J.size → (c.loc q).pc = .finished) →
        (c.loc 0).printed.map FftMpi.Line.value
          = (List.range (2 ^ m)).map (FftOpenMp.pairAt y')) := by
  obtain ⟨y, hy, hserial⟩ := serial_ends hm (by omega) r
  obtain ⟨⟨x', y'⟩, hy', hopen⟩ := openMp_ends (by omega) hm' r y₀ w₀
  refine ⟨y, x', y', hy, hy', fun k hk => ?_, fun hmax J hr hpos hsize mem c h hfin => ?_⟩
  · rw [hserial k hk, ← hopen k hk]
  · -- the ranks and the coefficients fit, so the run can be followed
    have hN := Nat.two_pow_pos m
    have hJ : J.Fits := by
      refine ⟨?_, ?_, hpos, ?_⟩ <;> rw [hr.num] <;> omega
    rw [mpi_final hJ hr h hfin]
    exact List.map_congr_left fun k hk => (hopen k (List.mem_range.mp hk)).symm

/-- A single sample at time `1`. -/
def unitAtOne (t : ℕ) : ℝ := if t = 1 then 1 else 0

/-- Its transforms of length four. -/
theorem transforms_agree_four :
    let r := unitAtOne
    ∃ y x' y',
      Returns (FftSerial.fftReal FftSerial.exactTables (complexSignal r (2 ^ 2)) (2 ^ 2)) y ∧
      Returns (FftOpenMp.transform exactLibm (2 ^ 2) (interleavedSignal r (2 ^ 2))
        (Vector.replicate (2 ^ 2 * 2) 0) (Vector.replicate (2 ^ 2) 0) 1) (x', y') ∧
      (∀ k, k < 2 ^ 2 → cell y k = Cplx.conj (FftOpenMp.pairAt y' k)) ∧
      (2 ^ 2 ≤ FftMpi.maxN → ∀ (J : FftMpi.Job ℝ), IsSignal J r (2 ^ 2) → 1 ≤ J.size →
        J.size ≤ 2 * 2 ^ 2 → ∀ mem c,
        Reachable (FftMpi.fftMain exactLibm J) J.size (FftMpi.start mem) c →
        (∀ q, q < J.size → (c.loc q).pc = .finished) →
        (c.loc 0).printed.map FftMpi.Line.value
          = (List.range (2 ^ 2)).map (FftOpenMp.pairAt y')) :=
  transforms_agree (by decide) (by decide) unitAtOne _ _

theorem forward_unitAtOne : (forward unitAtOne (2 ^ 2) 1).imag = 1 := by
  have hsum : forward unitAtOne (2 ^ 2) 1 = cis (2 * Real.pi / (2 ^ 2 : ℕ)) := by
    simp [forward, dft, unitAtOne]
  have hangle : 2 * Real.pi / ((2 ^ 2 : ℕ) : ℝ) = Real.pi / 2 := by
    push_cast
    ring
  rw [hsum, hangle]
  exact Real.sin_pi_div_two

/-- **The serial transform is not the others.** For the single sample at time `1` of four,
`fft_real` gives `-i` at frequency `1` and `cfft2` gives `i`. And the MPI program does not
finish on `2 ^ 13` coefficients. -/
theorem transforms_differ :
    (∃ y x' y', Returns (FftSerial.fftReal FftSerial.exactTables
        (complexSignal unitAtOne (2 ^ 2)) (2 ^ 2)) y ∧
      Returns (FftOpenMp.transform exactLibm (2 ^ 2) (interleavedSignal unitAtOne (2 ^ 2))
        (Vector.replicate (2 ^ 2 * 2) 0) (Vector.replicate (2 ^ 2) 0) 1) (x', y') ∧
      cell y 1 ≠ FftOpenMp.pairAt y' 1) ∧
    ∀ J : FftMpi.Job ℝ, J.variableNum = 2 ^ 13 → ∀ mem c,
      Reachable (FftMpi.fftMain exactLibm J) J.size (FftMpi.start mem) c →
      (c.loc 0).pc ≠ .finished := by
  refine ⟨?_, fun J hJ mem c h hfin => ?_⟩
  · obtain ⟨y, hy, hserial⟩ := serial_ends le_rfl (by omega) unitAtOne
    obtain ⟨⟨x', y'⟩, hy', hopen⟩ := openMp_ends one_le_two (by omega) unitAtOne
      (Vector.replicate (2 ^ 2 * 2) 0) (Vector.replicate (2 ^ 2) 0)
    refine ⟨y, x', y', hy, hy', fun heq => ?_⟩
    -- the imaginary parts would be `-1` and `1`
    have himag := congrArg Cplx.imag ((hserial 1 (by omega)).symm.trans
      (heq.trans (hopen 1 (by omega))))
    rw [Cplx.conj_imag, forward_unitAtOne] at himag
    linarith
  · have hmax : FftMpi.maxN < J.variableNum := by
      rw [hJ]
      decide
    rw [FftMpi.fftMain_stays hmax h] at hfin
    cases hfin

end SqlCode
