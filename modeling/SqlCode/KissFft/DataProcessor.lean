import SqlCode.KissFft.Transform

/-!
# The peak frequency

`data_processor.c`: one transform of the samples, the magnitudes of its values in the
place of the values, and the search for the largest of them in the bins from 500 Hz to half the
sampling rate.

The search moves on to a bin only if that exceeds the best so far by more than a
threshold. So the bin that it returns need not have the largest magnitude, but none
exceeds it by more than the threshold (`Peak`), and every earlier one is smaller.

The bin of 500 Hz is a quotient of floating-point numbers that is converted to `int`. A
sampling rate of zero, or one so low that the quotient is no `int`, leaves it undefined, and a
negative one may lead in front of the buffer (`startPos`, `getPeakPos`).
-/

namespace SqlCode.KissFft

open Exec Dft SharedMemory SharedMemory.Thread Cplx

/-! ### The program -/

section Program

variable {R : Type} [Field R] [LinearOrder R]

/-- `struct data_processor`. -/
structure DataProcessor (R : Type) where
  sampleHz : R
  nfft : ℕ
  cin : Ptr
  cout : Ptr
  kissFftState : KissFftState R

omit [LinearOrder R] in
/-- `data_processor_init`, for what its allocations return. -/
def dataProcessorInit (M : Libm R) (junk : ℕ → Cplx R) (st : ℕ) (cin cout : Ptr) (nfft : ℕ)
    (hz : ℤ) : Prog (DataProcessor R) := do
  let kissFftState ← kissFftInit M junk st nfft false
  pure ⟨hz, nfft, cin, cout, kissFftState⟩

/-- `convert_to_freq`. -/
def convertToFreq (cout : Ptr) (n : ℕ) : Thread Loc (Cplx R) Unit :=
  let NC : R := n / (2 : ℕ) + 1
  forRange 0 n () fun i _ => do
    let c ← get (cout.nth i)
    put (cout.nth i) ⟨c.real / NC, c.imag / NC⟩

/-- `complex_abs`. -/
def complexAbs (M : SqrtLibm R) (cout : Ptr) (n : ℕ) : Thread Loc (Cplx R) Unit :=
  forRange 0 n () fun i _ => do
    let c ← get (cout.nth i)
    put (cout.nth i) ⟨M.sqrt (c.real * c.real + c.imag * c.imag), 0⟩

/-- The threshold of `get_peak_pos`. -/
def threshold : R := 1 / 10000

/-- The body of the loop of `get_peak_pos`, with `pos` and `maxdata` as its state. -/
def peakAt (cout : Ptr) (i : ℕ) (s : ℕ × R) : Thread Loc (Cplx R) (ℕ × R) := do
  let c ← get (cout.nth i)
  pure (if threshold < c.real - s.2 then (i, c.real) else s)

/-- `get_peak_pos`. -/
def getPeakPos (cout : Ptr) (nfft : ℕ) (startPos : ℤ) : Except Fault (Thread Loc (Cplx R) ℕ) :=
  -- the first index would be in front of `cout`
  if startPos < 0 then .error .outOfBounds
  else .ok do
    let s ← forRange startPos.toNat (nfft / 2) (0, 0) (peakAt cout)
    pure s.1

/-- The conversion of a number to `int`, which drops the fraction. -/
def truncInt (M : Libm R) (r : R) : Except Fault ℤ :=
  if ((2 ^ 31 : ℕ) : R) ≤ r ∨ r ≤ -((2 ^ 31 + 1 : ℕ) : R) then .error .overflow
  else .ok (if 0 ≤ r then M.toInt r else -M.toInt (-r))

/-- `start_pos`. -/
def startPos (M : Libm R) (nfft : ℕ) (startHz sampleHz : R) : Except Fault ℤ :=
  -- the quotient is infinite or not a number
  if sampleHz = 0 then .error .overflow
  else truncInt M (startHz * nfft / sampleHz)

/-- `get_peak_frequence`. -/
def getPeakFrequence (M : Libm R) (cout : Ptr) (nfft : ℕ) (startHz sampleHz : R) :
    Except Fault (Thread Loc (Cplx R) R) := do
  let startPos ← startPos M nfft startHz sampleHz
  let peakPos ← getPeakPos cout nfft startPos
  .ok do
    let pos ← peakPos
    pure (pos * sampleHz / nfft)

/-- `data_processor_run`. Whether its search has a first bin does not depend on the samples. -/
def dataProcessorRun (M : SqrtLibm R) (dfft : DataProcessor R) (tmp : ℕ) :
    Except Fault (Thread Loc (Cplx R) R) := do
  let peakFrequence ← getPeakFrequence M.toLibm dfft.cout dfft.nfft 500 dfft.sampleHz
  .ok do
    kissFft dfft.kissFftState tmp dfft.cin dfft.cout
    convertToFreq dfft.cout dfft.nfft
    complexAbs M dfft.cout dfft.nfft
    peakFrequence

end Program

/-! ### The search -/

/-- What the search of the bins from `lo` to `hi` returns, with the value there. -/
inductive Peak (x : ℕ → ℝ) (lo hi : ℕ) : ℕ → ℝ → Prop
  /-- No bin is above the threshold. -/
  | none (h : ∀ i, lo ≤ i → i < hi → x i ≤ threshold) : Peak x lo hi 0 0
  /-- A bin that exceeds all before it, and that none exceeds by more than the threshold. -/
  | bin {pos : ℕ} (hlo : lo ≤ pos) (hhi : pos < hi) (habove : threshold < x pos)
      (hbefore : ∀ i, lo ≤ i → i < pos → x i < x pos)
      (hall : ∀ i, lo ≤ i → i < hi → x i ≤ x pos + threshold) : Peak x lo hi pos (x pos)

section Search

variable {x : ℕ → ℝ} {lo hi i pos : ℕ} {max : ℝ} {cout : Ptr} {mem : Memory Loc (Cplx ℝ)}

theorem threshold_pos : (0 : ℝ) < threshold := by
  norm_num [threshold]

theorem Peak.nonneg (h : Peak x lo hi pos max) : 0 ≤ max := by
  cases h with
  | none h => exact le_rfl
  | bin hlo hhi habove hbefore hall => exact (threshold_pos.trans habove).le

theorem Peak.le (h : Peak x lo hi pos max) (hlo : lo ≤ i) (hhi : i < hi) :
    x i ≤ max + threshold := by
  cases h with
  | none h =>
    rw [zero_add]
    exact h i hlo hhi
  | bin hlo' hhi' habove hbefore hall => exact hall i hlo hhi

/-- A bin that exceeds the best so far by more than the threshold is the new one. -/
theorem Peak.move (h : Peak x lo i pos max) (hlo : lo ≤ i) (hx : threshold < x i - max) :
    Peak x lo (i + 1) i (x i) := by
  have hpos := threshold_pos
  have hmax := h.nonneg
  have hbefore : ∀ j, lo ≤ j → j < i → x j < x i := by
    intro j hj hji
    calc x j ≤ max + threshold := h.le hj hji
      _ < x i := by linarith
  refine .bin hlo (Nat.lt_succ_self i) (by linarith) hbefore fun j hj hji => ?_
  rcases Nat.lt_succ_iff_lt_or_eq.mp hji with hlt | rfl
  · linarith [hbefore j hj hlt]
  · linarith

/-- Any other bin is passed over. -/
theorem Peak.stay (h : Peak x lo i pos max) (hx : ¬ threshold < x i - max) :
    Peak x lo (i + 1) pos max := by
  have hle : x i ≤ max + threshold := by linarith [not_lt.mp hx]
  have hall : ∀ j, lo ≤ j → j < i + 1 → x j ≤ max + threshold := by
    intro j hj hji
    rcases Nat.lt_succ_iff_lt_or_eq.mp hji with hlt | rfl
    · exact h.le hj hlt
    · exact hle
  cases h with
  | none h => exact .none fun j hj hji => by simpa using hall j hj hji
  | bin hlo hhi habove hbefore _ => exact .bin hlo (by omega) habove hbefore hall

/-- **`get_peak_pos`** finds the peak, and only reads. -/
theorem getPeakPos_leaves (cout : Ptr) (nfft lo : ℕ) :
    ∃ t, getPeakPos cout nfft lo = .ok t ∧ ∀ mem : Memory Loc (Cplx ℝ),
      t.Leaves mem fun pos mem' => mem' = mem ∧
        ∃ max, Peak (fun i => (mem.val (cout.nth i)).real) lo (nfft / 2) pos max := by
  refine ⟨_, if_neg (by omega), fun mem => ?_⟩
  set x := fun i => (mem.val (cout.nth i)).real
  -- in front of the first bin `pos` and `maxdata` are zero
  have hnone : ∀ hi, hi ≤ lo → Peak x lo hi 0 0 := fun hi hle =>
    .none fun i hlo hhi => absurd hhi (by omega)
  rcases Nat.le_total lo (nfft / 2) with hle | hle
  · refine (leaves_forRange hle (fun i s mem' => mem' = mem ∧ Peak x lo i s.1 s.2)
      ⟨rfl, hnone lo le_rfl⟩ ?_).bind fun s mem' h => leaves_pure ⟨h.1, s.2, h.2⟩
    rintro i s _ hlo hhi ⟨rfl, h⟩
    unfold peakAt
    rw [leaves_get_bind]
    refine leaves_pure ⟨rfl, ?_⟩
    split_ifs with hx
    · exact h.move hlo hx
    · exact h.stay hx
  · -- the loop does not run
    have hempty : nfft / 2 - lo = 0 := Nat.sub_eq_zero_of_le hle
    rw [Int.toNat_natCast, forRange, hempty]
    exact leaves_pure ⟨rfl, 0, hnone _ hle⟩

/-- The search only depends on the bins. -/
theorem Peak.congr {y : ℕ → ℝ} (h : Peak x lo hi pos max) (hxy : ∀ i, i < hi → x i = y i) :
    Peak y lo hi pos max := by
  cases h with
  | none h => exact .none fun i hlo hhi => hxy i hhi ▸ h i hlo hhi
  | bin hlo hhi habove hbefore hall =>
    rw [hxy pos hhi] at habove hbefore hall ⊢
    refine .bin hlo hhi habove (fun i hi hip => ?_) fun i hi hip => ?_
    · rw [← hxy i (hip.trans hhi)]
      exact hbefore i hi hip
    · rw [← hxy i hip]
      exact hall i hi hip

end Search

/-! ### The run -/

section Run

variable {mem : Memory Loc (Cplx ℝ)}

/-- A loop that changes the cells of a buffer one by one. -/
theorem each_leaves (f : Cplx ℝ → Cplx ℝ) (p : Ptr) (n : ℕ) :
    (forRange 0 n () fun i _ => do
      let c ← get (p.nth i)
      put (p.nth i) (f c)).Leaves mem fun _ mem' =>
        ∀ k, k < n → mem'.val (p.nth k) = f (mem.val (p.nth k)) := by
  refine (leaves_forRange (Nat.zero_le n) (fun i _ mem' =>
    ∀ k, mem'.val (p.nth k) = if k < i then f (mem.val (p.nth k)) else mem.val (p.nth k))
    (fun k => rfl) ?_).mono fun _ mem' h k hk => ?_
  · intro i _ mem' _ _ h k
    simp only [run_bind, run_get, run_put, Memory.val_write, nth_inj]
    -- cells before the loop's index have been changed, and those behind it have not
    rcases lt_trichotomy k i with hlt | rfl | hgt
    · rw [if_neg hlt.ne, h k, if_pos hlt, if_pos (by omega)]
    · rw [if_pos rfl, h k, if_neg (by omega), if_pos (by omega)]
    · rw [if_neg hgt.ne', h k, if_neg (by omega), if_neg (by omega)]
  · rw [h k, if_pos hk]

/-- The absolute value. -/
noncomputable def magnitude (z : Cplx ℝ) : ℝ := √(z.real * z.real + z.imag * z.imag)

theorem magnitude_div (z : Cplx ℝ) {c : ℝ} (hc : 0 < c) :
    magnitude ⟨z.real / c, z.imag / c⟩ = magnitude z / c := by
  unfold magnitude
  have hsq : z.real / c * (z.real / c) + z.imag / c * (z.imag / c)
      = (z.real * z.real + z.imag * z.imag) / c ^ 2 := by
    field_simp
  rw [hsq, Real.sqrt_div' _ (sq_nonneg c), Real.sqrt_sq hc.le]

/-- The spectrum that the peak is looked for in. -/
noncomputable def amplitude (n : ℕ) (x : ℕ → Cplx ℝ) (k : ℕ) : ℝ :=
  magnitude (dft (kissRoot n false) n x k) / (n / (2 : ℕ) + 1)

/-- What `data_processor_init` makes. -/
structure DataProcessor.Initialised (addr n : ℕ) (hz : ℤ) (cin cout : Ptr) (d : DataProcessor ℝ) :
    Prop where
  configured : Configured addr n false d.kissFftState
  sampleHz_eq : d.sampleHz = hz
  nfft_eq : d.nfft = n
  cin_eq : d.cin = cin
  cout_eq : d.cout = cout

theorem dataProcessorInit_spec (junk : ℕ → Cplx ℝ) (addr : ℕ) (cin cout : Ptr) {n : ℕ}
    (hn : 0 < n) (h31 : n < 2 ^ 31) (hz : ℤ) :
    Ends (dataProcessorInit exactLibm junk addr cin cout n hz)
      (DataProcessor.Initialised addr n hz cin cout) :=
  (kissFftInit_spec junk addr hn h31 false).bind fun _ h => ends_pure ⟨h, rfl, rfl, rfl, rfl⟩

/-- A sampling rate for which the bin of 500 Hz among `n` is an `int`. -/
structure Sampled (n : ℕ) (hz : ℤ) : Prop where
  pos : 0 < hz
  range : 500 * n < 2 ^ 31 * hz

/-- The bin of 500 Hz. -/
noncomputable def firstBin (n : ℕ) (hz : ℤ) : ℕ := ⌊500 * (n : ℝ) / hz⌋₊

theorem Sampled.startPos_eq {n : ℕ} {hz : ℤ} (h : Sampled n hz) :
    startPos exactLibm n 500 (hz : ℝ) = pure (firstBin n hz : ℤ) := by
  have hpos : (0 : ℝ) < hz := Int.cast_pos.mpr h.pos
  have hlt : 500 * (n : ℝ) / hz < ((2 ^ 31 : ℕ) : ℝ) := by
    rw [div_lt_iff₀ hpos]
    exact_mod_cast h.range
  have h0 : 0 ≤ 500 * (n : ℝ) / hz := by positivity
  have hlow : ¬ 500 * (n : ℝ) / hz ≤ -((2 ^ 31 + 1 : ℕ) : ℝ) :=
    not_le.mpr ((neg_neg_of_pos (by norm_num)).trans_le h0)
  unfold startPos truncInt
  rw [if_neg hpos.ne', if_neg (not_or.mpr ⟨hlt.not_ge, hlow⟩), if_pos h0]
  rfl

theorem sampled_of_firstBin_le {n b : ℕ} {hz : ℤ} (hhz : 0 < hz) (hle : firstBin n hz ≤ b)
    (hb : b < 2 ^ 31) : Sampled n hz := by
  have hpos : (0 : ℝ) < hz := Int.cast_pos.mpr hhz
  have hbin : ⌊500 * (n : ℝ) / hz⌋₊ < 2 ^ 31 := hle.trans_lt hb
  rw [Nat.floor_lt (by positivity), div_lt_iff₀ hpos] at hbin
  exact ⟨hhz, by exact_mod_cast hbin⟩

/-- `data_processor_run`, from the samples in `cin`. -/
theorem dataProcessorRun_leaves {d : DataProcessor ℝ} {addr n : ℕ} {hz : ℤ} {cin cout : Ptr}
    (h : d.Initialised addr n hz cin cout) (hn : 0 < n) (h30 : n ≤ 2 ^ 30) (hrate : Sampled n hz)
    (hbuf : cin.buf ≠ cout.buf) (hmem : Holds d.kissFftState mem) (tmp : ℕ) :
    ∃ t, dataProcessorRun exactSqrtLibm d tmp = .ok t ∧ t.Leaves mem fun f _ => ∃ pos max,
      Peak (amplitude n fun t => mem.val (cin.nth t)) (firstBin n hz) (n / 2) pos max ∧
        f = pos * hz / n := by
  obtain ⟨hcfg, hhz, hnfft, rfl, rfl⟩ := h
  set x := fun t => mem.val (d.cin.nth t)
  have hNC : (0 : ℝ) < (n : ℝ) / 2 + 1 := by positivity
  obtain ⟨search, hsearch, hpeaks⟩ := getPeakPos_leaves d.cout n (firstBin n hz)
  have hfreq : getPeakFrequence exactLibm d.cout n 500 (hz : ℝ) =
      .ok (search >>= fun pos => pure (pos * hz / n)) := by
    unfold getPeakFrequence
    rw [hrate.startPos_eq, pure_bind, hsearch]
    rfl
  unfold dataProcessorRun
  rw [hnfft, hhz]
  change ∃ t, (getPeakFrequence exactLibm d.cout n 500 (hz : ℝ) >>= _) = .ok t ∧ _
  rw [hfreq]
  refine ⟨_, rfl, ?_⟩
  -- the transform, then its scaled magnitudes
  have hdft : (kissFft d.kissFftState tmp d.cin d.cout).Leaves mem fun _ mem' =>
      ∀ k, k < n → mem'.val (d.cout.nth k) = dft (kissRoot n false) n x k := by
    refine (kissFftStride_leaves hcfg hn h30 (apart_of_buf_ne hbuf) hmem).mono
      fun _ mem' h k hk => ?_
    rw [h k hk]
    simp only [mul_one, x]
  refine hdft.bind fun _ mem₁ h₁ => ?_
  refine (each_leaves (fun c => ⟨c.real / (n / 2 + 1), c.imag / (n / 2 + 1)⟩) d.cout n).bind
    fun _ mem₂ h₂ => ?_
  refine (each_leaves (fun c => ⟨√(c.real * c.real + c.imag * c.imag), 0⟩) d.cout n).bind
    fun _ mem₃ h₃ => ?_
  have hval : ∀ k, k < n / 2 → (mem₃.val (d.cout.nth k)).real = amplitude n x k := by
    intro k hk
    have hkn : k < n := by omega
    rw [h₃ k hkn, h₂ k hkn, h₁ k hkn]
    exact magnitude_div _ hNC
  refine (hpeaks mem₃).bind fun pos mem₄ ⟨_, max, hpeak⟩ => leaves_pure ?_
  exact ⟨pos, max, hpeak.congr hval, rfl⟩

end Run

/-! ### Tones -/

section Tone

open Real in
/-- The samples of a tone of `b` periods. -/
noncomputable def tone (A : ℝ) (n b : ℕ) (t : ℕ) : Cplx ℝ :=
  ofReal (A * cos ((2 : ℕ) * π * b * t / n))

variable {A : ℝ} {n b : ℕ}

/-- A tone is the mean of two harmonics. -/
theorem tone_eq (hn : 0 < n) (hb : b < n) (t : ℕ) :
    tone A n b t = ofReal (A / 2) *
      (kissRoot n false ^ (t * b) + kissRoot n false ^ (t * (n - b))) := by
  have hn0 : (n : ℝ) ≠ 0 := Nat.cast_ne_zero.mpr hn.ne'
  have hconj : kissRoot n false ^ (t * (n - b)) = conj (kissRoot n false ^ (t * b)) := by
    set u := kissRoot n false ^ (t * b) with hu
    have hunit : u * conj u = 1 := by
      rw [hu, map_pow, ← mul_pow, kissRoot_unit, one_pow]
    -- multiplied with `u` it is a power of a power of order `n`
    calc kissRoot n false ^ (t * (n - b))
        = u * kissRoot n false ^ (t * (n - b)) * conj u := by
          rw [mul_right_comm, hunit, one_mul]
      _ = (kissRoot n false ^ n) ^ t * conj u := by
          rw [hu, ← pow_add, ← mul_add, Nat.add_sub_cancel' hb.le, ← pow_mul, mul_comm n t]
      _ = conj u := by rw [(kissRoot_roots hn false).root.pow_eq_one, one_pow, one_mul]
  have hangle : ((t * b : ℕ) : ℝ) * -(2 * Real.pi / n) = -(2 * Real.pi * b * t / n) := by
    push_cast
    ring
  rw [hconj, kissRoot_eq, if_neg Bool.false_ne_true, cis_pow, conj_cis, hangle, neg_neg]
  ext
  · simp [tone, cis]
    ring
  · simp [tone, cis]

/-- In the first half of its spectrum a tone has one value. -/
theorem amplitude_tone (hb : 0 < b) (hbn : b < n / 2) {k : ℕ} (hk : k < n / 2) :
    amplitude n (tone A n b) k = if k = b then |A| / 2 * n / (n / 2 + 1) else 0 := by
  have hn : 0 < n := by omega
  have hroot := (kissRoot_roots hn false).root
  -- the harmonic `-b` is in the other half of the spectrum, and `b` is met at one bin
  have hlow : ¬ n ∣ b + k := fun h => absurd (Nat.le_of_dvd (by omega) h) (by omega)
  have hhigh : n ∣ n - b + k ↔ k = b := by
    constructor
    · rintro ⟨q, hq⟩
      obtain rfl : q = 1 := by
        rcases q with _ | _ | q
        · omega
        · rfl
        · have hmul : n * (q + 1 + 1) = n * q + 2 * n := by ring
          omega
      omega
    · rintro rfl
      exact ⟨1, by omega⟩
  have hdft : dft (kissRoot n false) n (tone A n b) k =
      ofReal (A / 2) * if k = b then (n : Cplx ℝ) else 0 := by
    rw [dft_congr fun t _ => tone_eq hn (by omega) t, dft_mul_left, dft_add,
      hroot.dft_harmonic, hroot.dft_harmonic, if_neg hlow, zero_add]
    simp only [hhigh]
  rw [amplitude, hdft]
  split_ifs with heq
  · have hsq : magnitude (ofReal (A / 2) * (n : Cplx ℝ)) = |A| / 2 * n := by
      simp [magnitude, Real.sqrt_mul_self_eq_abs, abs_mul, abs_div]
    rw [hsq, Nat.cast_ofNat]
  · simp [magnitude]

end Tone

/-- **`data_processor_run`.** For all samples, the frequency that it returns is that of the peak
of the spectrum, from the bin of 500 Hz to half the sampling rate. -/
theorem dataProcessorRun_spec (junk : ℕ → Cplx ℝ) (addr : ℕ) {cin cout : Ptr}
    (hbuf : cin.buf ≠ cout.buf) {n : ℕ} (hn : 0 < n) (h30 : n ≤ 2 ^ 30) {hz : ℤ}
    (hrate : Sampled n hz) :
    Ends (dataProcessorInit exactLibm junk addr cin cout n hz) fun d =>
      ∀ (tmp : ℕ) (mem : Memory Loc (Cplx ℝ)), Holds d.kissFftState mem →
        ∃ t, dataProcessorRun exactSqrtLibm d tmp = .ok t ∧ t.Leaves mem fun f _ => ∃ pos max,
          Peak (amplitude n fun t => mem.val (cin.nth t)) (firstBin n hz) (n / 2) pos max ∧
            f = pos * hz / n :=
  (dataProcessorInit_spec junk addr cin cout hn (by omega) hz).mono fun _ h tmp _ hmem =>
    dataProcessorRun_leaves h hn h30 hrate hbuf hmem tmp

/-- A run on silence. -/
theorem dataProcessorRun_silence :
    Ends (dataProcessorInit exactLibm (fun _ => 0) 0 ⟨1, 0⟩ ⟨2, 0⟩ 1024 8000) fun d =>
      ∃ t, dataProcessorRun exactSqrtLibm d 3 = .ok t ∧
        t.Leaves (loaded d.kissFftState fun _ _ => 0) fun f _ => ∃ pos max,
          Peak (amplitude 1024 fun _ => 0) (firstBin 1024 8000) 512 pos max ∧
            f = pos * (8000 : ℤ) / (1024 : ℕ) :=
  (dataProcessorRun_spec (fun _ => 0) 0 (by decide) (by decide) (by decide)
    ⟨by decide, by decide⟩).mono fun d h => h 3 _ (holds_loaded d.kissFftState _)

/-- **A tone is found**, when it has a whole number of periods in the samples, lies in the
searched half of the spectrum and is above the threshold. -/
theorem dataProcessorRun_tone (junk : ℕ → Cplx ℝ) (addr : ℕ) {cin cout : Ptr}
    (hbuf : cin.buf ≠ cout.buf) {n b : ℕ} {hz : ℤ} {A : ℝ} (h30 : n ≤ 2 ^ 30) (hb : 0 < b)
    (hbn : b < n / 2) (hhz : 0 < hz) (hlo : firstBin n hz ≤ b)
    (hA : threshold < |A| / 2 * n / (n / 2 + 1)) :
    Ends (dataProcessorInit exactLibm junk addr cin cout n hz) fun d =>
      ∀ (tmp : ℕ) (mem : Memory Loc (Cplx ℝ)), Holds d.kissFftState mem →
        (∀ t, t < n → mem.val (cin.nth t) = tone A n b t) →
        ∃ t, dataProcessorRun exactSqrtLibm d tmp = .ok t ∧
          t.Leaves mem fun f _ => f = b * hz / n := by
  have hrate := sampled_of_firstBin_le hhz hlo (by omega)
  refine (dataProcessorInit_spec junk addr cin cout (by omega) (by omega) hz).mono ?_
  intro d h tmp mem hmem hx
  obtain ⟨t, ht, hleaves⟩ :=
    dataProcessorRun_leaves h (by omega) h30 hrate hbuf hmem tmp
  refine ⟨t, ht, hleaves.mono ?_⟩
  rintro f _ ⟨pos, max, hpeak, rfl⟩
  have hbin : ∀ k, k < n / 2 → amplitude n (fun t => mem.val (cin.nth t)) k =
      if k = b then |A| / 2 * n / (n / 2 + 1) else 0 := by
    intro k hk
    rw [← amplitude_tone hb hbn hk, amplitude, amplitude, dft_congr hx]
  -- the search cannot miss the bin, and no other one is above the threshold
  cases hpeak with
  | none hnone =>
    have hle := hnone b hlo hbn
    rw [hbin b hbn, if_pos rfl] at hle
    exact absurd hA (not_lt.mpr hle)
  | bin _ hpos habove _ _ =>
    rw [hbin pos hpos] at habove
    split_ifs at habove with heq
    · rw [heq]
    · exact absurd habove (not_lt.mpr threshold_pos.le)

/-- A tone of 1000 Hz, sampled 8000 times a second. -/
theorem dataProcessorRun_kilohertz :
    Ends (dataProcessorInit exactLibm (fun _ => 0) 0 ⟨1, 0⟩ ⟨2, 0⟩ 1024 8000) fun d =>
      ∃ t, dataProcessorRun exactSqrtLibm d 3 = .ok t ∧
        t.Leaves (loaded d.kissFftState fun _ t => tone 1 1024 128 t) fun f _ => f = 1000 := by
  have hlo : firstBin 1024 8000 ≤ 128 := by
    refine Nat.floor_le_of_le ?_
    norm_num
  have hA : threshold < |(1 : ℝ)| / 2 * (1024 : ℕ) / ((1024 : ℕ) / 2 + 1) := by
    norm_num [threshold]
  refine (dataProcessorRun_tone (fun _ => 0) 0 (by decide) (by decide) (by decide)
    (by decide) (by decide) hlo hA).mono fun d h => ?_
  obtain ⟨t, ht, hleaves⟩ := h 3 (loaded d.kissFftState fun _ t => tone 1 1024 128 t)
    (holds_loaded d.kissFftState _) fun t _ => by simp [loaded, Ptr.nth]
  refine ⟨t, ht, hleaves.mono ?_⟩
  rintro f _ rfl
  norm_num

end SqlCode.KissFft
