import SqlCode.FftSerial.Real

/-!
# `fft_main` of the serial FFT

`fft_main` copies the rows of its query into the global array `x` of
`SAMPLE_NODES` elements, transforms as many samples as there were rows and
reports the result. Nothing compares the number of rows with the array or with
the powers of two, and it decides whether the run goes well:

* beyond `128` rows the load loop writes `x[128]` (`loadLoop_stuck`);
* otherwise the half-length `fft` never leaves its swap loop when half the
  number of rows is not a power of two (`fftReal_stuck`);
* in the remaining cases every access is in bounds, the entry `x[N]` that the
  unpacking touches for `2` and `3` rows included (`fftReal_safe`).

The values play no role in this: control flow and indices are the same over
every field, and `sscanf` is any partial function from texts to numbers.
-/

namespace SqlCode.FftSerial

open Exec Dft

variable {R : Type}

/-- `SAMPLE_NODES`. -/
abbrev sampleNodes : ℕ := 128

/-! ### The load loop -/

/-- The columns of a row as `SPI_getvalue` delivers them, `none` for `NULL`. -/
abbrev Row := List (Option (List Char))

/-- The text that `%s` puts in for a value. -/
def valueText : Option (List Char) → List Char
  | some s => s
  | none => "(null)".toList

/-- `snprintf (buf + strlen (buf), sizeof (buf) - strlen (buf), …)` on `char buf[10]`,
one of whose bytes is for the terminator. -/
def bufAppend (buf s : List Char) : List Char :=
  (buf ++ s).take 9

/-- The loop over the columns of a row, from `buf` on. -/
def rowText (buf : List Char) : Row → List Char
  | [] => buf
  | [v] => bufAppend buf (' ' :: valueText v ++ [' '])
  | v :: vs => rowText (bufAppend buf (' ' :: valueText v ++ [' ', '|'])) vs

/-- A message of level `INFO`. -/
inductive Report (R : Type)
  /-- A row that was read. -/
  | row (buf : List Char)
  /-- An entry of the result. -/
  | value (c : Cplx R)

/-- What the load loop carries: `x`, the last number `r` that was read, and the
messages so far. -/
structure LoadState (R : Type) where
  /-- The global array. -/
  x : Vector (Cplx R) sampleNodes
  /-- The local variable `r`, kept by a `sscanf` that reads no number. -/
  r : R
  /-- The messages. -/
  out : List (Report R)

section Model

variable [Field R] (scan : List Char → Option R)

/-- The body of the loop over the rows. `scan` is the number that
`sscanf (buf, "%f", …)` reads, if any. -/
def loadRow (row : Row) (j : ℕ) (s : LoadState R) : Prog (LoadState R) := do
  let buf := rowText [] row
  let r := (scan buf).getD s.r
  let x ← wrReal s.x j r
  let x ← wrImag x j 0
  pure ⟨x, r, s.out ++ [.row buf]⟩

/-- The loop over the rows. -/
def loadLoop (rows : List Row) (s : LoadState R) : Prog (LoadState R) :=
  forRange 0 rows.length s fun j s => loadRow scan (rows.getD j []) j s

/-- The load loop and the call of `fft_real` after it, whose parameter is 32 bits wide. -/
def loadAndTransform (rows : List Row) (s : LoadState R) : Prog (LoadState R) := do
  let s ← loadLoop scan rows s
  let x ← fftReal sourceTables s.x (rows.length % 2 ^ 32)
  pure { s with x }

/-- `fft_main` on the rows of its query, with the messages it sends. -/
def fftMain (rows : List Row) (s : LoadState R) : Prog (LoadState R) := do
  let s ← loadAndTransform scan rows s
  let out ← forRange 0 rows.length s.out fun i out => do
    pure (out ++ [.value (← rd s.x i)])
  pure { s with out }

end Model

variable [Field R] (scan : List Char → Option R) {rows : List Row} {len : ℕ}

theorem loadLoop_safe (h : rows.length ≤ sampleNodes) (s : LoadState R) :
    Ends (loadLoop scan rows s) fun _ => True := by
  refine ends_forRange (Nat.zero_le _) (fun _ _ => True) trivial fun j s _ hj _ => ?_
  rw [loadRow, wrReal_eq _ (by omega), pure_bind, wrImag_eq _ (by omega), pure_bind]
  exact ends_pure trivial

theorem loadLoop_stuck (h : sampleNodes < rows.length) (s : LoadState R) :
    Stuck (loadLoop scan rows s) := by
  refine fails_forRange (k := sampleNodes) (Nat.zero_le _) h (fun _ _ => True) trivial ?_ ?_
  · intro j s _ hj _
    rw [loadRow, wrReal_eq _ hj, pure_bind, wrImag_eq _ hj, pure_bind]
    exact ends_pure trivial
  · -- the first row after the last element
    intro s _
    exact ((fails_rd trivial s.x le_rfl).bind_left _).bind_left _

/-! ### `fft_real` on any number of samples -/

/-- The tables are defined up to index `n`. -/
def Tables.DefinedTo (T : Tables R) (n : ℕ) : Prop :=
  ∀ k, k ≤ n → ∃ c s, Returns (T.cosTb k) c ∧ Returns (T.sinTb k) s

theorem sourceTables_definedTo : (sourceTables : Tables R).DefinedTo 20 := by
  intro k hk
  have h : k < 21 := by omega
  exact ⟨_, _, returns_rd _ h, returns_rd _ h⟩

theorem twiddleStep_safe {T : Tables R} {n h : ℕ} (hT : T.DefinedTo n) (h32 : h < 2 ^ 32)
    (hh : h.log2 ≤ n) : ∃ s, Returns (twiddleStep T h) s := by
  obtain ⟨c, s, hc, hs⟩ := hT _ hh
  exact ⟨_, (floorLog2_32_returns h32).bind (hc.bind (hs.bind (returns_pure _)))⟩

omit [Field R] in
theorem Tables.DefinedTo.mono {T : Tables R} {n n' : ℕ} (hT : T.DefinedTo n) (h : n' ≤ n) :
    T.DefinedTo n' :=
  fun k hk => hT k (hk.trans h)

theorem stage_safe {T : Tables R} {p l : ℕ} (hT : T.DefinedTo l) (hl : l < p) (h30 : l < 30)
    (x : Vector (Cplx R) len) (hN : 2 ^ p ≤ len) :
    Ends (stage T (2 ^ p) (l + 1) x) fun _ => True := by
  have hsize : 2 ^ p = 2 ^ (p - (l + 1)) * (2 * 2 ^ l) := two_pow_blocks hl
  have hlt : 2 ^ l < 2 ^ 32 := Nat.pow_lt_pow_right Nat.one_lt_two (by omega)
  obtain ⟨s, hs⟩ := twiddleStep_safe hT hlt (by rw [Nat.log2_two_pow])
  rw [hsize] at hN ⊢
  exact (stage_ends hs h30 x hN).mono fun _ _ => trivial

/-- `fft` ends on a power of two up to `2^30`, whatever the tables hold. -/
theorem fft_safe {T : Tables R} {p : ℕ} (hT : T.DefinedTo (p - 1)) (hp : p ≤ 30)
    (x : Vector (Cplx R) len) (hN : 2 ^ p ≤ len) : Ends (fft T x (2 ^ p)) fun _ => True := by
  refine (Ends.of_returns (floorLog2_32_two_pow (by omega)) rfl).bind fun M hM => ?_
  subst hM
  refine (bitReversal_spec x hN).bind fun x' _ => ?_
  refine ends_forRange (by omega) (fun _ _ => True) trivial fun l y h1 h2 _ => ?_
  obtain ⟨l, rfl⟩ := Nat.exists_eq_add_of_le' h1
  exact stage_safe (hT.mono (by omega)) (by omega) (by omega) y hN

/-- `fft` returns at once on no samples. -/
theorem fft_zero_safe (T : Tables R) (x : Vector (Cplx R) len) :
    Ends (fft T x 0) fun _ => True := by
  refine (Ends.of_returns (floorLog2_32_returns (by decide : 0 < 2 ^ 32)) rfl).bind fun M hM => ?_
  subst hM
  exact ends_pure trivial

private theorem decomposeAt_safe {M i : ℕ} (x : Vector (Cplx R) len) (h0 : 0 < i) (hi : i < M)
    (hlen : 2 * M ≤ len) : Ends (decomposeAt M i x) fun _ => True := by
  have hil : i < len := by omega
  have hjl : M - i < len := by omega
  have hkl : i + M < len := by omega
  have hll : M - i + M < len := by omega
  rw [decomposeAt]
  simp only [rd_eq _ hil, rd_eq _ hjl, rd_eq _ hkl, wrReal_eq _ hil, wrReal_eq _ hjl,
    wrReal_eq _ hkl, wrReal_eq _ hll, wrImag_eq _ hil, wrImag_eq _ hjl, wrImag_eq _ hkl,
    wrImag_eq _ hll, pure_bind]
  exact ends_pure trivial

/-- The loop of the decomposition stays in the array. -/
theorem decomposeLoop_safe {M d : ℕ} (x : Vector (Cplx R) len) (hM : 2 * M ≤ len)
    (hd : 2 * d ≤ M) : Ends (forRange 1 d x fun i x => decomposeAt M i x) fun _ => True := by
  rcases Nat.eq_zero_or_pos d with rfl | hpos
  · exact ends_pure trivial
  · exact ends_forRange hpos (fun _ _ => True) trivial fun i y h1 hi _ =>
      decomposeAt_safe y h1 (by omega) hM

/-- The decomposition stays in the array as long as entry `N - ND4` is in it. -/
theorem decompose_safe {N M d : ℕ} (x : Vector (Cplx R) len) (hM : 2 * M ≤ len) (hd : 2 * d ≤ M)
    (hN : N - d < len) : Ends (decompose x N M d) fun _ => True := by
  rw [decompose]
  refine (decomposeLoop_safe x hM hd).bind fun y _ => ?_
  -- the special cases after the loop
  have h0 : 0 < len := by omega
  have h1 : d < len := by omega
  have h2 : M < len := by omega
  simp only [rd_eq _ h0, rd_eq _ h1, wrReal_eq _ h2, wrReal_eq _ hN, wrImag_eq _ h0,
    wrImag_eq _ h1, wrImag_eq _ h2, wrImag_eq _ hN, pure_bind]
  exact ends_pure trivial

/-- **`fft_real` is safe** when half the number of samples is `0` or a power of
two and entry `N - N / 4` lies in the array. -/
theorem fftReal_safe {T : Tables R} {N p : ℕ} (hT : T.DefinedTo p) (hp : p ≤ 30)
    (x : Vector (Cplx R) len) (hN : N < 2 ∨ N / 2 = 2 ^ p) (hlen : N ≤ len)
    (hq : N - N / 4 < len) : Ends (fftReal T x N) fun _ => True := by
  have h1 : N >>> 1 = N / 2 := Nat.shiftRight_one N
  have h2 : N >>> 2 = N / 4 := Nat.shiftRight_eq_div_pow N 2
  rw [fftReal, h1, h2]
  refine (separate_ends x (by omega)).bind fun x₁ _ => ?_
  refine Ends.bind (P := fun _ => True) ?_ fun x₂ _ => ?_
  · rcases hN with h | h
    · rw [show N / 2 = 0 by omega]
      exact fft_zero_safe T x₁
    · rw [h]
      exact fft_safe (hT.mono (by omega)) hp x₁ (by omega)
  refine (decompose_safe x₂ (by omega) (by omega) hq).bind fun x₃ _ => ?_
  obtain ⟨hlt, hlog⟩ : N / 2 < 2 ^ 32 ∧ (N / 2).log2 ≤ p := by
    rcases hN with h | h
    · rw [show N / 2 = 0 by omega]
      exact ⟨by decide, Nat.zero_le p⟩
    · rw [h, Nat.log2_two_pow]
      exact ⟨Nat.pow_lt_pow_right Nat.one_lt_two (by omega), le_rfl⟩
  obtain ⟨s, hs⟩ := twiddleStep_safe hT hlt hlog
  exact (lastStage_ends hs x₃ (by omega)).mono fun _ _ => trivial

/-- **Divergence of `fft_real`** when half the number of samples lies strictly
between two powers of two. -/
theorem fftReal_stuck {T : Tables R} {N : ℕ} (x : Vector (Cplx R) len) (hN : 2 ≤ N)
    (h32 : N < 2 ^ 32) (hpow : ¬ ∃ k, N / 2 = 2 ^ k) (hlen : N ≤ len) : Stuck (fftReal T x N) := by
  have hlo : 2 ^ (N / 2).log2 ≤ N / 2 := Nat.log2_self_le (by omega)
  have hne : 2 ^ (N / 2).log2 ≠ N / 2 := fun h => hpow ⟨_, h.symm⟩
  obtain ⟨x₁, hx₁, -⟩ := separate_ends x (M := N / 2) (by omega)
  rw [fftReal, Nat.shiftRight_one]
  refine Fails.bind_right hx₁ (Fails.bind_left ?_ _)
  refine Fails.bind_right (floorLog2_32_returns (by omega)) (Fails.bind_left ?_ _)
  exact bitReversal_stuck x₁ (by omega) Nat.lt_log2_self (by omega)

/-! ### The numbers of rows that are safe -/

/-- The numbers of rows for which the run goes well. -/
def SafeCount (proc : ℕ) : Prop :=
  proc ≤ sampleNodes ∧ (proc < 2 ∨ ∃ k, proc / 2 = 2 ^ k)

theorem loadAndTransform_safe (h : SafeCount rows.length) (s : LoadState R) :
    Ends (loadAndTransform scan rows s) fun _ => True := by
  obtain ⟨hle, hpow⟩ : rows.length ≤ 128 ∧ (rows.length < 2 ∨ ∃ k, rows.length / 2 = 2 ^ k) := h
  have hmod : rows.length % 2 ^ 32 = rows.length := Nat.mod_eq_of_lt (by omega)
  refine (loadLoop_safe scan hle s).bind fun s' _ => ?_
  obtain ⟨p, hp, hN⟩ : ∃ p, p ≤ 20 ∧ (rows.length < 2 ∨ rows.length / 2 = 2 ^ p) := by
    rcases hpow with h | ⟨p, hp⟩
    · exact ⟨0, by omega, Or.inl h⟩
    · -- no more rows than elements, so the tables are long enough
      refine ⟨p, ?_, Or.inr hp⟩
      by_contra hgt
      have hge : 2 ^ 7 ≤ 2 ^ p := Nat.pow_le_pow_right Nat.two_pos (by omega)
      omega
  have hT : (sourceTables : Tables R).DefinedTo p := sourceTables_definedTo.mono hp
  have hq : rows.length - rows.length / 4 < sampleNodes := by
    change rows.length - rows.length / 4 < 128
    omega
  rw [hmod]
  exact (fftReal_safe hT (by omega) s'.x hN hle hq).bind fun _ _ => ends_pure trivial

/-- The reports after the transform read the entries that were loaded. -/
theorem fftMain_safe (h : SafeCount rows.length) (s : LoadState R) :
    Ends (fftMain scan rows s) fun _ => True := by
  refine (loadAndTransform_safe scan h s).bind fun s' _ => ?_
  refine Ends.bind (P := fun _ => True) ?_ fun _ _ => ends_pure trivial
  refine ends_forRange (Nat.zero_le _) (fun _ _ => True) trivial fun i out _ hi _ => ?_
  rw [rd_eq s'.x (lt_of_lt_of_le hi h.1), pure_bind]
  exact ends_pure trivial

theorem loadAndTransform_stuck (h : ¬ SafeCount rows.length) (s : LoadState R) :
    Stuck (loadAndTransform scan rows s) := by
  by_cases hle : rows.length ≤ 128
  · have hmod : rows.length % 2 ^ 32 = rows.length := Nat.mod_eq_of_lt (by omega)
    obtain ⟨s', hs', -⟩ := loadLoop_safe scan hle s
    refine Fails.bind_right hs' (Fails.bind_left ?_ _)
    have h2 : 2 ≤ rows.length := by
      by_contra hlt
      exact h ⟨hle, Or.inl (by omega)⟩
    rw [hmod]
    exact fftReal_stuck s'.x h2 (by omega) (fun hk => h ⟨hle, Or.inr hk⟩) hle
  · exact (loadLoop_stuck scan (Nat.lt_of_not_le hle) s).bind_left _

/-- **The safe numbers of rows.** The load loop and `fft_real` terminate within the
`SAMPLE_NODES` elements of `x` exactly for `0` and `1` rows, and for `2 * 2^k` and
`2 * 2^k + 1` rows up to `SAMPLE_NODES`. -/
theorem loadAndTransform_returns_iff (rows : List Row) (s : LoadState R) :
    (∃ s', Returns (loadAndTransform scan rows s) s') ↔
      SafeCount rows.length := by
  constructor
  · rintro ⟨s', hs'⟩
    by_contra h
    exact (loadAndTransform_stuck scan h s).not_returns s' hs'
  · intro h
    obtain ⟨s', hs', -⟩ := loadAndTransform_safe scan h s
    exact ⟨s', hs'⟩

/-- A power of two of rows, twice as many as the array has elements. -/
theorem loadAndTransform_overflow :
    ¬ ∃ s', Returns (loadAndTransform (fun _ => some (1 : ℚ)) (List.replicate 256 [some ['1']])
      ⟨Vector.replicate sampleNodes 0, 0, []⟩) s' := by
  rintro ⟨s', hs'⟩
  have hlen : sampleNodes < (List.replicate 256 [some ['1']]).length := by
    rw [List.length_replicate]
    decide
  exact ((loadLoop_stuck _ hlen _).bind_left _).not_returns s' hs'

end SqlCode.FftSerial
