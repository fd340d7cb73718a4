import SqlCode.FftSerial.BitReversal
import SqlCode.Dft.Stages
import SqlCode.Dft.Circle

/-!
# `fft` computes the discrete Fourier transform

Over any commutative ring, with tables that hold the parts of a tower of roots
(`Tables.Holds`), `fft x N` for `N = 2^m`, `m ≤ 30`, ends and leaves in the first `N`
cells of `x` their transform, and nothing else changed (`fft_spec`).

The three nested loops are taken one at a time. One round of the innermost loop
is a butterfly (`butterfly_ends`), the loop over `i` does the butterflies of one
offset (`offset_ends`), the loop over `j` all of them (`stage_ends`) while it
carries `(uR, uI) = root ^ (j - 1)`, and each round of the loop over `l`
doubles the transformed blocks (`BlockDft.succ`).

The round `l = 31`, which only `N = 2^31` reaches, changes nothing (`stage_top`): `1 << 31`
is not an `int`. What is left there are the transforms of the even and of the odd samples,
side by side (`fft_spec_top`).

With the exact sines and cosines in the tables (`exactTables`) this is the
complex transform with `w = exp (-2 π i / N)` up to `N = 2^30` (`fft_dft`) and not for
`N = 2^31` (`fft_dft_fails`).
-/

namespace SqlCode.FftSerial

open Exec Dft

variable {R : Type} [CommRing R] {len : ℕ}

/-- The tables hold the real and the negated imaginary parts of a tower of roots. -/
def Tables.Holds (T : Tables R) (ρ : RootTower (Cplx R)) : Prop :=
  ∀ k, Returns (T.cosTb k) (ρ.root (k + 1)).real ∧ Returns (T.sinTb k) (-(ρ.root (k + 1)).imag)

theorem advance_eq (u s : Cplx R) : advance u s = u * s := rfl

/-- The twiddle step for a value of logarithm `l` is the root of level `l + 1`. -/
theorem twiddleStep_returns {T : Tables R} {ρ : RootTower (Cplx R)} (hT : T.Holds ρ) {h l : ℕ}
    (hh : h < 2 ^ 32) (hl : h.log2 = l) : Returns (twiddleStep T h) (ρ.root (l + 1)) := by
  have hlog := floorLog2_32_returns hh
  rw [hl] at hlog
  refine hlog.bind ((hT l).1.bind ((hT l).2.bind ?_))
  rw [neg_neg]
  exact returns_pure _

/-- The logarithm of a power of two that is a `uint32_t`. -/
theorem floorLog2_32_two_pow {m : ℕ} (hm : m ≤ 31) : Returns (floorLog2_32 (2 ^ m)) m := by
  have hlt : 2 ^ m < 2 ^ 32 := Nat.pow_lt_pow_right Nat.one_lt_two (by omega)
  have h := floorLog2_32_returns hlt
  rwa [Nat.log2_two_pow] at h

/-- **One butterfly** in bounds. -/
theorem butterfly_ends (u : Cplx R) (x : Vector (Cplx R) len) {i ip : ℕ} (hi : i < len)
    (hip : ip < len) (hne : i ≠ ip) :
    Ends (butterfly u i ip x) fun y => ∀ t, cell y t =
      if t = i then cell x i + u * cell x ip
      else if t = ip then cell x i - u * cell x ip else cell x t := by
  have hmul : (⟨(cell x ip).real * u.real - (cell x ip).imag * u.imag,
      (cell x ip).real * u.imag + (cell x ip).imag * u.real⟩ : Cplx R) = u * cell x ip := by
    ext <;> simp <;> ring
  rw [butterfly]
  simp only [rd_eq _ hi, rd_eq _ hip, wr_eq _ hip, wr_eq _ hi, pure_bind]
  refine ends_pure fun t => ?_
  rw [cell_set, cell_set, cell_set, if_neg hne]
  simp only [← hmul]
  rfl

/-! ### One stage -/

section Stage

variable {h nb : ℕ}

/-- **The loop over `i`** does the butterflies of offset `o`, block after block. -/
private theorem offset_ends {ω : Cplx R} {a : ℕ → Cplx R} {o : ℕ} (ho : o < h)
    (hN : nb * (2 * h) ≤ len) (x : Vector (Cplx R) len)
    (hx : Butterflied ω h nb (fun _ o' => o' < o) a (cell x)) :
    Ends (forLoop o (nb * (2 * h)) (2 * h) x fun i x => butterfly (ω ^ o) i (i + h) x)
      fun y => Butterflied ω h nb (fun _ o' => o' < o + 1) a (cell y) := by
  rw [forLoop, block_rounds ho]
  -- after `b` rounds the butterflies of offset `o` are done in the blocks below `b`
  refine (ends_forCount
    (fun b y => Butterflied ω h nb (fun b' o' => o' < o ∨ o' = o ∧ b' < b) a (cell y)) ?_ ?_).mono
    fun y hy => ?_
  · exact hx.congr fun b o' _ _ => by omega
  · intro b y hb hy
    have hlt := block_lt (w := 2 * h) hb (by omega : o + h < 2 * h)
    have hidx : o + b * (2 * h) = b * (2 * h) + o := add_comm _ _
    rw [hidx]
    refine (butterfly_ends (ω ^ o) y (by omega) (by omega) (by omega)).mono fun z hz => ?_
    -- the two cells of the butterfly, and those it leaves
    exact (hy.step_write hb ho (by omega) hz).congr fun b' o' _ _ => by omega
  · exact hy.congr fun b o' hb _ => by omega

/-- `le` and `le2` are powers of two as long as `1 << l` is an `int`. -/
theorem le_le2 {l : ℕ} (hl : l < 30) :
    toInt (1 <<< (l + 1) : ℕ) = (2 * 2 ^ l : ℕ) ∧
      ((2 * 2 ^ l : ℕ) : ℤ) >>> (1 : ℕ) = (2 ^ l : ℕ) := by
  have hlt : 2 ^ (l + 1) < 2 ^ 31 := Nat.pow_lt_pow_right Nat.one_lt_two (by omega)
  constructor
  · rw [Nat.shiftLeft_eq, one_mul, toInt_natCast hlt, pow_succ']
  · rw [Int.shiftRight_eq_div_pow]
    push_cast
    exact Int.mul_ediv_cancel_left _ two_ne_zero

/-- **The loop over `j`**: round `l + 1 ≤ 30` of the outer loop does every butterfly
of a pass over blocks of half-size `2^l`, with the powers of the step it reads
off the tables. -/
theorem stage_ends {T : Tables R} {l : ℕ} {s : Cplx R} (hs : Returns (twiddleStep T (2 ^ l)) s)
    (hl : l < 30) (x : Vector (Cplx R) len) (hN : nb * (2 * 2 ^ l) ≤ len) :
    Ends (stage T (nb * (2 * 2 ^ l)) (l + 1) x) fun y =>
      Butterflied s (2 ^ l) nb (fun _ _ => True) (cell x) (cell y) := by
  obtain ⟨hle, hle2⟩ := le_le2 hl
  have hlt : 2 ^ l < 2 ^ 32 := Nat.pow_lt_pow_right Nat.one_lt_two (by omega)
  rw [stage]
  simp only [hle, hle2, toUint32_natCast hlt, ← Nat.cast_succ, Int.toNat_natCast]
  refine (Ends.of_returns hs rfl).bind fun s' hs' => ?_
  subst hs'
  -- `j` counts from 1: the offsets below `j - 1` are done, and `U` is the power for the next
  refine (ends_forRange (by omega) (fun j (p : Vector (Cplx R) len × Cplx R) =>
    Butterflied s (2 ^ l) nb (fun _ o => o < j - 1) (cell x) (cell p.1) ∧
      p.2 = s ^ (j - 1)) ⟨?_, ?_⟩ ?_).bind fun p hp => ends_pure ?_
  · exact (Butterflies.start _ _ _ _).congr fun b o _ _ => by simp
  · exact (pow_zero _).symm
  · rintro j ⟨y, u⟩ h1 h2 ⟨hy, rfl⟩
    obtain ⟨o, rfl⟩ := Nat.exists_eq_add_of_le' h1
    rw [Nat.add_sub_cancel] at hy ⊢
    refine (offset_ends (by omega) hN y hy).bind fun z hz => ends_pure ⟨hz, ?_⟩
    rw [advance_eq, ← pow_succ]
    rfl
  · exact hp.1.congr fun b o _ ho => by simpa using ho

/-- **The round that does nothing.** For `l = 31` the `int`s `le` and `le2` are negative. -/
theorem stage_top {T : Tables R} {ρ : RootTower (Cplx R)} (hT : T.Holds ρ) (N : ℕ)
    (x : Vector (Cplx R) len) : Returns (stage T N 31 x) x := by
  have hle : toInt (1 <<< 31 : ℕ) = -2 ^ 31 := by decide
  have hle2 : (-2 ^ 31 : ℤ) >>> (1 : ℕ) = -2 ^ 30 := by decide
  have hround : (-2 ^ 30 + 1 : ℤ).toNat = 0 := by decide
  rw [stage]
  simp only [hle, hle2, hround]
  -- the factor it looks up for `le2` is not used
  have hs := twiddleStep_returns hT (show toUint32 (-2 ^ 30) < 2 ^ 32 by decide) rfl
  exact hs.bind (returns_pure _)

end Stage

/-! ### All stages -/

/-- **The stages of `fft`.** They leave blocks of up to `2^30` cells transformed, after the bits
of the indices were reversed. -/
theorem fft_blocks {T : Tables R} {ρ : RootTower (Cplx R)} (hT : T.Holds ρ) {m : ℕ} (hm : m ≤ 31)
    (x : Vector (Cplx R) len) (hN : 2 ^ m ≤ len) :
    Ends (fft T x (2 ^ m)) fun y =>
      (∃ a0 : ℕ → Cplx R, (∀ i, i < 2 ^ m → a0 i = cell x (bitRev m i)) ∧
        BlockDft ρ (2 ^ (m - min m 30)) (min m 30) a0 (cell y)) ∧
        ∀ k, 2 ^ m ≤ k → cell y k = cell x k := by
  refine (Ends.of_returns (floorLog2_32_two_pow hm) rfl).bind fun M hM => ?_
  subst hM
  refine (bitReversal_spec x hN).bind fun x' hx' => ?_
  -- before round `l` the blocks of size `2 ^ (l - 1)` are transformed
  refine (ends_forRange (by omega) (fun l y =>
    BlockDft ρ (2 ^ (m - min (l - 1) 30)) (min (l - 1) 30) (cell x') (cell y) ∧
      ∀ k, 2 ^ m ≤ k → cell y k = cell x' k) ⟨BlockDft.start ρ _ _, fun _ _ => rfl⟩ ?_).mono
    fun y hy => ⟨⟨cell x', hx'.1, hy.1⟩, fun k hk => (hy.2 k hk).trans (hx'.2 k hk)⟩
  rintro l y h1 h2 ⟨hy, hframe⟩
  obtain ⟨l, rfl⟩ := Nat.exists_eq_add_of_le' h1
  rw [Nat.add_sub_cancel] at hy ⊢
  rcases Nat.lt_or_ge l 30 with hl | hl
  · -- a stage joins two blocks each
    rw [Nat.min_eq_left (by omega)] at hy ⊢
    have hblocks : 2 ^ (m - l) = 2 * 2 ^ (m - (l + 1)) := two_pow_sub (by omega)
    have hsize : 2 ^ m = 2 ^ (m - (l + 1)) * (2 * 2 ^ l) := two_pow_blocks (by omega)
    have hlt : 2 ^ l < 2 ^ 32 := Nat.pow_lt_pow_right Nat.one_lt_two (by omega)
    have hstage := stage_ends (twiddleStep_returns hT hlt Nat.log2_two_pow) hl y (hsize ▸ hN)
    rw [← hsize] at hstage
    refine hstage.mono fun z hz => ⟨?_, fun k hk => ?_⟩
    · rw [hblocks] at hy
      exact hy.succ hz
    · rw [hz.frame k (hsize ▸ hk), hframe k hk]
  · -- the only round after these is the one that does nothing
    obtain rfl : l = 30 := by omega
    exact Ends.of_returns (stage_top hT _ y) ⟨hy, hframe⟩

/-- **`fft` computes the transform** of the first `2^m` cells of its array, and
leaves the others as they were. -/
theorem fft_spec {T : Tables R} {ρ : RootTower (Cplx R)} (hT : T.Holds ρ) {m : ℕ} (hm : m ≤ 30)
    (x : Vector (Cplx R) len) (hN : 2 ^ m ≤ len) :
    Ends (fft T x (2 ^ m)) fun y =>
      (∀ k, k < 2 ^ m → cell y k = dft (ρ.root m) (2 ^ m) (cell x) k) ∧
        ∀ k, 2 ^ m ≤ k → cell y k = cell x k := by
  refine (fft_blocks hT (by omega) x hN).mono ?_
  rintro y ⟨⟨a0, ha0, hy⟩, hframe⟩
  rw [Nat.min_eq_left hm, Nat.sub_self, pow_zero] at hy
  exact ⟨fun k hk => hy.top ha0 hk, hframe⟩

/-- **`fft` on `2^31` cells** leaves the transforms of the even and of the odd samples, for
want of the last stage. -/
theorem fft_spec_top {T : Tables R} {ρ : RootTower (Cplx R)} (hT : T.Holds ρ)
    (x : Vector (Cplx R) len) (hN : 2 ^ 31 ≤ len) :
    Ends (fft T x (2 ^ 31)) fun y =>
      (∀ k, k < 2 ^ 31 → cell y k
        = dft (ρ.root 30) (2 ^ 30) (fun t => cell x (2 * t + k / 2 ^ 30)) (k % 2 ^ 30)) ∧
        ∀ k, 2 ^ 31 ≤ k → cell y k = cell x k := by
  refine (fft_blocks hT le_rfl x hN).mono ?_
  rintro y ⟨⟨a0, ha0, hy⟩, hframe⟩
  refine ⟨fun k hk => ?_, hframe⟩
  have hblocks : BlockDft ρ 2 30 a0 (cell y) := hy
  have hhalf := hblocks.halves ha0 (show k / 2 ^ 30 < 2 by omega) (Nat.mod_lt k (by omega))
  rwa [Nat.div_add_mod'] at hhalf

/-! ### Exact tables -/

/-- The tables read as the exact sines and cosines, for every index. -/
noncomputable def exactTables : Tables ℝ where
  sinTb k := pure (Real.sin (Real.pi / (2 ^ k : ℕ)))
  cosTb k := pure (Real.cos (Real.pi / (2 ^ k : ℕ)))

theorem exactTables_holds : exactTables.Holds circleTower := by
  intro k
  have hangle : -(2 * Real.pi / 2 ^ (k + 1)) = -(Real.pi / (2 ^ k : ℕ)) := by
    rw [pow_succ]
    push_cast
    field_simp
  rw [circleTower_root, hangle, cis, Real.cos_neg, Real.sin_neg, neg_neg]
  exact ⟨returns_pure _, returns_pure _⟩

/-- A transform of the contents of an array of that length, as a complex sum
over its elements. -/
theorem toComplex_dft_cell {N : ℕ} (ω : Cplx ℝ) (x : Vector (Cplx ℝ) N) (k : ℕ) :
    Cplx.toComplex (dft ω N (cell x) k)
      = ∑ n : Fin N, Cplx.toComplex x[n] * Cplx.toComplex ω ^ (n * k : ℕ) := by
  rw [map_dft, dft, ← Fin.sum_univ_eq_sum_range
    (fun t => Cplx.toComplex (cell x t) * Cplx.toComplex ω ^ (t * k))]
  exact Finset.sum_congr rfl fun n _ => by rw [cell_eq n.isLt]; rfl

/-- **`fft` is the discrete Fourier transform.** For every `N = 2^m`, `m ≤ 30`, and every
array of `N` elements it ends with `x[k]` equal to the sum of the original
`x[n] * w ^ (n * k)`, where `w = exp (-2 π i / N)`. -/
theorem fft_dft {m : ℕ} (hm : m ≤ 30) (x : Vector (Cplx ℝ) (2 ^ m)) :
    ∃ y, Returns (fft exactTables x (2 ^ m)) y ∧ ∀ k (_ : k < 2 ^ m),
      Cplx.toComplex y[k] = ∑ n : Fin (2 ^ m),
        Cplx.toComplex x[n] * Complex.exp (-2 * Real.pi * Complex.I / 2 ^ m) ^ (n * k : ℕ) := by
  obtain ⟨y, hy, hdft, -⟩ := fft_spec exactTables_holds hm x le_rfl
  refine ⟨y, hy, fun k hk => ?_⟩
  rw [← cell_eq hk, hdft k hk, toComplex_dft_cell, toComplex_root]

/-- The array with a single `1`, at index `0`. -/
def impulse (N : ℕ) : Vector (Cplx ℝ) N :=
  Vector.ofFn fun i => if (i : ℕ) = 0 then 1 else 0

theorem cell_impulse {N t : ℕ} (ht : t < N) :
    cell (impulse N) t = if t = 0 then 1 else 0 := by
  rw [impulse, cell_ofFn _ ht]

/-- The transform of a single `1` at index `0` is constant. -/
theorem dft_single {N : ℕ} (ω : Cplx ℝ) {x : ℕ → Cplx ℝ} (hN : 0 < N) (h0 : x 0 = 1)
    (hx : ∀ t, 0 < t → t < N → x t = 0) (k : ℕ) : dft ω N x k = 1 := by
  rw [dft, Finset.sum_eq_single_of_mem 0 (Finset.mem_range.mpr hN)]
  · rw [h0, zero_mul, pow_zero, one_mul]
  · intro t ht hne
    rw [hx t (Nat.pos_of_ne_zero hne) (Finset.mem_range.mp ht), zero_mul]

theorem dft_impulse (ω : Cplx ℝ) {N : ℕ} (hN : 0 < N) (k : ℕ) :
    dft ω N (cell (impulse N)) k = 1 :=
  dft_single ω hN (by rw [cell_impulse hN, if_pos rfl])
    (fun t h0 ht => by rw [cell_impulse ht, if_neg (by omega)]) k

/-- From a single `1` among `2^31` samples, `fft` makes ones in the lower half and leaves
zeros in the upper one. -/
theorem fft_impulse : Ends (fft exactTables (impulse (2 ^ 31)) (2 ^ 31)) fun y =>
    ∀ k, k < 2 ^ 31 → cell y k = if k < 2 ^ 30 then 1 else 0 := by
  refine (fft_spec_top exactTables_holds (impulse (2 ^ 31)) le_rfl).mono fun y hy k hk => ?_
  rw [hy.1 k hk]
  split
  · next hlo =>
    -- the even samples are again a single `1`
    rw [Nat.div_eq_of_lt hlo]
    refine dft_single _ (by omega) (by rw [cell_impulse (by omega), if_pos rfl]) ?_ _
    intro t h0 ht
    rw [cell_impulse (by omega), if_neg (by omega)]
  · next hhi =>
    -- the odd samples are zero
    refine Finset.sum_eq_zero fun t ht => ?_
    have ht' := Finset.mem_range.mp ht
    have hzero : cell (impulse (2 ^ 31)) (2 * t + k / 2 ^ 30) = 0 := by
      rw [cell_impulse (by omega), if_neg (by omega)]
    simp only [hzero, zero_mul]

/-- Eight samples. -/
theorem fft_dft_eight :
    let x := Vector.ofFn fun i : Fin (2 ^ 3) => (⟨(i : ℕ), 1⟩ : Cplx ℝ)
    ∃ y, Returns (fft exactTables x (2 ^ 3)) y ∧ ∀ k (_ : k < 2 ^ 3),
      Cplx.toComplex y[k] = ∑ n : Fin (2 ^ 3),
        Cplx.toComplex x[n] * Complex.exp (-2 * Real.pi * Complex.I / 2 ^ 3) ^ (n * k : ℕ) :=
  fft_dft (by decide) _

/-- **The longest `uint32_t`.** For `N = 2^31`, `fft` is not the discrete Fourier transform. -/
theorem fft_dft_fails :
    ¬ ∃ y, Returns (fft exactTables (impulse (2 ^ 31)) (2 ^ 31)) y ∧ ∀ k (_ : k < 2 ^ 31),
      Cplx.toComplex y[k] = ∑ n : Fin (2 ^ 31), Cplx.toComplex (impulse (2 ^ 31))[n] *
        Complex.exp (-2 * Real.pi * Complex.I / 2 ^ 31) ^ (n * k : ℕ) := by
  rintro ⟨y, hy, hdft⟩
  have hk : 2 ^ 30 < 2 ^ 31 := by omega
  have hzero := fft_impulse.of_unique hy (2 ^ 30) hk
  rw [if_neg (lt_irrefl _)] at hzero
  have hone := hdft (2 ^ 30) hk
  rw [← toComplex_root, ← toComplex_dft_cell, dft_impulse _ (by omega), ← cell_eq hk,
    hzero, map_zero, map_one] at hone
  exact zero_ne_one hone

end SqlCode.FftSerial
