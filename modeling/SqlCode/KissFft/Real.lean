import SqlCode.KissFft.Transform

/-!
# `kiss_fftr` and `kiss_fftri`

The transform of `2 * m` real samples is made from one complex transform of length `m`, of the
even samples as real and the odd samples as imaginary parts. With `e` and `o` for the
transforms of the even and the odd samples

1. the complex transform at `k` is `e k + i * o k`, and at `m - k` the same with conjugates
   (`Half.packed`, `Half.packed_mirror`);
2. the real one is `e k + ω ^ k * o k` and the conjugate of `e k - ω ^ k * o k`
   (`Half.full`, `Half.full_mirror`);
3. the super twiddles are `ω ^ k / i` and its inverse, so that each loop computes one pair
   of values from the other.
-/

namespace SqlCode.KissFft

open Exec Dft SharedMemory SharedMemory.Thread Cplx

/-! ### Half the length -/

section Half

variable {R : Type} [Field R] {ω : Cplx R} {m k : ℕ}

/-- The transforms of the even and of the odd samples. -/
structure Half (ω : Cplx R) (m : ℕ) (s : ℕ → R) (k : ℕ) (e o : Cplx R) : Prop where
  even : e = dft (ω ^ 2) m (fun t => ofReal (s (2 * t))) k
  odd : o = dft (ω ^ 2) m (fun t => ofReal (s (2 * t + 1))) k

namespace Half

variable {s : ℕ → R} {e o : Cplx R} (h : Half ω m s k e o)
include h

theorem packed : dft (ω ^ 2) m (fun t => ⟨s (2 * t), s (2 * t + 1)⟩) k = e + I * o := by
  rw [dft_pack, h.even, h.odd]

theorem full : dft ω (2 * m) (fun t => ofReal (s t)) k = e + ω ^ k * o := by
  rw [dft_two_mul, h.even, h.odd]

variable (hω : ω ^ m = -1) (hunit : ω * conj ω = 1) (hk : 0 < k) (hkm : k < m)
include hω hunit hk hkm

theorem mirror : Half ω m s (m - k) (conj e) (conj o) := by
  have hsq : (ω ^ 2) ^ m = 1 := by
    rw [← pow_mul, mul_comm, pow_mul, hω]
    ring
  have hunit2 : ω ^ 2 * conj (ω ^ 2) = 1 := by
    rw [map_pow, ← mul_pow, hunit, one_pow]
  constructor
  · rw [h.even, conj_dft_ofReal hsq hunit2 _ hkm, mirror_of_pos hk hkm]
  · rw [h.odd, conj_dft_ofReal hsq hunit2 _ hkm, mirror_of_pos hk hkm]

theorem packed_mirror :
    dft (ω ^ 2) m (fun t => ⟨s (2 * t), s (2 * t + 1)⟩) (m - k) = conj e + I * conj o :=
  (h.mirror hω hunit hk hkm).packed

theorem full_mirror :
    dft ω (2 * m) (fun t => ofReal (s t)) (m - k) = conj (e - ω ^ k * o) := by
  have hpow : ω ^ (m - k) = -conj (ω ^ k) := by
    rw [map_pow]
    calc ω ^ (m - k) = ω ^ (m - k) * (ω * conj ω) ^ k := by rw [hunit, one_pow, mul_one]
      _ = ω ^ (m - k + k) * conj ω ^ k := by rw [mul_pow, ← mul_assoc, ← pow_add]
      _ = -conj ω ^ k := by rw [Nat.sub_add_cancel hkm.le, hω, neg_one_mul]
  rw [(h.mirror hω hunit hk hkm).full, hpow, map_sub, map_mul]
  ring

end Half

end Half

/-! ### Configurations -/

/-- The super twiddle for the frequency `k`. -/
noncomputable def superRoot (m : ℕ) (inverse : Bool) (k : ℕ) : Cplx ℝ :=
  if inverse then conj (kissRoot (2 * m) false ^ k * -I) else kissRoot (2 * m) false ^ k * -I

theorem kissRoot_double_sq {m : ℕ} (hm : 0 < m) :
    kissRoot (2 * m) false ^ 2 = kissRoot m false := by
  have hm0 : (m : ℝ) ≠ 0 := Nat.cast_ne_zero.mpr hm.ne'
  rw [kissRoot_eq, cis_pow]
  congr 1
  push_cast
  field_simp

theorem kissRoot_double_pow {m : ℕ} (hm : 0 < m) : kissRoot (2 * m) false ^ m = -1 := by
  have hm0 : (m : ℝ) ≠ 0 := Nat.cast_ne_zero.mpr hm.ne'
  rw [kissRoot_eq, cis_pow, ← cis_neg_pi]
  congr 1
  push_cast
  field_simp

/-- What `kiss_fftr_alloc` makes for `2 * m` samples. -/
structure RConfigured (addr m : ℕ) (tmpbuf : Ptr) (inverse : Bool) (st : KissFftrState ℝ) :
    Prop where
  sub : Configured addr m inverse st.substate
  tmpbuf_eq : st.tmpbuf = tmpbuf
  super : ∀ i, i < m / 2 → cell st.superTwiddles i = superRoot m inverse (i + 1)

/-- What the loop of `kiss_fftr_alloc` stores. -/
theorem kfCexp_superPhase {m : ℕ} (hm : 0 < m) (inverse : Bool) (i : ℕ) :
    kfCexp exactLibm (superPhase exactLibm m inverse i) = superRoot m inverse (i + 1) := by
  have hm0 : (m : ℝ) ≠ 0 := Nat.cast_ne_zero.mpr hm.ne'
  -- a quarter of the circle is the factor `-I`
  have hquarter : cis (-(Real.pi / 2)) = -I := by
    ext <;> simp [cis]
  have hroot : kissRoot (2 * m) false ^ (i + 1) * -I
      = cis (-Real.pi * ((i + 1 : ℕ) / m + 1 / 2)) := by
    rw [kissRoot_eq, cis_pow, ← hquarter, ← cis_add, if_neg Bool.false_ne_true]
    congr 1
    push_cast
    field_simp
    ring
  rw [superRoot, hroot, conj_cis]
  cases inverse
  · rfl
  · change cis (-Real.pi * ((i + 1 : ℕ) / m + 1 / 2) * -1) = _
    rw [mul_neg_one]
    rfl

/-- The bytes that a configuration for `2 * m` samples takes. -/
def sizeNeeded (S : Sizes) (m : ℕ) : ℕ :=
  S.rstate + memneeded S.state S.cpx m + S.cpx * (m + m / 2)

/-- The longest length whose size `kiss_fftr_alloc` computes: three times half of it is an `int`. -/
abbrev maxHalf : ℕ := 715827882

theorem memneededR_eq {S : Sizes} {m : ℕ} (hm : m ≤ maxHalf) (hsize : sizeNeeded S m < 2 ^ 64) :
    memneededR S (memneeded S.state S.cpx m) m = sizeNeeded S m := by
  have hthree : toInt (m * 3) = ((m * 3 : ℕ) : ℤ) := by
    have hcast : (m : ℤ) * 3 = ((m * 3 : ℕ) : ℤ) := by push_cast; rfl
    rw [hcast]
    exact toInt_natCast (by unfold maxHalf at hm; omega)
  have hhalf : ((m * 3 : ℕ) : ℤ).tdiv 2 = ((m + m / 2 : ℕ) : ℤ) := by
    rw [Int.tdiv_eq_ediv_of_nonneg (by omega)]
    omega
  unfold memneededR
  rw [hthree, hhalf]
  have hsum : ((S.rstate + memneeded S.state S.cpx m : ℕ) : ℤ) + S.cpx * ((m + m / 2 : ℕ) : ℤ) =
      ((sizeNeeded S m : ℕ) : ℤ) := by
    unfold sizeNeeded
    push_cast
    rfl
  rw [hsum]
  omega

/-- The block has the bytes that are needed. -/
theorem RMem.le_of_block {a : RMem} {need : ℕ} {b : RBlock} (hb : a.block need = some b) :
    need ≤ a.lenmem.getD need := by
  unfold RMem.block at hb
  cases hlen : a.lenmem with
  | none => exact le_rfl
  | some len =>
    rw [hlen] at hb
    by_contra hlt
    exact nomatch (if_neg hlt).symm.trans hb

/-- **Every even length** up to `2 * maxHalf` has a configuration, wherever its block is from. -/
theorem kissFftrAlloc_spec (junk : ℕ → Cplx ℝ) {S : Sizes} (a : RMem) {m : ℕ} (hm : 0 < m)
    (hmax : m ≤ maxHalf) (hsize : sizeNeeded S m < 2 ^ 64) (inverse : Bool) :
    Ends (kissFftrAlloc exactLibm junk S a (2 * m) inverse) fun r =>
      r.2 = a.lenmem.map (fun _ => sizeNeeded S m) ∧
        match a.block (sizeNeeded S m) with
        | none => r.1 = none
        | some b => ∃ st, r.1 = some st ∧ RConfigured b.substate m b.tmpbuf inverse st := by
  have hhalf : 2 * m / 2 = m := by omega
  unfold kissFftrAlloc
  rw [if_neg (by omega), hhalf]
  dsimp only
  rw [memneededR_eq hmax hsize]
  cases hb : a.block (sizeNeeded S m) with
  | none => exact ends_pure ⟨rfl, rfl⟩
  | some b =>
    have hfits : ¬ a.lenmem.getD (sizeNeeded S m) <
        S.rstate + memneeded S.state S.cpx m + S.cpx * (m + m / 2) :=
      Nat.not_lt.mpr (RMem.le_of_block hb)
    dsimp only
    rw [if_neg hfits]
    refine (kissFftInit_spec junk b.substate hm (by unfold maxHalf at hmax; omega) inverse).bind
      fun sub hsub => ?_
    have hnfft : sub.nfft / 2 = m / 2 := by rw [hsub.nfft_eq]
    refine (ends_forCells (fun i => superRoot m inverse (i + 1)) (Nat.zero_le _)
      fun i y _ hi _ => ?_).bind fun super hsuper => ends_pure
        ⟨rfl, _, rfl, hsub, rfl, fun i hi => hsuper.1 i (Nat.zero_le i) hi⟩
    rw [wr_eq y (hnfft ▸ hi), kfCexp_superPhase hm]
    exact ends_pure ⟨cell_set_self _ _ _, fun t ht => cell_set_ne _ _ _ ht⟩

/-- The tables of a configuration are in memory. -/
structure RHolds (st : KissFftrState ℝ) (mem : Memory Loc (Cplx ℝ)) : Prop where
  sub : Holds st.substate mem
  super : ∀ i, i < st.substate.nfft / 2 →
    mem.val (.superTwiddle st.substate.addr i) = cell st.superTwiddles i

/-- The super twiddles of a configuration. -/
def superTable (st : KissFftrState ℝ) : Set Loc :=
  {l | ∃ i, i < st.substate.nfft / 2 ∧ l = .superTwiddle st.substate.addr i}

/-- The samples in a buffer of pairs. -/
def sample (mem : Memory Loc (Cplx ℝ)) (timedata : Ptr) (t : ℕ) : ℝ :=
  let z := mem.val (timedata.nth (t / 2))
  if t % 2 = 0 then z.real else z.imag

theorem pair_sample (mem : Memory Loc (Cplx ℝ)) (timedata : Ptr) (t : ℕ) :
    mem.val (timedata.nth t) =
      ⟨sample mem timedata (2 * t), sample mem timedata (2 * t + 1)⟩ := by
  have h0 : 2 * t / 2 = t := by omega
  have h1 : (2 * t + 1) / 2 = t := by omega
  unfold sample
  rw [h0, h1, if_pos (by omega), if_neg (by omega)]

/-- The transform of the real samples in a buffer. -/
noncomputable def spectrum (m : ℕ) (s : ℕ → ℝ) (k : ℕ) : Cplx ℝ :=
  dft (kissRoot (2 * m) false) (2 * m) (fun t => ofReal (s t)) k

/-! ### The forward loop -/

section Forward

variable {st : KissFftrState ℝ} {addr m k : ℕ} {tmpbuf freqdata : Ptr} {s : ℕ → ℝ}
  {mem : Memory Loc (Cplx ℝ)}

/-- What the loop of `kiss_fftr` reads. -/
structure Packed (st : KissFftrState ℝ) (m : ℕ) (s : ℕ → ℝ) (mem : Memory Loc (Cplx ℝ)) :
    Prop where
  tmpbuf : ∀ k, k < m → mem.val (st.tmpbuf.nth k) =
    dft (kissRoot m false) m (fun t => ⟨s (2 * t), s (2 * t + 1)⟩) k
  super : ∀ k, 0 < k → k ≤ m / 2 →
    mem.val (.superTwiddle st.substate.addr (k - 1)) = superRoot m false k

/-- One round, on the two values that it computes. -/
theorem fftrAt_run (hm : st.substate.nfft = m) (hk : 0 < k) (hkm : k ≤ m / 2)
    (hmem : Packed st m s mem) :
    ((fftrAt st freqdata k).run mem).2 =
      (mem.write (freqdata.nth k) (spectrum m s k)).write (freqdata.nth (m - k))
        (spectrum m s (m - k)) := by
  have hm0 : 0 < m := by omega
  have hlt : k < m := by omega
  set ω := kissRoot (2 * m) false with hω
  have hhalf : Half ω m s k _ _ := ⟨rfl, rfl⟩
  set e := dft (ω ^ 2) m (fun t => ofReal (s (2 * t))) k
  set o := dft (ω ^ 2) m (fun t => ofReal (s (2 * t + 1))) k
  have hpow := kissRoot_double_pow hm0
  have hunit := kissRoot_unit (2 * m) false
  -- what the round reads, and what it should write
  have hz := hmem.tmpbuf k hlt
  have hz' := hmem.tmpbuf (m - k) (by omega)
  rw [← kissRoot_double_sq hm0, hhalf.packed] at hz
  rw [← kissRoot_double_sq hm0, hhalf.packed_mirror hpow hunit hk hlt] at hz'
  have hx : spectrum m s k = e + ω ^ k * o := hhalf.full
  have hx' : spectrum m s (m - k) = conj (e - ω ^ k * o) :=
    hhalf.full_mirror hpow hunit hk hlt
  have htw := hmem.super k hk hkm
  rw [superRoot, if_neg Bool.false_ne_true] at htw
  simp only [fftrAt, run_bind, run_get, run_put, hm, hz, hz', htw, hx, hx', ← hω]
  generalize ω ^ k = w
  congr 1
  · congr 1
    ext <;> simp [cAdd, cSub, cMul, halfOf] <;> ring
  · ext <;> simp [cAdd, cSub, cMul, halfOf] <;> ring

/-- The values for which the loop has run. -/
structure Unpacked (freqdata : Ptr) (m : ℕ) (s : ℕ → ℝ) (k : ℕ) (mem : Memory Loc (Cplx ℝ)) :
    Prop where
  low : ∀ j, j < k → mem.val (freqdata.nth j) = spectrum m s j
  high : ∀ j, j < k → mem.val (freqdata.nth (m - j)) = spectrum m s (m - j)

/-- Writes to `freqdata` keep what the loop reads. -/
theorem Packed.write (hp : Packed st m s mem) (hfreq : freqdata.buf ≠ st.tmpbuf.buf) (j : ℕ)
    (v : Cplx ℝ) : Packed st m s (mem.write (freqdata.nth j) v) := by
  have hne : ∀ k, st.tmpbuf.nth k ≠ freqdata.nth j := fun k heq =>
    hfreq (Loc.buf.inj heq).1.symm
  refine ⟨fun k hk => ?_, fun k hk hkm => ?_⟩
  · rw [mem.val_write_ne _ (hne k), hp.tmpbuf k hk]
  · rw [mem.val_write_ne _ (by simp [Ptr.nth]), hp.super k hk hkm]

/-- **The loop of `kiss_fftr`** leaves the transform of the real samples. -/
theorem fftr_loop (hm : st.substate.nfft = m) (hbuf : freqdata.buf ≠ st.tmpbuf.buf)
    (hmem : Packed st m s mem) (h0 : mem.val (freqdata.nth 0) = spectrum m s 0)
    (hlast : mem.val (freqdata.nth m) = spectrum m s m) :
    (forRange 1 (m / 2 + 1) () fun k _ => fftrAt st freqdata k).Leaves mem fun _ mem' =>
      ∀ k, k ≤ m → mem'.val (freqdata.nth k) = spectrum m s k := by
  -- the loop fills the output from both ends, until they meet or cross in the middle
  refine (leaves_forRange (by omega) (fun k _ mem' =>
    Packed st m s mem' ∧ Unpacked freqdata m s k mem') ⟨hmem, ⟨?_, ?_⟩⟩ ?_).mono
      fun _ mem' ⟨_, h⟩ k hk => ?_
  · intro j hj
    obtain rfl : j = 0 := by omega
    exact h0
  · intro j hj
    obtain rfl : j = 0 := by omega
    exact hlast
  -- round `k` fills the places `k` and `m - k`
  · rintro k _ mem' h1 h2 ⟨hp, hu⟩
    unfold Leaves
    rw [fftrAt_run hm h1 (by omega) hp]
    refine ⟨(hp.write hbuf _ _).write hbuf _ _, ⟨fun j hj => ?_, fun j hj => ?_⟩⟩
    · simp only [Memory.val_write, nth_inj]
      split_ifs with hjm hjk
      · rw [hjm]
      · rw [hjk]
      · exact hu.low j (by omega)
    · simp only [Memory.val_write, nth_inj]
      split_ifs with hjm hjk
      · rw [hjm]
      · rw [hjk]
      · exact hu.high j (by omega)
  · rcases (by omega : k < m / 2 + 1 ∨ m - k < m / 2 + 1) with hlow | hhigh
    · exact h.low k hlow
    · have hval := h.high (m - k) hhigh
      rwa [show m - (m - k) = k by omega] at hval

/-- The two values that are not made by the loop: the transforms at zero are real. -/
theorem spectrum_ends (hm : 0 < m) {z : Cplx ℝ}
    (hz : z = dft (kissRoot m false) m (fun t => ⟨s (2 * t), s (2 * t + 1)⟩) 0) :
    spectrum m s 0 = ⟨z.real + z.imag, 0⟩ ∧ spectrum m s m = ⟨z.real - z.imag, 0⟩ := by
  have hpow := kissRoot_double_pow hm
  set ω := kissRoot (2 * m) false with hω
  have hsq : (ω ^ 2) ^ m = 1 := by
    rw [← pow_mul, mul_comm, pow_mul, hpow]
    ring
  have hunit2 : ω ^ 2 * conj (ω ^ 2) = 1 := by
    rw [map_pow, ← mul_pow, kissRoot_unit, one_pow]
  have hhalf : Half ω m s 0 _ _ := ⟨rfl, rfl⟩
  -- a sum of real samples is its own conjugate
  have hself : ∀ r : ℕ → ℝ, conj (dft (ω ^ 2) m (fun t => ofReal (r t)) 0)
      = dft (ω ^ 2) m (fun t => ofReal (r t)) 0 := by
    intro r
    have h := conj_dft_ofReal hsq hunit2 r hm
    rwa [mirror_zero] at h
  rw [← kissRoot_double_sq hm, hhalf.packed] at hz
  obtain ⟨he, ho⟩ := packed_self hz (hself _) (hself _)
  -- at `m` the transforms are those at zero again
  have hlast : Half ω m s m (dft (ω ^ 2) m (fun t => ofReal (s (2 * t))) 0)
      (dft (ω ^ 2) m (fun t => ofReal (s (2 * t + 1))) 0) := by
    constructor <;>
    · rw [← dft_add_period hsq, zero_add]
  constructor
  · change dft ω (2 * m) _ 0 = _
    rw [hhalf.full, he, ho]
    ext <;> simp
  · change dft ω (2 * m) _ m = _
    rw [hlast.full, hpow, he, ho]
    ext <;> simp [sub_eq_add_neg]

end Forward

section Calls

variable {st : KissFftrState ℝ} {addr m tmp : ℕ} {tmpbuf timedata freqdata : Ptr}
  {mem : Memory Loc (Cplx ℝ)}

/-- The complex transform of the samples, read in pairs, and the super twiddles beside it. -/
theorem packed_leaves (h : RConfigured addr m tmpbuf false st) (hm : 0 < m) (h30 : m ≤ 2 ^ 30)
    (htime : timedata.buf ≠ tmpbuf.buf) (hmem : RHolds st mem) :
    (kissFft st.substate tmp timedata st.tmpbuf).Leaves mem fun _ mem' =>
      Packed st m (sample mem timedata) mem' := by
  have hnfft := h.sub.nfft_eq
  rw [← h.tmpbuf_eq] at htime
  have hin : (kissFft st.substate tmp timedata st.tmpbuf).Within _ _ :=
    kissFftStride_within h.sub hm h30
  rw [outputs_of_buf_ne htime] at hin
  refine ⟨fun k hk => ?_, fun k hk hkm => ?_⟩
  · refine (kissFftStride_leaves h.sub hm h30 (apart_of_buf_ne htime) hmem.sub k hk).trans ?_
    refine dft_congr (fun t _ => ?_) k
    rw [mul_one, pair_sample]
  · refine (hin.frame mem ?_).trans ?_
    · simp [block, Ptr.nth]
    · rw [hmem.super (k - 1) (by omega), h.super (k - 1) (by omega), Nat.sub_add_cancel hk]

/-- `kiss_fftr`, when it does not exit, on the samples in `timedata`. -/
theorem kissFftr_leaves (h : RConfigured addr m tmpbuf false st) (hm : 0 < m) (h30 : m ≤ 2 ^ 30)
    (htime : timedata.buf ≠ tmpbuf.buf) (hfreq : freqdata.buf ≠ tmpbuf.buf)
    (hmem : RHolds st mem) :
    ∃ t, kissFftr st tmp timedata freqdata = .ok t ∧ t.Leaves mem fun _ mem' =>
      ∀ k, k ≤ m → mem'.val (freqdata.nth k) = spectrum m (sample mem timedata) k := by
  have hnfft := h.sub.nfft_eq
  rw [kissFftr, h.sub.inverse_eq, if_neg Bool.false_ne_true]
  refine ⟨_, rfl, ?_⟩
  refine (packed_leaves h hm h30 htime hmem).bind fun _ mem' hp => ?_
  rw [← h.tmpbuf_eq] at hfreq
  obtain ⟨hzero, hlast⟩ := spectrum_ends hm (hp.tmpbuf 0 hm)
  rw [hnfft]
  -- the values at zero and at `m` are written before the loop
  refine fftr_loop hnfft hfreq ((hp.write hfreq 0 _).write hfreq m _) ?_ ?_
  · rw [Memory.val_write_ne _ _ fun heq => ?_, Memory.val_write_self, hzero]
    exact hm.ne (nth_inj.mp heq)
  · rw [Memory.val_write_self, hlast]

/-- A round reads and writes the two values that it is about. -/
theorem fftrAt_within {k : ℕ} (hm : st.substate.nfft = m) (hk : 0 < k) (hkm : k ≤ m / 2) :
    (fftrAt st freqdata k).Within (superTable st ∪ block st.tmpbuf m)
      (block freqdata (m + 1)) := by
  have hlow : Loc.superTwiddle st.substate.addr (k - 1) ∈ superTable st :=
    ⟨k - 1, by omega, rfl⟩
  have hread : ∀ j, j < m → st.tmpbuf.nth j ∈ superTable st ∪ block st.tmpbuf m :=
    fun j hj => .inr ⟨j, hj, rfl⟩
  unfold fftrAt
  simp only [within_get_bind, within_put_bind, within_put_iff, hm]
  exact ⟨hread k (by omega), fun _ => ⟨hread (m - k) (by omega), fun _ => ⟨.inl hlow, fun _ =>
    ⟨⟨k, by omega, rfl⟩, ⟨m - k, by omega, rfl⟩⟩⟩⟩⟩

theorem kissFftr_within (h : RConfigured addr m tmpbuf false st) (hm : 0 < m)
    (h30 : m ≤ 2 ^ 30) (htime : timedata.buf ≠ tmpbuf.buf) :
    ∃ t, kissFftr st tmp timedata freqdata = .ok t ∧ t.Within
      (table st.substate ∪ samples timedata 1 m ∪ (superTable st ∪ block tmpbuf m))
      (block tmpbuf m ∪ block freqdata (m + 1)) := by
  have hnfft := h.sub.nfft_eq
  rw [kissFftr, h.sub.inverse_eq, if_neg Bool.false_ne_true]
  refine ⟨_, rfl, ?_⟩
  have hin : (kissFft st.substate tmp timedata st.tmpbuf).Within _ _ :=
    kissFftStride_within h.sub hm h30
  rw [← h.tmpbuf_eq] at htime ⊢
  rw [outputs_of_buf_ne htime] at hin
  -- the complex transform, the two values in front of the loop, and the loop
  refine (hin.mono ?_ Set.subset_union_left).bind fun _ => ?_
  · exact Set.union_subset_union_right _ Set.subset_union_right
  rw [hnfft, within_get_bind]
  refine ⟨.inr (.inr ⟨0, hm, rfl⟩), fun _ => ?_⟩
  simp only [within_put_bind]
  refine ⟨.inr ⟨0, by omega, rfl⟩, .inr ⟨m, by omega, rfl⟩, within_forRange fun k hk hkm => ?_⟩
  exact (fftrAt_within hnfft hk (by omega)).mono Set.subset_union_right Set.subset_union_right

end Calls

/-! ### The inverse loop -/

section Inverse

variable {st : KissFftrState ℝ} {addr m k : ℕ} {tmpbuf freqdata timedata : Ptr} {s : ℕ → ℝ}
  {mem : Memory Loc (Cplx ℝ)}

/-- What the loop of `kiss_fftri` reads. -/
structure Spectral (st : KissFftrState ℝ) (freqdata : Ptr) (m : ℕ) (s : ℕ → ℝ)
    (mem : Memory Loc (Cplx ℝ)) : Prop where
  freq : ∀ k, k ≤ m → mem.val (freqdata.nth k) = spectrum m s k
  super : ∀ k, 0 < k → k ≤ m / 2 →
    mem.val (.superTwiddle st.substate.addr (k - 1)) = superRoot m true k

/-- What the loop makes: twice the transform of the samples in pairs. -/
noncomputable def doubled (m : ℕ) (s : ℕ → ℝ) (k : ℕ) : Cplx ℝ :=
  (2 : ℕ) * dft (kissRoot m false) m (fun t => ⟨s (2 * t), s (2 * t + 1)⟩) k

/-- Writes to `tmpbuf` keep what the loop reads. -/
theorem Spectral.write (hp : Spectral st freqdata m s mem) (hfreq : freqdata.buf ≠ st.tmpbuf.buf)
    (j : ℕ) (v : Cplx ℝ) : Spectral st freqdata m s (mem.write (st.tmpbuf.nth j) v) := by
  have hne : ∀ k, freqdata.nth k ≠ st.tmpbuf.nth j := fun k heq => hfreq (Loc.buf.inj heq).1
  refine ⟨fun k hk => ?_, fun k hk hkm => ?_⟩
  · rw [mem.val_write_ne _ (hne k), hp.freq k hk]
  · rw [mem.val_write_ne _ (by simp [Ptr.nth]), hp.super k hk hkm]

/-- One round, on the two values that it computes. The second is stored with the wrong sign of
its imaginary part first. -/
theorem fftriAt_run (hm : st.substate.nfft = m) (hk : 0 < k) (hkm : k ≤ m / 2)
    (hmem : Spectral st freqdata m s mem) :
    ∃ v, ((fftriAt st freqdata k).run mem).2 =
      ((mem.write (st.tmpbuf.nth k) (doubled m s k)).write (st.tmpbuf.nth (m - k)) v).write
        (st.tmpbuf.nth (m - k)) (doubled m s (m - k)) := by
  have hm0 : 0 < m := by omega
  have hlt : k < m := by omega
  set ω := kissRoot (2 * m) false with hω
  have hhalf : Half ω m s k _ _ := ⟨rfl, rfl⟩
  set e := dft (ω ^ 2) m (fun t => ofReal (s (2 * t))) k
  set o := dft (ω ^ 2) m (fun t => ofReal (s (2 * t + 1))) k
  have hpow := kissRoot_double_pow hm0
  have hunit := kissRoot_unit (2 * m) false
  have hx : mem.val (freqdata.nth k) = e + ω ^ k * o :=
    (hmem.freq k hlt.le).trans hhalf.full
  have hx' : mem.val (freqdata.nth (m - k)) = conj (e - ω ^ k * o) :=
    (hmem.freq (m - k) (by omega)).trans (hhalf.full_mirror hpow hunit hk hlt)
  have hz : doubled m s k = 2 * (e + I * o) := by
    rw [doubled, Nat.cast_ofNat, ← kissRoot_double_sq hm0, hhalf.packed]
  have hz' : doubled m s (m - k) = 2 * (conj e + I * conj o) := by
    rw [doubled, Nat.cast_ofNat, ← kissRoot_double_sq hm0, hhalf.packed_mirror hpow hunit hk hlt]
  have htw := hmem.super k hk hkm
  rw [superRoot, if_pos rfl] at htw
  have hwunit : ω ^ k * conj (ω ^ k) = 1 := by
    rw [map_pow, ← mul_pow, hunit, one_pow]
  -- the sum and the rotated difference are twice the two halves
  have hfek : cAdd (e + ω ^ k * o) (conj (conj (e - ω ^ k * o))) = 2 * e := by
    rw [conj_conj]
    rw [cAdd_eq]
    ring
  have hfok : cMul (cSub (e + ω ^ k * o) (conj (conj (e - ω ^ k * o))))
      (conj (ω ^ k * -I)) = 2 * (I * o) := by
    rw [conj_conj, map_mul, show conj (-I : Cplx ℝ) = I by ext <;> simp]
    rw [cMul_eq, cSub_eq]
    linear_combination (2 * I * o) * hwunit
  have hflip : ∀ b : Cplx ℝ, (⟨b.real, -b.imag⟩ : Cplx ℝ) = conj b := fun _ => rfl
  simp only [fftriAt, run_bind, run_get, run_put, hm, hx, hx', htw, hz, hz', ← hω,
    Memory.val_write_self, hflip, hfek, hfok]
  refine ⟨cSub (2 * e) (2 * (I * o)), ?_⟩
  congr 1
  · rw [cAdd_eq, mul_add]
  · have hsign : ∀ c : Cplx ℝ, (⟨c.real, c.imag * -1⟩ : Cplx ℝ) = conj c := by
      intro c
      ext <;> simp
    have hI : conj (I : Cplx ℝ) = -I := by ext <;> simp
    rw [hsign, cSub_eq, map_sub, map_mul, map_mul, map_mul, hI, map_ofNat]
    ring

/-- The values for which the loop has run. -/
structure Repacked (st : KissFftrState ℝ) (m : ℕ) (s : ℕ → ℝ) (k : ℕ)
    (mem : Memory Loc (Cplx ℝ)) : Prop where
  zero : mem.val (st.tmpbuf.nth 0) = doubled m s 0
  low : ∀ j, 0 < j → j < k → mem.val (st.tmpbuf.nth j) = doubled m s j
  high : ∀ j, 0 < j → j < k → mem.val (st.tmpbuf.nth (m - j)) = doubled m s (m - j)

/-- The loop of `kiss_fftri` leaves twice the transform of the samples in pairs. -/
theorem fftri_loop (hm : st.substate.nfft = m) (hbuf : freqdata.buf ≠ st.tmpbuf.buf)
    (hmem : Spectral st freqdata m s mem) (h0 : mem.val (st.tmpbuf.nth 0) = doubled m s 0) :
    (forRange 1 (m / 2 + 1) () fun k _ => fftriAt st freqdata k).Leaves mem fun _ mem' =>
      ∀ k, k < m → mem'.val (st.tmpbuf.nth k) = doubled m s k := by
  refine (leaves_forRange (by omega) (fun k _ mem' =>
    Spectral st freqdata m s mem' ∧ Repacked st m s k mem') ⟨hmem, h0, ?_, ?_⟩ ?_).mono
      fun _ mem' ⟨_, h⟩ k hk => ?_
  · exact fun j hj hj' => absurd hj' (by omega)
  · exact fun j hj hj' => absurd hj' (by omega)
  · rintro k _ mem' h1 h2 ⟨hp, hu⟩
    obtain ⟨v, hrun⟩ := fftriAt_run hm h1 (by omega) hp
    unfold Leaves
    rw [hrun]
    -- the round writes the cells `k` and `m - k`
    refine ⟨((hp.write hbuf _ _).write hbuf _ _).write hbuf _ _, ?_, fun j hj hjk => ?_,
      fun j hj hjk => ?_⟩
    · rw [Memory.val_write_ne _ _ (by rw [Ne, nth_inj]; omega),
        Memory.val_write_ne _ _ (by rw [Ne, nth_inj]; omega),
        Memory.val_write_ne _ _ (by rw [Ne, nth_inj]; omega), hu.zero]
    · simp only [Memory.val_write, nth_inj]
      split_ifs with hjm hjk'
      · rw [hjm]
      · rw [hjk']
      · exact hu.low j hj (by omega)
    · simp only [Memory.val_write, nth_inj]
      split_ifs with hjm hjk'
      · rw [hjm]
      · rw [hjk']
      · exact hu.high j hj (by omega)
  -- after the last round every cell has been one of the two
  · rcases k.eq_zero_or_pos with rfl | hpos
    · exact h.zero
    rcases (by omega : k < m / 2 + 1 ∨ m - k < m / 2 + 1) with hlow | hhigh
    · exact h.low k hpos hlow
    · have hval := h.high (m - k) (by omega) hhigh
      rwa [show m - (m - k) = k by omega] at hval

/-- The value that is not made by the loop. -/
theorem doubled_zero (hm : 0 < m) {a b : Cplx ℝ} (ha : a = spectrum m s 0)
    (hb : b = spectrum m s m) : (⟨a.real + b.real, a.real - b.real⟩ : Cplx ℝ) = doubled m s 0 := by
  obtain ⟨hzero, hlast⟩ := spectrum_ends (s := s) hm rfl
  rw [ha, hb, hzero, hlast, doubled, Nat.cast_ofNat, two_mul]
  ext <;> simp

/-- A round reads and writes the two values that it is about. -/
theorem fftriAt_within (hm : st.substate.nfft = m) (hk : 0 < k) (hkm : k ≤ m / 2) :
    (fftriAt st freqdata k).Within (superTable st ∪ block freqdata (m + 1) ∪ block st.tmpbuf m)
      (block st.tmpbuf m) := by
  have hlow : Loc.superTwiddle st.substate.addr (k - 1) ∈ superTable st :=
    ⟨k - 1, by omega, rfl⟩
  have hread : ∀ j, j ≤ m → freqdata.nth j ∈ superTable st ∪ block freqdata (m + 1) :=
    fun j hj => .inr ⟨j, by omega, rfl⟩
  have hlast : st.tmpbuf.nth (m - k) ∈ block st.tmpbuf m := ⟨m - k, by omega, rfl⟩
  unfold fftriAt
  simp only [within_get_bind, within_put_bind, within_put_iff, hm]
  exact ⟨.inl (hread k (by omega)), fun _ => ⟨.inl (hread (m - k) (by omega)), fun _ =>
    ⟨.inl (.inl hlow), fun _ => ⟨⟨k, by omega, rfl⟩, hlast, .inr hlast, fun _ => hlast⟩⟩⟩⟩

/-- `kiss_fftri`, when it does not exit, on the transform of the samples `s`. -/
theorem kissFftri_leaves {tmp : ℕ} (h : RConfigured addr m tmpbuf true st) (hm : 0 < m)
    (h30 : m ≤ 2 ^ 30) (htime : timedata.buf ≠ tmpbuf.buf) (hfreq : freqdata.buf ≠ tmpbuf.buf)
    (hmem : RHolds st mem) (hs : ∀ k, k ≤ m → mem.val (freqdata.nth k) = spectrum m s k) :
    ∃ t, kissFftri st tmp freqdata timedata = .ok t ∧ t.Leaves mem fun _ mem' =>
      ∀ t, t < 2 * m → sample mem' timedata t = (2 * m : ℕ) * s t := by
  have hnfft := h.sub.nfft_eq
  rw [← h.tmpbuf_eq] at htime hfreq
  rw [kissFftri, h.sub.inverse_eq, if_pos rfl]
  refine ⟨_, rfl, ?_⟩
  have hspec : Spectral st freqdata m s mem := by
    refine ⟨hs, fun k hk hkm => ?_⟩
    rw [hmem.super (k - 1) (by omega), h.super (k - 1) (by omega), Nat.sub_add_cancel hk]
  rw [hnfft]
  -- the value at zero, and with it what the loop starts from
  set mem₁ := mem.write (st.tmpbuf.nth 0) ⟨(mem.val (freqdata.nth 0)).real +
    (mem.val (freqdata.nth m)).real, (mem.val (freqdata.nth 0)).real -
    (mem.val (freqdata.nth m)).real⟩ with hmem₁
  have hzero : mem₁.val (st.tmpbuf.nth 0) = doubled m s 0 := by
    rw [hmem₁, Memory.val_write_self]
    exact doubled_zero hm (hs 0 hm.le) (hs m le_rfl)
  have hloop := fftri_loop hnfft hfreq (hspec.write hfreq 0 _) hzero
  have hholds : Holds st.substate ((forRange 1 (m / 2 + 1) () fun k _ =>
      fftriAt st freqdata k).run mem₁).2 := by
    intro i hi
    rw [(within_forRange fun k hk hkm => fftriAt_within hnfft hk (by omega)).frame mem₁
      (by simp [block, Ptr.nth]), hmem₁, mem.val_write_ne _ (by simp [Ptr.nth]),
      hmem.sub i hi]
  rw [leaves_get_bind, leaves_get_bind, leaves_put_bind, ← hmem₁]
  -- the transform needs the table and what the loop has left
  refine Leaves.bind (P := fun _ mem₂ => Holds st.substate mem₂ ∧
    ∀ k, k < m → mem₂.val (st.tmpbuf.nth k) = doubled m s k) ⟨hholds, hloop⟩ ?_
  rintro _ mem₂ ⟨hholds₂, hval⟩
  refine (kissFftStride_leaves h.sub hm h30 (apart_of_buf_ne htime.symm) hholds₂).mono
    fun _ mem₃ hdft t ht => ?_
  -- the inverse transform makes `m` times twice the pairs of samples
  have hpair : ∀ k, k < m → mem₃.val (timedata.nth k) =
      (m : Cplx ℝ) * (2 * ⟨s (2 * k), s (2 * k + 1)⟩) := by
    intro k hk
    have htwice : ∀ k, k < m → mem₂.val (st.tmpbuf.nth (k * 1)) =
        dft (kissRoot m false) m (fun t => 2 * ⟨s (2 * t), s (2 * t + 1)⟩) k := by
      intro k hk
      rw [mul_one, hval k hk, doubled, Nat.cast_ofNat, dft_mul_left]
    rw [hdft k hk, dft_congr htwice,
      (kissRoot_roots hm false).root.dft_inv (kissRoot_inv m) _ hk]
  unfold sample
  rw [hpair (t / 2) (by omega), two_mul]
  split_ifs with hpar
  · rw [show 2 * (t / 2) = t by omega]
    simp
    ring
  · rw [show 2 * (t / 2) + 1 = t by omega]
    simp
    ring

theorem kissFftri_within {tmp : ℕ} (h : RConfigured addr m tmpbuf true st) (hm : 0 < m)
    (h30 : m ≤ 2 ^ 30) (htime : timedata.buf ≠ tmpbuf.buf) :
    ∃ t, kissFftri st tmp freqdata timedata = .ok t ∧ t.Within
      (table st.substate ∪ block freqdata (m + 1) ∪
        (superTable st ∪ block tmpbuf m ∪ block timedata m))
      (block tmpbuf m ∪ block timedata m) := by
  have hnfft := h.sub.nfft_eq
  rw [kissFftri, h.sub.inverse_eq, if_pos rfl]
  refine ⟨_, rfl, ?_⟩
  have hout : (kissFft st.substate tmp st.tmpbuf timedata).Within _ _ :=
    kissFftStride_within h.sub hm h30
  rw [← h.tmpbuf_eq] at htime ⊢
  rw [outputs_of_buf_ne htime.symm] at hout
  rw [hnfft, within_get_bind]
  -- the first value, the loop, and the transform out of the temporary buffer
  refine ⟨.inl (.inr ⟨0, by omega, rfl⟩), fun a => ?_⟩
  rw [within_get_bind]
  refine ⟨.inl (.inr ⟨m, by omega, rfl⟩), fun b => ?_⟩
  rw [within_put_bind]
  refine ⟨.inl ⟨0, hm, rfl⟩, ?_⟩
  refine Within.bind (within_forRange fun k hk hkm => ?_) fun _ => hout.mono ?_ ?_
  · refine (fftriAt_within hnfft hk (by omega)).mono ?_ Set.subset_union_left
    rintro l ((hl | hl) | hl)
    · exact .inr (.inl (.inl hl))
    · exact .inl (.inr hl)
    · exact .inr (.inl (.inr hl))
  · rintro l ((hl | ⟨t, ht, rfl⟩) | hl)
    · exact .inl (.inl hl)
    · exact .inr (.inl (.inr ⟨t, ht, by rw [mul_one]⟩))
    · exact .inr (.inr hl)
  · exact Set.subset_union_right

end Inverse

/-! ### The calls -/

theorem RHolds.congr {st : KissFftrState ℝ} {mem mem' : Memory Loc (Cplx ℝ)} (h : RHolds st mem)
    (hval : ∀ l, (∀ b i, l ≠ .buf b i) → mem'.val l = mem.val l) : RHolds st mem' := by
  refine ⟨fun i hi => ?_, fun i hi => ?_⟩
  · rw [hval _ (by simp), h.sub i hi]
  · rw [hval _ (by simp), h.super i hi]

/-- **`kiss_fftr`.** For every even length up to `2 * maxHalf`, the configuration that
`kiss_fftr_alloc` makes in the block `b` lets `kiss_fftr` leave the first half of the transform of
the real samples, with the value at `nfft / 2`, and no access is out of bounds. The samples
and the result must not be in that block. -/
theorem kissFftr_spec (junk : ℕ → Cplx ℝ) {S : Sizes} {a : RMem} {b : RBlock} {m : ℕ}
    (hm : 0 < m) (hmax : m ≤ maxHalf) (hsize : sizeNeeded S m < 2 ^ 64)
    (hb : a.block (sizeNeeded S m) = some b) :
    Ends (kissFftrAlloc exactLibm junk S a (2 * m) false) fun r =>
      ∃ st, r.1 = some st ∧ ∀ (tmp : ℕ) (timedata freqdata : Ptr),
        timedata.buf ≠ b.tmpbuf.buf → freqdata.buf ≠ b.tmpbuf.buf →
        ∃ t, kissFftr st tmp timedata freqdata = .ok t ∧
          t.Within
            (table st.substate ∪ samples timedata 1 m ∪ (superTable st ∪ block b.tmpbuf m))
            (block b.tmpbuf m ∪ block freqdata (m + 1)) ∧
          ∀ mem : Memory Loc (Cplx ℝ), RHolds st mem → t.Leaves mem fun _ mem' =>
            ∀ k, k ≤ m → mem'.val (freqdata.nth k) = spectrum m (sample mem timedata) k := by
  have h30 : m ≤ 2 ^ 30 := by unfold maxHalf at hmax; omega
  refine (kissFftrAlloc_spec junk a hm hmax hsize false).mono ?_
  rintro r ⟨-, hr⟩
  rw [hb] at hr
  obtain ⟨st, hst, h⟩ := hr
  refine ⟨st, hst, fun tmp timedata freqdata htime hfreq => ?_⟩
  obtain ⟨t, ht, hin⟩ := kissFftr_within h hm h30 htime
  refine ⟨t, ht, hin, fun mem hmem => ?_⟩
  obtain ⟨t', ht', hleaves⟩ := kissFftr_leaves h hm h30 htime hfreq hmem
  cases ht.symm.trans ht'
  exact hleaves

/-- The sizes for pointers of eight bytes and `float` scalars. -/
def sizes : Sizes := ⟨272, 24, 8⟩

/-- The transform of twelve real samples. -/
theorem kissFftr_twelve :
    Ends (kissFftrAlloc exactLibm (fun _ => 0) sizes ⟨some ⟨0, ⟨1, 0⟩⟩, none, none⟩ 12 false)
      fun r => ∃ st t, r.1 = some st ∧ kissFftr st 4 ⟨2, 0⟩ ⟨3, 0⟩ = .ok t ∧
        ∀ mem : Memory Loc (Cplx ℝ), RHolds st mem → t.Leaves mem fun _ mem' =>
          ∀ k, k ≤ 6 → mem'.val (Ptr.nth ⟨3, 0⟩ k) = spectrum 6 (sample mem ⟨2, 0⟩) k := by
  refine (kissFftr_spec (fun _ => 0) (by decide : 0 < 6) (by decide) (by decide) rfl).mono ?_
  rintro r ⟨st, hst, h⟩
  obtain ⟨t, ht, -, hleaves⟩ := h 4 ⟨2, 0⟩ ⟨3, 0⟩ (by decide) (by decide)
  exact ⟨st, t, hst, ht, hleaves⟩

/-- **Real samples, there and back.** `kiss_fftri` makes `nfft` times the samples of what
`kiss_fftr` made of them, for every even length up to `2 * maxHalf`. -/
theorem kissFftr_roundTrip (junk : ℕ → Cplx ℝ) {S : Sizes} {a a' : RMem} {b b' : RBlock} {m : ℕ}
    (hm : 0 < m) (hmax : m ≤ maxHalf) (hsize : sizeNeeded S m < 2 ^ 64)
    (hb : a.block (sizeNeeded S m) = some b) (hb' : a'.block (sizeNeeded S m) = some b') :
    Ends (do
      let fwd ← kissFftrAlloc exactLibm junk S a (2 * m) false
      let inv ← kissFftrAlloc exactLibm junk S a' (2 * m) true
      pure (fwd.1, inv.1)) fun cfg =>
      ∃ fwd inv, cfg = (some fwd, some inv) ∧ ∀ (tmp : ℕ) (x y z : Ptr),
        x.buf ≠ b.tmpbuf.buf → y.buf ≠ b.tmpbuf.buf → y.buf ≠ b'.tmpbuf.buf →
        z.buf ≠ b'.tmpbuf.buf →
        ∃ t u, kissFftr fwd tmp x y = .ok t ∧ kissFftri inv tmp y z = .ok u ∧
          ∀ mem : Memory Loc (Cplx ℝ), RHolds fwd mem → RHolds inv mem →
            (do t; u).Leaves mem fun _ mem' =>
              ∀ k, k < 2 * m → sample mem' z k = (2 * m : ℕ) * sample mem x k := by
  have h30 : m ≤ 2 ^ 30 := by unfold maxHalf at hmax; omega
  refine (kissFftrAlloc_spec junk a hm hmax hsize false).bind ?_
  rintro r ⟨-, hr⟩
  rw [hb] at hr
  obtain ⟨fwd, hfwd₁, hfwd⟩ := hr
  refine (kissFftrAlloc_spec junk a' hm hmax hsize true).bind ?_
  rintro r' ⟨-, hr'⟩
  rw [hb'] at hr'
  obtain ⟨inv, hinv₁, hinv⟩ := hr'
  refine ends_pure ⟨fwd, inv, by rw [hfwd₁, hinv₁], fun tmp x y z hxa hya hyb hzb => ?_⟩
  obtain ⟨t, ht, hin⟩ := kissFftr_within hfwd hm h30 hxa
  obtain ⟨u, hu, -⟩ := kissFftri_within hinv hm h30 hzb
  refine ⟨t, u, ht, hu, fun mem hmem₁ hmem₂ => ?_⟩
  obtain ⟨t', ht', hleaves⟩ := kissFftr_leaves hfwd hm h30 hxa hya hmem₁
  cases ht.symm.trans ht'
  -- the first call writes no table
  have htable : RHolds inv (t.run mem).2 := by
    refine hmem₂.congr fun l hl => hin.frame mem ?_
    rintro (⟨i, -, rfl⟩ | ⟨i, -, rfl⟩)
    · exact hl _ _ rfl
    · exact hl _ _ rfl
  refine Leaves.bind (P := fun _ mem' => RHolds inv mem' ∧ ∀ k, k ≤ m →
    mem'.val (y.nth k) = spectrum m (sample mem x) k) ⟨htable, hleaves⟩ ?_
  rintro _ mem' ⟨hmem', hs⟩
  obtain ⟨u', hu', hback⟩ := kissFftri_leaves hinv hm h30 hzb hyb hmem' hs
  cases hu.symm.trans hu'
  exact hback

/-- Twelve real samples, the second configuration in a block of the caller. -/
theorem kissFftr_roundTrip_twelve :
    Ends (do
      let fwd ← kissFftrAlloc exactLibm (fun _ => 0) sizes ⟨some ⟨0, ⟨1, 0⟩⟩, none, none⟩ 12 false
      let inv ← kissFftrAlloc exactLibm (fun _ => 0) sizes ⟨none, some ⟨1, ⟨2, 0⟩⟩, some 500⟩ 12
        true
      pure (fwd.1, inv.1)) fun cfg =>
      ∃ fwd inv t u, cfg = (some fwd, some inv) ∧ kissFftr fwd 6 ⟨3, 0⟩ ⟨4, 0⟩ = .ok t ∧
        kissFftri inv 6 ⟨4, 0⟩ ⟨5, 0⟩ = .ok u ∧
          ∀ mem : Memory Loc (Cplx ℝ), RHolds fwd mem → RHolds inv mem →
            (do t; u).Leaves mem fun _ mem' =>
              ∀ k, k < 12 → sample mem' ⟨5, 0⟩ k = (12 : ℕ) * sample mem ⟨3, 0⟩ k := by
  refine (kissFftr_roundTrip (fun _ => 0) (by decide : 0 < 6) (by decide) (by decide) rfl
    rfl).mono ?_
  rintro _ ⟨fwd, inv, rfl, h⟩
  obtain ⟨t, u, ht, hu, hleaves⟩ := h 6 ⟨3, 0⟩ ⟨4, 0⟩ ⟨5, 0⟩ (by decide) (by decide) (by decide)
    (by decide)
  exact ⟨fwd, inv, t, u, rfl, ht, hu, hleaves⟩

end SqlCode.KissFft
