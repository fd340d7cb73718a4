import SqlCode.RgTest.Model
import SqlCode.Dft.Stages

/-!
# The fast `FFT` of `rg_test` against its quadratic `DFT`

`FFT_remap` splits even from odd entries and recurses into both halves, so it is
the bit reversal permutation (`fftRemap_spec`). A pass of `FFT` scans all
indices and does a butterfly at each `j` with bit `i` set, with the twiddle
exponent `z` that counts such indices since the last one with the bit clear:
in the upper half of a block of `2 * 2^i` cells it is `2^(k - i - 1)` times the
offset, so the pass is the one of a radix-2 transform (`pass_ends`), and the
passes leave the transform in `src_com` (`fft_spec`). `DFT` adds up the same
transform term by term (`dft_spec`).
-/

namespace SqlCode.RgTest

open Exec Dft

variable {R : Type} [Field R] {len dlen : ℕ}

/-- `getWN` gives the powers of a root of unity of order `n`. -/
def GetsRoots (M : Libm R) (ω : Cplx R) (n : ℕ) : Prop :=
  ∀ z : ℕ, getWN M z n = ω ^ z

/-! ### The quadratic transform -/

/-- **`DFT`** leaves the transform of `src`. -/
theorem dft_spec {M : Libm R} {ω : Cplx R} {n : ℕ} (hM : GetsRoots M ω n)
    (src : Vector R len) (dst : Vector (Cplx R) dlen) (hlen : n ≤ len) (hdlen : n ≤ dlen) :
    Ends (dft M src dst n) fun y =>
      (∀ m, m < n → cell y m = Dft.dft ω n (fun t => Cplx.ofReal (cell src t)) m) ∧
        ∀ m, n ≤ m → cell y m = cell dst m := by
  refine (ends_forCells (fun m => Dft.dft ω n (fun t => Cplx.ofReal (cell src t)) m)
    (Nat.zero_le n) fun m y _ hm _ => ?_).mono fun y hy =>
      ⟨fun m hm => hy.1 m (Nat.zero_le m) hm, fun m hm => hy.2 m (Or.inr hm)⟩
  -- after `t` rounds the two sums are the parts of a sum of `t` terms
  refine (ends_forRange (Nat.zero_le n) (fun t (s : R × R) =>
    (⟨s.1, s.2⟩ : Cplx R) = Dft.dft ω t (fun t => Cplx.ofReal (cell src t)) m) ?_ ?_).bind
      fun s hs => ?_
  · rfl
  · rintro t ⟨real, imagin⟩ - ht hs
    have hangle : M.pi * (2 : ℕ) * m * t / n = (2 : ℕ) * M.pi * ((t * m : ℕ) : R) / n := by
      push_cast
      ring
    have hterm := hM (t * m)
    rw [getWN, ← hangle] at hterm
    simp only [rd_eq src (lt_of_lt_of_le ht hlen), pure_bind]
    refine ends_pure ?_
    change _ = ∑ t ∈ Finset.range (t + 1), _
    rw [Finset.sum_range_succ]
    change _ = Dft.dft ω t (fun t => Cplx.ofReal (cell src t)) m + _
    rw [← hs, ← hterm]
    ext <;> simp
  · obtain ⟨real, imagin⟩ := s
    change Ends (wr y m ⟨real, imagin⟩) _
    rw [wr_eq y (lt_of_lt_of_le hm hdlen), ← hs]
    exact ends_pure ⟨cell_set_self _ _ _, fun t ht => cell_set_ne _ _ _ ht⟩

/-! ### The recursive permutation -/

/-- The first loop of `FFT_remap` separates even from odd entries. -/
private theorem toTemp_ends {h off : ℕ} (temp : Vector R (2 * h)) (src : Vector R len)
    (hlen : off + 2 * h ≤ len) :
    Ends (forRange 0 (2 * h) temp fun i temp => do
      if i % 2 = 0 then
        wr temp (i / 2) (← rd src (off + i))
      else
        wr temp ((2 * h + i) / 2) (← rd src (off + i))) fun temp =>
      ∀ t, t < h → cell temp t = cell src (off + 2 * t) ∧
        cell temp (h + t) = cell src (off + (2 * t + 1)) := by
  -- of the pair `t` the even entry is copied in round `2 * t`, the odd one in round `2 * t + 1`
  refine (ends_forRange (Nat.zero_le _) (fun i temp => ∀ t, t < h →
    (2 * t < i → cell temp t = cell src (off + 2 * t)) ∧
      (2 * t + 1 < i → cell temp (h + t) = cell src (off + (2 * t + 1))))
    (fun t _ => ⟨fun h => absurd h (by omega), fun h => absurd h (by omega)⟩) ?_).mono
      fun temp htemp t ht => ⟨(htemp t ht).1 (by omega), (htemp t ht).2 (by omega)⟩
  intro i temp _ hi htemp
  rw [rd_eq src (by omega), pure_bind, pure_bind]
  split
  -- a round writes one cell, and the other half of every pair is as it was
  · rw [wr_eq temp (by omega)]
    refine ends_pure fun t ht => ⟨fun hti => ?_, fun hti => ?_⟩
    · rw [cell_set]
      split
      · congr 1
        omega
      · exact (htemp t ht).1 (by omega)
    · rw [cell_set_ne _ _ _ (by omega)]
      exact (htemp t ht).2 (by omega)
  · rw [wr_eq temp (by omega)]
    refine ends_pure fun t ht => ⟨fun hti => ?_, fun hti => ?_⟩
    · rw [cell_set_ne _ _ _ (by omega)]
      exact (htemp t ht).1 (by omega)
    · rw [cell_set]
      split
      · congr 1
        omega
      · exact (htemp t ht).2 (by omega)

/-- **The two loops of `FFT_remap`** on an even number of entries. -/
theorem deinterleave_ends (junk : ℕ → R) {h off : ℕ} (src : Vector R len)
    (hlen : off + 2 * h ≤ len) :
    Ends (deinterleave junk src off (2 * h)) fun y =>
      (∀ t, t < h → cell y (off + t) = cell src (off + 2 * t) ∧
        cell y (off + (h + t)) = cell src (off + (2 * t + 1))) ∧
      ∀ t, t < off ∨ off + 2 * h ≤ t → cell y t = cell src t := by
  refine (toTemp_ends _ src hlen).bind fun temp htemp => ?_
  -- the copy back: what is done comes from `temp`, and the rest is as before
  refine (ends_forRange (Nat.zero_le _) (fun i y =>
    (∀ t, t < i → cell y (off + t) = cell temp t) ∧
      ∀ t, t < off ∨ off + i ≤ t → cell y t = cell src t)
    ⟨fun t ht => absurd ht (by omega), fun _ _ => rfl⟩ ?_).mono
      fun y hy => ⟨fun t ht => ?_, hy.2⟩
  · rintro i y - hi ⟨hdone, htodo⟩
    rw [rd_eq temp hi, pure_bind, wr_eq y (by omega)]
    refine ends_pure ⟨fun t ht => ?_, fun t ht => ?_⟩
    · rw [cell_set]
      split
      · congr 1
        omega
      · exact hdone t (by omega)
    · rw [cell_set_ne _ _ _ (by omega), htodo t (by omega)]
  · rw [hy.1 t (by omega), hy.1 (h + t) (by omega)]
    exact htemp t ht

omit [Field R] in
theorem fftRemap_one (junk : ℕ → R) (src : Vector R len) (off : ℕ) :
    Returns (fftRemap junk src off 1) src := by
  refine ⟨1, fun fuel hf => ?_⟩
  obtain ⟨fuel, rfl⟩ := Nat.exists_eq_add_of_le' hf
  rfl

omit [Field R] in
/-- **The recursion of `FFT_remap`**, free of the budget. -/
theorem fftRemap_rec {junk : ℕ → R} {src s₁ s₂ s₃ : Vector R len} {off n : ℕ} (hn : n ≠ 1)
    (h₁ : Returns (deinterleave junk src off n) s₁)
    (h₂ : Returns (fftRemap junk s₁ off (n / 2)) s₂)
    (h₃ : Returns (fftRemap junk s₂ (off + n / 2) (n / 2)) s₃) :
    Returns (fftRemap junk src off n) s₃ := by
  obtain ⟨n₁, h₁⟩ := h₁
  obtain ⟨n₂, h₂⟩ := h₂
  obtain ⟨n₃, h₃⟩ := h₃
  refine ⟨max n₁ (max n₂ n₃) + 1, fun fuel hf => ?_⟩
  obtain ⟨fuel, rfl⟩ := Nat.exists_eq_add_of_le' (le_trans (Nat.le_add_left 1 _) hf)
  have h₁ := h₁ fuel (by omega)
  have h₂ := h₂ fuel (by omega)
  have h₃ := h₃ fuel (by omega)
  change fftRemapFuel junk (fuel + 1) src off n = _
  rw [fftRemapFuel, if_neg hn, h₁]
  change (fftRemap junk s₁ off (n / 2)).run fuel >>= _ = _
  rw [h₂]
  exact h₃

/-- **`FFT_remap` is the bit reversal permutation** of its `2 ^ k` entries. The
induction follows the recursion, which permutes by the bits above the lowest. -/
theorem fftRemap_spec (junk : ℕ → R) (k : ℕ) (src : Vector R len) {off : ℕ}
    (hlen : off + 2 ^ k ≤ len) :
    Ends (fftRemap junk src off (2 ^ k)) fun y =>
      (∀ t, t < 2 ^ k → cell y (off + t) = cell src (off + bitRev k t)) ∧
        ∀ t, t < off ∨ off + 2 ^ k ≤ t → cell y t = cell src t := by
  induction k generalizing src off with
  | zero =>
    refine Ends.of_returns (fftRemap_one junk src off) ⟨fun t ht => ?_, fun _ _ => rfl⟩
    obtain rfl : t = 0 := by simpa using ht
    rfl
  | succ k ih =>
    rw [pow_succ'] at hlen ⊢
    have hpos := Nat.two_pow_pos k
    have hhalf : 2 * 2 ^ k / 2 = 2 ^ k := by omega
    -- the even entries go to the lower half, the odd ones to the upper half
    obtain ⟨s₁, h₁, hdone₁, hframe₁⟩ := deinterleave_ends junk src hlen
    obtain ⟨s₂, h₂, hdone₂, hframe₂⟩ := @ih s₁ off (by omega)
    obtain ⟨s₃, h₃, hdone₃, hframe₃⟩ := @ih s₂ (off + 2 ^ k) (by omega)
    rw [← hhalf] at h₂ h₃
    refine Ends.of_returns (fftRemap_rec (by omega) h₁ h₂ h₃) ⟨fun t ht => ?_, fun t ht => ?_⟩
    · -- the half an entry ends up in is its lowest bit
      rcases Nat.lt_or_ge t (2 ^ k) with hlo | hhi
      · have hrev := bitRev_add_top k (b := 0) hlo (by omega)
        rw [zero_mul, zero_add, add_zero] at hrev
        rw [hframe₃ _ (by omega), hdone₂ t hlo, (hdone₁ _ (bitRev_lt k t)).1, hrev]
      · obtain ⟨t, rfl⟩ := Nat.exists_eq_add_of_le hhi
        have hlo : t < 2 ^ k := by omega
        have hrev := bitRev_add_top k (b := 1) hlo (by omega)
        have hlt := bitRev_lt k t
        rw [one_mul] at hrev
        rw [← add_assoc, hdone₃ t hlo, add_assoc, hframe₂ _ (by omega),
          (hdone₁ _ hlt).2, hrev]
    · rw [hframe₃ t (by omega), hframe₂ t (by omega), hframe₁ t ht]

/-! ### The passes -/

/-- The loop `while (k /= 2) z++` counts the doublings. -/
theorem halvings_returns (k : ℕ) : Returns (halvings (2 ^ k)) k := by
  have hloop : ∀ z, Returns (whileLoop (fun s : ℕ × ℕ => s.1 / 2 != 0)
      (fun s => pure (s.1 / 2, s.2 + 1)) (2 ^ k, z)) (1, z + k) := by
    induction k with
    | zero =>
      intro z
      rw [pow_zero, add_zero]
      exact returns_while_false (by simp)
    | succ k ih =>
      intro z
      have hpos := Nat.two_pow_pos k
      have hhalf : 2 ^ (k + 1) / 2 = 2 ^ k := by
        rw [pow_succ]
        omega
      refine returns_while_true (by simp [hhalf]) (returns_pure _) ?_
      rw [hhalf, ← add_assoc, add_right_comm]
      exact ih (z + 1)
  have h := (hloop 0).bind (f := fun s => (pure s.2 : Prog ℕ)) (returns_pure _)
  rwa [zero_add] at h

section Pass

variable {M : Libm R} {ρ : RootTower (Cplx R)} {k i : ℕ}

/-- The twiddle factor at offset `o` of pass `i`. -/
private theorem getWN_eq (hM : GetsRoots M (ρ.root k) (2 ^ k)) (hi : i < k) (o : ℕ) :
    getWN M ((o * 2 ^ (k - i - 1) : ℕ) : R) ((2 ^ k : ℕ) : R) = ρ.root (i + 1) ^ o := by
  have hroot := ρ.root_pow_two_pow (i + 1) (k - i - 1)
  rw [show i + 1 + (k - i - 1) = k by omega] at hroot
  rw [hM, mul_comm, pow_mul, hroot]

/-- A round at an index with bit `i` set is a butterfly. -/
private theorem passAt_set {n j z : ℕ} (y : Vector (Cplx R) n) (hj : j < n)
    (hbit : j / 1 <<< i % 2 = 1) (hpos : 0 < 1 <<< i) (hle : 1 <<< i ≤ j) :
    Ends (passAt M n k i j (y, z)) fun s => s.2 = z + 1 <<< (k - i - 1) ∧
      ∀ t, cell s.1 t =
        if t = j then cell y (j - 1 <<< i) - getWN M z n * cell y j
        else if t = j - 1 <<< i then cell y (j - 1 <<< i) + getWN M z n * cell y j
        else cell y t := by
  have hnb : j - 1 <<< i < n := by omega
  have hne : j ≠ j - 1 <<< i := by omega
  have hmul : multyComplex (cell y j) (getWN M z n) = getWN M z n * cell y j := by
    rw [mul_comm]
    ext <;> simp [multyComplex]
    ring
  -- the product is written back before the sum and the difference are taken
  rw [passAt]
  simp only [if_pos hbit, rd_eq _ hj, wr_eq _ hj, rd_eq _ hnb, wr_eq _ hnb, pure_bind, hmul]
  refine ends_pure ⟨rfl, fun t => ?_⟩
  simp only [cell_set, if_true, if_neg hne.symm]
  split
  · rfl
  · rfl

/-- A round at any other index resets the twiddle exponent. -/
private theorem passAt_clear {n j : ℕ} (s : Vector (Cplx R) n × ℕ)
    (hbit : ¬ j / 1 <<< i % 2 = 1) : passAt M n k i j s = pure (s.1, 0) := by
  rw [passAt]
  exact if_neg hbit

/-- At the head of round `j` of a pass: the butterflies whose upper index is below
`j` are done, and within a block `z` is the twiddle exponent of the next one. -/
private structure OnPass (ρ : RootTower (Cplx R)) (k i : ℕ) (com : Vector (Cplx R) (2 ^ k))
    (j : ℕ) (s : Vector (Cplx R) (2 ^ k) × ℕ) : Prop where
  done : Butterflied (ρ.root (i + 1)) (2 ^ i) (2 ^ (k - (i + 1)))
    (fun b o => b * (2 * 2 ^ i) + o + 2 ^ i < j) (cell com) (cell s.1)
  twiddle : 0 < j % (2 * 2 ^ i) → s.2 = (j % (2 * 2 ^ i) - 2 ^ i) * 2 ^ (k - i - 1)

/-- The number of the half block that an index is in. -/
private theorem halfBlock (i b r : ℕ) :
    (b * (2 * 2 ^ i) + r) / 1 <<< i = b * 2 + r / 2 ^ i := by
  have hh : 1 <<< i = 2 ^ i := by rw [Nat.shiftLeft_eq, one_mul]
  rw [hh, ← mul_assoc, add_comm, Nat.add_mul_div_right _ _ (Nat.two_pow_pos i), add_comm]

private theorem mod_block (i b : ℕ) {r : ℕ} (hr : r < 2 * 2 ^ i) :
    (b * (2 * 2 ^ i) + r) % (2 * 2 ^ i) = r := by
  rw [add_comm, Nat.add_mul_mod_self_right, Nat.mod_eq_of_lt hr]

/-- A round in the lower half of a block. -/
private theorem OnPass.lower {b r z : ℕ} {com y : Vector (Cplx R) (2 ^ k)} (hr : r < 2 ^ i)
    (h : OnPass ρ k i com (b * (2 * 2 ^ i) + r) (y, z)) :
    Ends (passAt M (2 ^ k) k i (b * (2 * 2 ^ i) + r) (y, z))
      (OnPass ρ k i com (b * (2 * 2 ^ i) + r + 1)) := by
  rw [passAt_clear _ (by rw [halfBlock, Nat.div_eq_of_lt hr]; omega)]
  refine ends_pure ⟨h.done.congr fun b' o' _ ho' => ?_, fun _ => ?_⟩
  · -- no butterfly has its upper index here
    have hne : b' * (2 * 2 ^ i) + (o' + 2 ^ i) ≠ b * (2 * 2 ^ i) + r := fun he => by
      have hoff := (block_inj (by omega) (by omega : r < 2 * 2 ^ i) he).2
      omega
    omega
  · rw [add_assoc, mod_block i b (by omega), Nat.sub_eq_zero_of_le hr, zero_mul]

/-- A round in the upper half of a block is one butterfly. -/
private theorem OnPass.upper {b o z : ℕ} {com y : Vector (Cplx R) (2 ^ k)}
    (hM : GetsRoots M (ρ.root k) (2 ^ k)) (hi : i < k) (hb : b < 2 ^ (k - (i + 1)))
    (ho : o < 2 ^ i) (hj : b * (2 * 2 ^ i) + (o + 2 ^ i) < 2 ^ k)
    (h : OnPass ρ k i com (b * (2 * 2 ^ i) + (o + 2 ^ i)) (y, z)) :
    Ends (passAt M (2 ^ k) k i (b * (2 * 2 ^ i) + (o + 2 ^ i)) (y, z))
      (OnPass ρ k i com (b * (2 * 2 ^ i) + (o + 2 ^ i) + 1)) := by
  have hpos := Nat.two_pow_pos i
  have hh : 1 <<< i = 2 ^ i := by rw [Nat.shiftLeft_eq, one_mul]
  have hstep : 1 <<< (k - i - 1) = 2 ^ (k - i - 1) := by rw [Nat.shiftLeft_eq, one_mul]
  have hz := h.twiddle
  rw [mod_block i b (by omega), Nat.add_sub_cancel] at hz
  have hz : z = o * 2 ^ (k - i - 1) := hz (by omega)
  have hbit : (b * (2 * 2 ^ i) + (o + 2 ^ i)) / 1 <<< i % 2 = 1 := by
    rw [halfBlock, Nat.add_div_right _ hpos, Nat.div_eq_of_lt ho]
    omega
  have hlow : b * (2 * 2 ^ i) + (o + 2 ^ i) - 1 <<< i = b * (2 * 2 ^ i) + o := by omega
  refine (passAt_set y hj hbit (by omega) (by omega)).mono fun s hs => ?_
  obtain ⟨hsz, hsy⟩ := hs
  rw [hlow, hz, getWN_eq hM hi, ← add_assoc] at hsy
  refine ⟨(h.done.step (c := cell s.1) hb ho (by omega) ?_ ?_ ?_).congr
    fun b' o' _ ho' => ?_, fun hlt => ?_⟩
  · rw [hsy, if_neg (by omega), if_pos rfl]
  · rw [hsy, if_pos rfl]
  · intro t h1 h2
    rw [hsy, if_neg h2, if_neg h1]
  · -- the butterflies done now are those done before and this one
    constructor
    · rintro (h | ⟨rfl, rfl⟩) <;> omega
    · intro h
      rcases Nat.lt_succ_iff_lt_or_eq.mp h with h | h
      · exact Or.inl h
      · exact Or.inr (block_inj (w := 2 * 2 ^ i) (by omega) (by omega) (by omega))
  · -- the next round is in the same block, or its exponent does not matter
    have hr' : o + 2 ^ i + 1 < 2 * 2 ^ i := by
      by_contra hge
      rw [show b * (2 * 2 ^ i) + (o + 2 ^ i) + 1 = (b + 1) * (2 * 2 ^ i) by
        rw [add_mul]; omega, Nat.mul_mod_left] at hlt
      exact absurd hlt (by omega)
    rw [hsz, hz, hstep, add_assoc (b * _), mod_block i b hr',
      show o + 2 ^ i + 1 - 2 ^ i = o + 1 by omega]
    ring

/-- **One pass of `FFT`.** -/
theorem pass_ends (hM : GetsRoots M (ρ.root k) (2 ^ k)) (hi : i < k)
    (com : Vector (Cplx R) (2 ^ k)) :
    Ends (pass M (2 ^ k) k i com) fun y =>
      Butterflied (ρ.root (i + 1)) (2 ^ i) (2 ^ (k - (i + 1))) (fun _ _ => True)
        (cell com) (cell y) := by
  have hsize := two_pow_blocks hi
  have hpos := Nat.two_pow_pos i
  refine (ends_forRange (Nat.zero_le _) (OnPass ρ k i com) ⟨?_, ?_⟩ ?_).bind
    fun s hs => ends_pure ?_
  · exact (Butterflies.start _ _ _ _).congr fun b o _ _ => by simp
  · intro hlt
    simp at hlt
  · -- the round is in one half or the other of some block
    rintro j ⟨y, z⟩ - hj h
    obtain ⟨b, r, hr, rfl⟩ : ∃ b r, r < 2 * 2 ^ i ∧ j = b * (2 * 2 ^ i) + r :=
      ⟨j / (2 * 2 ^ i), j % (2 * 2 ^ i), Nat.mod_lt _ (by omega),
        (Nat.div_add_mod' j (2 * 2 ^ i)).symm⟩
    have hb : b < 2 ^ (k - (i + 1)) := by
      refine Nat.lt_of_mul_lt_mul_right (a := 2 * 2 ^ i) ?_
      omega
    rcases Nat.lt_or_ge r (2 ^ i) with hlo | hhi
    · exact h.lower hlo
    · obtain ⟨o, rfl⟩ := Nat.exists_eq_add_of_le' hhi
      exact h.upper hM hi hb (by omega) hj
  · refine hs.done.congr fun b o hb ho => ?_
    have hlt := block_lt (w := 2 * 2 ^ i) hb (by omega : o + 2 ^ i < 2 * 2 ^ i)
    have hdone : b * (2 * 2 ^ i) + o + 2 ^ i < 2 ^ k := by omega
    simpa using hdone

end Pass

/-! ### The whole transform -/

/-- **`FFT`** permutes `src` by bit reversal and leaves in `dst` the transform of
the original `src`. -/
theorem fft_spec {M : Libm R} {ρ : RootTower (Cplx R)} {k : ℕ}
    (hM : GetsRoots M (ρ.root k) (2 ^ k)) (junk : ℕ → R) (junkCom : ℕ → Cplx R)
    (src : Vector R len) (dst : Vector (Cplx R) dlen) (hlen : 2 ^ k ≤ len)
    (hdlen : 2 ^ k ≤ dlen) :
    Ends (fft M junk junkCom src dst (2 ^ k)) fun p =>
      (∀ t, t < 2 ^ k → cell p.1 t = cell src (bitRev k t)) ∧
      (∀ t, t < 2 ^ k → cell p.2 t
        = Dft.dft (ρ.root k) (2 ^ k) (fun t => Cplx.ofReal (cell src t)) t) ∧
      ∀ t, 2 ^ k ≤ t → cell p.1 t = cell src t ∧ cell p.2 t = cell dst t := by
  refine (fftRemap_spec junk k src (by omega)).bind fun rev hrev => ?_
  simp only [Nat.zero_add] at hrev
  refine (Ends.of_returns (halvings_returns k) rfl).bind fun k' hk' => ?_
  subst hk'
  rw [Nat.shiftLeft_eq, one_mul, if_neg (not_not.mpr rfl)]
  -- `src_com` holds the permuted samples
  refine (ends_forCells (fun t => Cplx.ofReal (cell rev t)) (Nat.zero_le _)
    fun i com _ hi _ => ?_).bind fun com₀ hcom₀ => ?_
  · rw [rd_eq rev (by omega), pure_bind, wr_eq com hi]
    exact ends_pure ⟨cell_set_self _ _ _, fun t ht => cell_set_ne _ _ _ ht⟩
  refine Ends.bind (P := fun com => BlockDft ρ 1 k (cell com₀) (cell com)) ?_ fun com hcom => ?_
  · have hloop := @ends_forRange _ 0 k com₀ (fun i com => pass M (2 ^ k) k i com) (Nat.zero_le k)
      (fun i com => BlockDft ρ (2 ^ (k - i)) i (cell com₀) (cell com))
      (BlockDft.start ρ _ _) fun i com _ hi hcom => ?_
    · rw [Nat.sub_self, pow_zero] at hloop
      exact hloop
    · -- a pass joins two blocks each
      rw [two_pow_sub hi] at hcom
      exact (pass_ends hM hi com).mono fun y hy => hcom.succ hy
  refine (ends_forCells (fun t => cell com t) (Nat.zero_le _)
    fun i y _ hi _ => ?_).bind fun out hout => ends_pure ⟨hrev.1, fun t ht => ?_, fun t ht => ?_⟩
  · rw [rd_eq com hi, pure_bind, wr_eq y (by omega)]
    exact ends_pure ⟨cell_set_self _ _ _, fun t ht => cell_set_ne _ _ _ ht⟩
  · rw [hout.1 t (Nat.zero_le t) ht]
    refine hcom.top (fun i hi => ?_) ht
    rw [hcom₀.1 i (Nat.zero_le i) hi, hrev.1 i hi]
  · exact ⟨hrev.2 t (Or.inr ht), hout.2 t (Or.inr ht)⟩

theorem exactLibm_getsRoots (n : ℕ) : GetsRoots exactLibm (cis (-(2 * Real.pi / n))) n := by
  intro z
  have hangle : (z : ℝ) * -(2 * Real.pi / n) = -((2 : ℕ) * Real.pi * z / n) := by
    push_cast
    ring
  rw [cis_pow, hangle, ← conj_cis]
  rfl

/-- **`FFT` against `DFT`.** For every `n = 2^k` and every real array, `FFT` writes
to `dst` what `DFT` writes, and leaves in `src` its bit reversal permutation. -/
theorem fft_eq_dft (k : ℕ) (src : Vector ℝ (2 ^ k)) (dst dst' : Vector (Cplx ℝ) (2 ^ k))
    (junk : ℕ → ℝ) (junkCom : ℕ → Cplx ℝ) :
    ∃ rev out, Returns (fft exactLibm junk junkCom src dst (2 ^ k)) (rev, out) ∧
      Returns (dft exactLibm src dst' (2 ^ k)) out ∧
      ∀ i : Fin (2 ^ k), rev.get i = src.get ⟨bitRev k i, bitRev_lt k i⟩ := by
  have hM : GetsRoots exactLibm (circleTower.root k) (2 ^ k) := by
    have h := exactLibm_getsRoots (2 ^ k)
    rwa [Nat.cast_pow, Nat.cast_ofNat, ← circleTower_root] at h
  obtain ⟨⟨rev, out⟩, hfft, hrev, hout, -⟩ :=
    fft_spec hM junk junkCom src dst le_rfl le_rfl
  obtain ⟨out', hdft, hout', -⟩ := dft_spec hM src dst' le_rfl le_rfl
  have heq : out' = out := ext_cell fun i hi => by rw [hout' i hi, hout i hi]
  rw [heq] at hdft
  refine ⟨rev, out, hfft, hdft, fun i => ?_⟩
  have h := hrev i i.isLt
  rwa [cell_eq i.isLt, cell_eq (bitRev_lt k i)] at h

end SqlCode.RgTest
