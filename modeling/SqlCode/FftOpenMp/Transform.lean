import SqlCode.FftOpenMp.Model
import SqlCode.Dft.Stages

/-!
# `cfft2` computes the discrete Fourier transform

Seen as arrays of complex numbers (`pairAt`), a call of `step` is a self-sorting
pass from one array to the other (`step_ends`). `cfft2` makes such a pass for
each group size `mj = 1, 2, …, n / 2`: the first one from `x` to `y`, those of
the loop back and forth under `tgle`, and the last one from `x` to `y` again,
after a copy when the loop has left its data in `y`. The invariant of the loop
(`Sorting`) is about the array that `tgle` names (`Work.current`), and the number
of its rounds comes from `m = (int) (log n / log 1.99)`, which is the exponent of
`n` for `n ≤ 2^30` (`log_quotient`).
-/

namespace SqlCode.FftOpenMp

open Exec Dft

variable {R : Type} [Field R] {xlen ylen wlen : ℕ}

/-- Entry `i` of a complex vector stored as doubles. -/
def pairAt (x : Vector R xlen) (i : ℕ) : Cplx R :=
  ⟨cell x (i * 2), cell x (i * 2 + 1)⟩

/-- Writing the two doubles of entry `p`. -/
theorem pairAt_set (x : Vector R xlen) {p : ℕ} (h0 : p * 2 < xlen) (h1 : p * 2 + 1 < xlen)
    (u v : R) (i : ℕ) :
    pairAt ((x.set (p * 2) u).set (p * 2 + 1) v) i = if i = p then ⟨u, v⟩ else pairAt x i := by
  unfold pairAt
  by_cases h : i = p
  · subst h
    rw [if_pos rfl, cell_set_self, cell_set_ne _ _ _ (by omega), cell_set_self]
  · rw [if_neg h, cell_set_ne _ _ _ (by omega), cell_set_ne _ _ _ (by omega),
      cell_set_ne _ _ _ (by omega), cell_set_ne _ _ _ (by omega)]

/-! ### The tables and the copy -/

/-- A loop that writes entry after entry. -/
private theorem ends_forPairs {n : ℕ} {body : ℕ → Vector R xlen → Prog (Vector R xlen)}
    {x : Vector R xlen} (v : ℕ → Cplx R)
    (hbody : ∀ k y, k < n →
      Ends (body k y) fun z => ∀ i, pairAt z i = if i = k then v k else pairAt y i) :
    Ends (forRange 0 n x body) fun y => ∀ i, i < n → pairAt y i = v i := by
  refine ends_forRange (Nat.zero_le n) (fun k y => ∀ i, i < k → pairAt y i = v i)
    (fun i hi => absurd hi (by omega)) fun k y _ hk hy => ?_
  refine (hbody k y hk).mono fun z hz i hi => ?_
  rw [hz i]
  split
  · next h => rw [h]
  · exact hy i (by omega)

/-- `cffti` stores the cosines and sines of the multiples of `2 π / n`. -/
theorem cffti_ends (M : Libm R) {n : ℕ} (w : Vector R wlen) (hlen : n / 2 * 2 ≤ wlen) :
    Ends (cffti M n w) fun w' => ∀ i, i < n / 2 →
      pairAt w' i = ⟨M.cos ((2 : ℕ) * M.pi / n * i), M.sin ((2 : ℕ) * M.pi / n * i)⟩ := by
  refine ends_forPairs _ fun k y hk => ?_
  have h0 : k * 2 < wlen := by omega
  have h1 : k * 2 + 1 < wlen := by omega
  simp only [Nat.add_zero, wr_eq _ h0, wr_eq _ h1, pure_bind]
  exact ends_pure (pairAt_set y h0 h1 _ _)

theorem ccopy_ends {n : ℕ} (x : Vector R xlen) (y : Vector R ylen) (hx : n * 2 ≤ xlen)
    (hy : n * 2 ≤ ylen) :
    Ends (ccopy n x y) fun z => ∀ i, i < n → pairAt z i = pairAt x i := by
  refine ends_forPairs _ fun k z hk => ?_
  have h0 : k * 2 < xlen := by omega
  have h1 : k * 2 + 1 < xlen := by omega
  have h0' : k * 2 < ylen := by omega
  have h1' : k * 2 + 1 < ylen := by omega
  simp only [Nat.add_zero, rd_eq _ h0, rd_eq _ h1, wr_eq _ h0', wr_eq _ h1', pure_bind]
  exact ends_pure (pairAt_set z h0' h1' _ _)

/-! ### One pass -/

/-- The entries that a pass with group size `mj` has written, when the pairs in
`D` are done. -/
private def Written (ω : Cplx R) (mj lj : ℕ) (D : ℕ → ℕ → Prop) (a a' : ℕ → Cplx R) : Prop :=
  ∀ j k, j < lj → k < mj → D j k →
    a' (j * (2 * mj) + k) = a (j * mj + k) + a (j * mj + k + lj * mj) ∧
    a' (j * (2 * mj) + mj + k) = ω ^ (j * mj) * (a (j * mj + k) - a (j * mj + k + lj * mj))

/-- **One round of the inner loop** writes two entries. -/
private theorem stepAt_ends (src : Vector R xlen) (dst : Vector R ylen) (wjw : Cplx R)
    {mj lj j k : ℕ} (hj : j < lj) (hk : k < mj) (hx : lj * (2 * mj) * 2 ≤ xlen)
    (hy : lj * (2 * mj) * 2 ≤ ylen) :
    Ends (stepAt src 0 (lj * mj * 2) 0 (mj * 2) wjw j mj k dst) fun z => ∀ i, pairAt z i =
      if i = j * (2 * mj) + mj + k then
        wjw * (pairAt src (j * mj + k) - pairAt src (j * mj + k + lj * mj))
      else if i = j * (2 * mj) + k then
        pairAt src (j * mj + k) + pairAt src (j * mj + k + lj * mj)
      else pairAt dst i := by
  -- where the four entries lie
  have hin := block_lt (w := mj) hj hk
  have hout := block_lt (w := 2 * mj) hj (by omega : mj + k < 2 * mj)
  have hsize : lj * (2 * mj) = lj * mj + lj * mj := by ring
  have hb : lj * mj * 2 + (j * mj + k) * 2 = (j * mj + k + lj * mj) * 2 := by ring
  have hd : mj * 2 + (j * (2 * mj) + k) * 2 = (j * (2 * mj) + mj + k) * 2 := by ring
  generalize hp : j * mj + k = p at *
  generalize hp' : p + lj * mj = p' at *
  generalize hq' : j * (2 * mj) + mj + k = q' at *
  generalize hq : j * (2 * mj) + k = q at *
  have ha0 : p * 2 < xlen := by omega
  have ha1 : p * 2 + 1 < xlen := by omega
  have hb0 : p' * 2 < xlen := by omega
  have hb1 : p' * 2 + 1 < xlen := by omega
  have hc0 : q * 2 < ylen := by omega
  have hc1 : q * 2 + 1 < ylen := by omega
  have hd0 : q' * 2 < ylen := by omega
  have hd1 : q' * 2 + 1 < ylen := by omega
  -- all eight accesses are inside, so that the round only writes
  rw [stepAt]
  simp only [hp, hq, ← Nat.add_assoc, hb, hd, Nat.zero_add, Nat.add_zero, rd_eq _ ha0,
    rd_eq _ ha1, rd_eq _ hb0, rd_eq _ hb1, wr_eq _ hc0, wr_eq _ hc1, wr_eq _ hd0, wr_eq _ hd1,
    pure_bind]
  refine ends_pure fun i => ?_
  rw [pairAt_set _ hd0 hd1, pairAt_set _ hc0 hc1]
  split
  · ext <;> simp [pairAt]
    ring
  · rfl

variable [LinearOrder R]

/-- **One call of `step`** is a self-sorting pass. -/
theorem step_ends {ω : Cplx R} {mj lj : ℕ} {w : Vector R wlen} {sgn : R} (src : Vector R xlen)
    (dst : Vector R ylen) (hmj : 0 < mj) (hx : lj * (2 * mj) * 2 ≤ xlen)
    (hy : lj * (2 * mj) * 2 ≤ ylen)
    (hw : ∀ j, j < lj → Returns (twiddle w (j * mj) sgn) (ω ^ (j * mj))) :
    Ends (step (lj * (2 * mj)) mj src (0 * 2 + 0) (lj * (2 * mj) / 2 * 2 + 0) dst (0 * 2 + 0)
      (mj * 2 + 0) w sgn) fun z => SortingPass ω mj lj (pairAt src) (pairAt z) := by
  have hhalf : lj * (2 * mj) / 2 = lj * mj := by
    rw [mul_left_comm, Nat.mul_div_cancel_left _ Nat.two_pos]
  have hlj : lj * (2 * mj) / (2 * mj) = lj := Nat.mul_div_cancel _ (by omega)
  rw [step, hhalf, if_neg (by omega : ¬ 2 * mj = 0), hlj]
  refine (ends_forRange (Nat.zero_le lj) (fun j z =>
    Written ω mj lj (fun j' _ => j' < j) (pairAt src) (pairAt z)) ?start ?round).mono ?done
  case start => exact fun j k _ _ h => absurd h (by omega)
  case done => exact fun z hz j k hj hk => hz j k hj hk hj
  case round =>
    intro j z _ hj hz
    refine (Ends.of_returns (hw j hj) rfl).bind fun wjw hwjw => ?_
    subst hwjw
    refine (ends_forRange (Nat.zero_le mj) (fun k z =>
      Written ω mj lj (fun j' k' => j' < j ∨ j' = j ∧ k' < k) (pairAt src) (pairAt z)) ?_ ?_).mono
        ?_
    · exact fun j' k' hj' hk' h => hz j' k' hj' hk' (by omega)
    · intro k y _ hk hy'
      refine (stepAt_ends src y (ω ^ (j * mj)) hj hk hx hy).mono fun z hz => ?_
      intro j' k' hj' hk' hd
      by_cases heq : j' = j ∧ k' = k
      · -- the round's own pair
        obtain ⟨rfl, rfl⟩ := heq
        refine ⟨?_, ?_⟩
        · rw [hz, if_neg (by omega), if_pos rfl]
        · rw [hz, if_pos rfl]
      · -- any other pair is left alone
        have hlo : ∀ e e', e < 2 * mj → e' < 2 * mj → e ≠ e' ∨ j' ≠ j →
            j' * (2 * mj) + e ≠ j * (2 * mj) + e' := by
          intro e e' he he' hne h
          have := block_inj he he' h
          omega
        obtain ⟨h1, h2⟩ := hy' j' k' hj' hk' (by omega)
        simp only [add_assoc] at hz h1 h2 ⊢
        rw [hz, hz, if_neg (hlo _ _ (by omega) (by omega) (by omega)),
          if_neg (hlo _ _ (by omega) (by omega) (by omega)),
          if_neg (hlo _ _ (by omega) (by omega) (by omega)),
          if_neg (hlo _ _ (by omega) (by omega) (by omega))]
        exact ⟨h1, h2⟩
    · exact fun y hy' j' k' hj' hk' h => hy' j' k' hj' hk' (by omega)

/-! ### All passes -/

/-- The table `w` holds the powers of `ω₀` below half the length. -/
def HoldsPowers (w : Vector R wlen) (ω₀ : Cplx R) (n : ℕ) : Prop :=
  n / 2 * 2 ≤ wlen ∧ ∀ i, i < n / 2 → pairAt w i = ω₀ ^ i

/-- The root that `step` uses: that of the table, or its conjugate when `sgn` is
negative. -/
def signedRoot (ω₀ : Cplx R) (sgn : R) : Cplx R :=
  if sgn < 0 then Cplx.conj ω₀ else ω₀

theorem twiddle_returns {w : Vector R wlen} {ω₀ : Cplx R} {n i : ℕ} (hw : HoldsPowers w ω₀ n)
    (hi : i < n / 2) (sgn : R) : Returns (twiddle w i sgn) (signedRoot ω₀ sgn ^ i) := by
  obtain ⟨hlen, hpow⟩ := hw
  have hi0 : i * 2 < wlen := by omega
  have hi1 : i * 2 + 1 < wlen := by omega
  have hval : signedRoot ω₀ sgn ^ i
      = ⟨cell w (i * 2), if sgn < 0 then -cell w (i * 2 + 1) else cell w (i * 2 + 1)⟩ := by
    unfold signedRoot
    split
    · rw [← map_pow, ← hpow i hi]
      rfl
    · rw [← hpow i hi]
      rfl
  rw [twiddle]
  simp only [Nat.add_zero, rd_eq _ hi0, rd_eq _ hi1, pure_bind, hval]
  exact returns_pure _

/-- The array that holds the data between two passes. -/
def Work.current {len : ℕ} (s : Work R len len) : Vector R len :=
  if s.tgle then s.y else s.x

section Passes

variable {len L : ℕ} {w : Vector R wlen} {ω₀ : Cplx R} {sgn : R}

/-- A pass with group size `2 ^ t` on a vector of `2 ^ L` entries, from the data
of the passes before it. -/
private theorem pass_ends (hlen : 2 ^ L * 2 ≤ len) (hw : HoldsPowers w ω₀ (2 ^ L))
    (hhalf : signedRoot ω₀ sgn ^ (2 ^ (L - 1)) = -1) {t : ℕ} (ht : t < L)
    {x : ℕ → Cplx R} (src dst : Vector R len)
    (hsrc : Sorting (signedRoot ω₀ sgn) (2 ^ t) (2 ^ (L - t)) x (pairAt src)) :
    Ends (step (2 ^ L) (2 ^ t) src (0 * 2 + 0) (2 ^ L / 2 * 2 + 0) dst (0 * 2 + 0)
      (2 ^ t * 2 + 0) w sgn) fun z =>
      Sorting (signedRoot ω₀ sgn) (2 ^ (t + 1)) (2 ^ (L - (t + 1))) x (pairAt z) := by
  have hgroups := two_pow_sub ht
  have hprod : 2 ^ (L - (t + 1)) * 2 ^ t = 2 ^ (L - 1) := by
    rw [← pow_add]
    congr 1
    omega
  have hL : 2 ^ L = 2 * 2 ^ (L - 1) := (mul_pow_sub_one (by omega) 2).symm
  have hsize := two_pow_blocks ht
  -- the twiddle factors are read inside the table
  have htw : ∀ j, j < 2 ^ (L - (t + 1)) →
      Returns (twiddle w (j * 2 ^ t) sgn) (signedRoot ω₀ sgn ^ (j * 2 ^ t)) := by
    intro j hj
    refine twiddle_returns hw ?_ sgn
    rw [hL, Nat.mul_div_cancel_left _ Nat.two_pos, ← hprod]
    exact Nat.mul_lt_mul_of_pos_right hj (Nat.two_pow_pos t)
  rw [hgroups] at hsrc
  rw [hsize] at hlen ⊢
  refine (step_ends src dst (Nat.two_pow_pos t) hlen hlen htw).mono fun z hz => ?_
  rw [pow_succ']
  exact hsrc.succ (by rw [hprod, hhalf]) hz

/-- **One round of the loop** of `cfft2`, whichever way `tgle` points. -/
private theorem innerPass_ends (hlen : 2 ^ L * 2 ≤ len) (hw : HoldsPowers w ω₀ (2 ^ L))
    (hhalf : signedRoot ω₀ sgn ^ (2 ^ (L - 1)) = -1) {t : ℕ} (ht : t + 1 < L)
    {x : ℕ → Cplx R} (s : Work R len len) (hmj : s.mj = 2 ^ t)
    (hs : Sorting (signedRoot ω₀ sgn) (2 ^ (t + 1)) (2 ^ (L - (t + 1))) x (pairAt s.current)) :
    Ends (innerPass (2 ^ L) w sgn s) fun s' => s'.mj = 2 ^ (t + 1) ∧
      Sorting (signedRoot ω₀ sgn) (2 ^ (t + 2)) (2 ^ (L - (t + 2))) x (pairAt s'.current) := by
  obtain ⟨sx, sy, mj, tgle⟩ := s
  have hmj' : mj * 2 = 2 ^ (t + 1) := by
    rw [pow_succ]
    exact congrArg (· * 2) hmj
  cases tgle with
  | true =>
    -- the data is in `y`, and `x` is written
    rw [innerPass, if_pos rfl]
    simp only [hmj']
    exact (pass_ends hlen hw hhalf ht sy sx hs).bind fun x' hx' => ends_pure ⟨rfl, hx'⟩
  | false =>
    -- the data is in `x`, and `y` is written
    rw [innerPass, if_neg Bool.false_ne_true]
    simp only [hmj']
    exact (pass_ends hlen hw hhalf ht sx sy hs).bind fun y' hy' => ends_pure ⟨rfl, hy'⟩

omit [LinearOrder R] in
/-- The copy leaves in `x` the data of the passes before. -/
private theorem moveToX_ends {mj nb : ℕ} (hlen : nb * mj * 2 ≤ len) {ω : Cplx R}
    {x : ℕ → Cplx R} (s : Work R len len) (hs : Sorting ω mj nb x (pairAt s.current)) :
    Ends (moveToX (nb * mj) s) fun x' => Sorting ω mj nb x (pairAt x') := by
  obtain ⟨sx, sy, mj', tgle⟩ := s
  cases tgle with
  | true => exact (ccopy_ends sy sx hlen hlen).mono fun x' hx' => hs.congr hx'
  | false => exact ends_pure hs

/-- **`cfft2` computes the transform**, when `m` is the exponent of the length. -/
theorem cfft2_spec {M : Libm R} (hL : 1 ≤ L) (hlen : 2 ^ L * 2 ≤ len)
    (hm : M.toInt (M.log (2 ^ L : ℕ) / M.log 1.99) = L) (hw : HoldsPowers w ω₀ (2 ^ L))
    (hhalf : signedRoot ω₀ sgn ^ (2 ^ (L - 1)) = -1) (x y : Vector R len) :
    Ends (cfft2 M (2 ^ L) x y w sgn) fun p => ∀ k, k < 2 ^ L →
      pairAt p.2 k = dft (signedRoot ω₀ sgn) (2 ^ L) (pairAt x) k := by
  have hfirst := pass_ends hlen hw hhalf (t := 0) (by omega) x y (Sorting.start _ _ _)
  rw [cfft2]
  refine hfirst.bind fun y₁ hy₁ => ?_
  split
  · -- `n = 2`: the first pass is the only one
    next h2 =>
      obtain rfl : L = 1 := Nat.pow_right_injective le_rfl (by simpa using h2)
      exact ends_pure fun k hk => hy₁.top hk
  · next h2 =>
      have hL2 : 2 ≤ L := by
        by_contra hlt
        obtain rfl : L = 1 := by omega
        exact h2 rfl
      rw [hm]
      -- the loop does all passes but the first and the last
      have hloop := @ends_forRange (Work R len len) 0 (L - 2) ⟨x, y₁, 1, true⟩
        (fun _ s => innerPass (2 ^ L) w sgn s) (Nat.zero_le _)
        (fun t s => s.mj = 2 ^ t ∧ Sorting (signedRoot ω₀ sgn) (2 ^ (t + 1)) (2 ^ (L - (t + 1)))
          (pairAt x) (pairAt s.current)) ⟨rfl, hy₁⟩
        fun t s _ ht hs => innerPass_ends hlen hw hhalf (by omega) s hs.1 hs.2
      refine hloop.bind fun s hs => ?_
      have hs := hs.2
      have hsize : 2 ^ (L - (L - 2 + 1)) * 2 ^ (L - 2 + 1) = 2 ^ L :=
        pow_sub_mul_pow 2 (by omega)
      have hmove := moveToX_ends (by rw [hsize]; exact hlen) s hs
      rw [hsize, show L - 2 + 1 = L - 1 by omega] at hmove
      have hhalf' : 2 ^ L / 2 = 2 ^ (L - 1) := by
        rw [Nat.div_eq_of_eq_mul_left Nat.two_pos]
        rw [← pow_succ]
        congr 1
        omega
      refine hmove.bind fun x' hx' => ?_
      -- the last pass is from `x` to `y`
      have hlast := pass_ends hlen hw hhalf (t := L - 1) (by omega) x' s.y hx'
      rw [← hhalf'] at hlast
      refine hlast.bind fun y' hy' => ends_pure fun k hk => ?_
      rw [show L - 1 + 1 = L by omega, Nat.sub_self, pow_zero] at hy'
      exact hy'.top hk

end Passes

/-! ### Exact tables -/

/-- **The number of passes.** `log n / log 1.99` exceeds the exponent of `n` by
less than one as long as `2 ^ L < 1.99 ^ (L + 1)`. -/
theorem log_quotient {L : ℕ} (hL : L ≤ 30) :
    exactLibm.toInt (exactLibm.log (2 ^ L : ℕ) / exactLibm.log 1.99) = L := by
  change ⌊Real.log (2 ^ L : ℕ) / Real.log 1.99⌋₊ = L
  have hpos : 0 < Real.log 1.99 := Real.log_pos (by norm_num)
  have hlog : Real.log (2 ^ L : ℕ) = L * Real.log 2 := by
    rw [Nat.cast_pow, Nat.cast_ofNat, Real.log_pow]
  rw [hlog, Nat.floor_eq_iff (by positivity)]
  constructor
  · -- `1.99 ≤ 2`
    rw [le_div_iff₀ hpos]
    have hle : Real.log 1.99 ≤ Real.log 2 := Real.log_le_log (by norm_num) (by norm_num)
    gcongr
  · rw [div_lt_iff₀ hpos]
    -- where the bound on `L` is used
    have hpow : (2 : ℝ) ^ L < 1.99 ^ (L + 1) := by
      have hratio : (200 / 199 : ℝ) ^ L ≤ (200 / 199) ^ 30 :=
        pow_le_pow_right₀ (by norm_num) hL
      calc (2 : ℝ) ^ L = (200 / 199) ^ L * 1.99 ^ L := by rw [← mul_pow]; norm_num
        _ ≤ (200 / 199) ^ 30 * 1.99 ^ L := by gcongr
        _ < 1.99 * 1.99 ^ L := by gcongr; norm_num
        _ = 1.99 ^ (L + 1) := (pow_succ' _ _).symm
    have h := Real.log_lt_log (by positivity) hpow
    rw [Real.log_pow, Real.log_pow] at h
    exact_mod_cast h

/-- The tables of `cffti` hold the powers of the root of angle `2 π / n`. -/
theorem cffti_holdsPowers {n : ℕ} (w : Vector ℝ wlen) (hlen : n / 2 * 2 ≤ wlen) :
    Ends (cffti exactLibm n w) fun w' => HoldsPowers w' (cis (2 * Real.pi / n)) n := by
  refine (cffti_ends exactLibm w hlen).mono fun w' hw' => ⟨hlen, fun i hi => ?_⟩
  rw [hw' i hi, cis_pow, mul_comm (i : ℝ), Nat.cast_ofNat]
  rfl

/-- The root of a transform in the direction of `sgn`. -/
theorem signedRoot_cis {sgn : ℝ} (hsgn : sgn = 1 ∨ sgn = -1) (θ : ℝ) :
    signedRoot (cis θ) sgn = cis (sgn * θ) := by
  rcases hsgn with rfl | rfl
  · rw [signedRoot, if_neg (by norm_num), one_mul]
  · rw [signedRoot, if_pos (by norm_num), conj_cis, neg_one_mul]

/-- Half way round in either direction. -/
theorem cis_signed_half {sgn : ℝ} (hsgn : sgn = 1 ∨ sgn = -1) {L : ℕ} (hL : 1 ≤ L) :
    cis (sgn * (2 * Real.pi / (2 ^ L : ℕ))) ^ 2 ^ (L - 1) = -1 := by
  obtain ⟨L, rfl⟩ := Nat.exists_eq_add_of_le' hL
  have hangle : ((2 ^ L : ℕ) : ℝ) * (sgn * (2 * Real.pi / (2 ^ (L + 1) : ℕ)))
      = sgn * Real.pi := by
    push_cast
    rw [pow_succ]
    field_simp
  rw [Nat.add_sub_cancel, cis_pow, hangle]
  rcases hsgn with rfl | rfl
  · rw [one_mul, cis_pi]
  · rw [neg_one_mul, cis_neg_pi]

/-- One direction, over a table that holds the powers of the root of angle `2 π / n`. -/
theorem cfft2_cis {L wlen : ℕ} (hL : 1 ≤ L) (hL' : L ≤ 30) {sgn : ℝ} (hsgn : sgn = 1 ∨ sgn = -1)
    {w : Vector ℝ wlen} (hw : HoldsPowers w (cis (2 * Real.pi / (2 ^ L : ℕ))) (2 ^ L))
    (x y : Vector ℝ (2 ^ L * 2)) :
    Ends (cfft2 exactLibm (2 ^ L) x y w sgn) fun p => ∀ k, k < 2 ^ L →
      pairAt p.2 k = dft (cis (sgn * (2 * Real.pi / (2 ^ L : ℕ)))) (2 ^ L) (pairAt x) k := by
  have hroot := signedRoot_cis hsgn (2 * Real.pi / (2 ^ L : ℕ))
  have hhalf := cis_signed_half hsgn hL
  rw [← hroot] at hhalf ⊢
  exact cfft2_spec hL le_rfl (log_quotient hL') hw hhalf x y

/-- **`cfft2` with exact tables** leaves the transform with root `cis (sgn 2 π / n)`. -/
theorem transform_spec {L : ℕ} (hL : 1 ≤ L) (hL' : L ≤ 30) {sgn : ℝ} (hsgn : sgn = 1 ∨ sgn = -1)
    (x y : Vector ℝ (2 ^ L * 2)) (w : Vector ℝ (2 ^ L)) :
    Ends (transform exactLibm (2 ^ L) x y w sgn) fun p => ∀ k, k < 2 ^ L →
      pairAt p.2 k = dft (cis (sgn * (2 * Real.pi / (2 ^ L : ℕ)))) (2 ^ L) (pairAt x) k := by
  refine (cffti_holdsPowers w (Nat.div_mul_le_self _ _)).bind fun w' hw' => ?_
  exact cfft2_cis hL hL' hsgn hw' x y

/-- **`cfft2` is the discrete Fourier transform** in the direction of `sgn`. For
`n = 2^L`, `1 ≤ L ≤ 30`, it leaves in `y[k]` the sum of the original
`x[j] * exp (sgn 2 π i j k / n)`. -/
theorem cfft2_dft {L : ℕ} (hL : 1 ≤ L) (hL' : L ≤ 30) {sgn : ℝ} (hsgn : sgn = 1 ∨ sgn = -1)
    (x y : Vector ℝ (2 ^ L * 2)) (w : Vector ℝ (2 ^ L)) :
    ∃ x' y', Returns (transform exactLibm (2 ^ L) x y w sgn) (x', y') ∧
      ∀ k, k < 2 ^ L → Cplx.toComplex (pairAt y' k) =
        ∑ j ∈ Finset.range (2 ^ L), Cplx.toComplex (pairAt x j) *
          Complex.exp (sgn * 2 * Real.pi * Complex.I * j * k / 2 ^ L) := by
  obtain ⟨⟨x', y'⟩, hret, hdft⟩ := transform_spec hL hL' hsgn x y w
  refine ⟨x', y', hret, fun k hk => ?_⟩
  rw [hdft k hk, map_dft]
  refine Finset.sum_congr rfl fun j _ => ?_
  rw [toComplex_cis, ← Complex.exp_nat_mul]
  congr 2
  push_cast
  ring

/-- Four samples, forward. -/
theorem cfft2_dft_four :
    let x : Vector ℝ (2 ^ 2 * 2) := Vector.ofFn fun i => (i : ℕ)
    ∃ x' y', Returns (transform exactLibm (2 ^ 2) x x (Vector.replicate (2 ^ 2) 0) 1) (x', y') ∧
      ∀ k, k < 2 ^ 2 → Cplx.toComplex (pairAt y' k) =
        ∑ j ∈ Finset.range (2 ^ 2), Cplx.toComplex (pairAt x j) *
          Complex.exp ((1 : ℝ) * 2 * Real.pi * Complex.I * j * k / 2 ^ 2) :=
  cfft2_dft (by decide) (by decide) (Or.inl rfl) _ _ _

end SqlCode.FftOpenMp
