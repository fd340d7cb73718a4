import SqlCode.FftSerial.Model
import SqlCode.Dft.BitRev
import Mathlib.Data.Nat.Log

/-!
# The swap loop of `fft`

The loop keeps in `j` a reversed counter: at the head of round `i` it holds
`revSum s l i`, the sum of the weights `l`, `l / 2`, … at the one bits of `i`
(`carry_returns`). The carry loop is entered with every value of the counter but
the last one; from the last one, all bits set, it runs `k` down to `0` and never
ends (`carry_stuck`).

For `N = 2^m` the counter is `bitRev m`, the last value belongs to `i = N - 1`,
which the loop does not reach, and the swaps leave every entry at its reversed
position (`bitReversal_spec`). For every other `N` the last value belongs to some
`i ≤ N - 2` (`bitReversal_stuck`). So the swap loop ends exactly at the powers of
two (`bitReversal_terminates_iff`).
-/

namespace SqlCode.FftSerial

open Exec Dft

variable {R : Type} [CommRing R] {len : ℕ}

/-! ### The carry loop -/

/-- The carry loop adds one to the reversed counter. The induction is on the
number of weights, one of which each round drops. -/
private theorem carry_loop {s l i : ℕ} (hl : 2 ^ s ≤ 2 * l + 1) (hi : i + 1 < 2 ^ s) :
    ∃ p, Returns (whileLoop (fun s : ℕ × ℕ => decide (s.2 ≤ s.1))
      (fun s => pure (s.1 - s.2, s.2 >>> 1)) (revSum s l i, l)) p ∧
        p.1 + p.2 = revSum s l (i + 1) := by
  induction s generalizing l i with
  | zero => exact absurd hi (by simp)
  | succ s ih =>
    rw [pow_succ] at hl hi
    have hs := Nat.two_pow_pos s
    rcases Nat.mod_two_eq_zero_or_one i with h | h
    · -- the top weight is clear: the loop ends and sets it
      have hlt := revSum_lt_of_even s (by omega : 0 < l) h
      exact ⟨_, returns_while_false (by simpa using hlt), (revSum_succ_of_even s l h).symm⟩
    · -- the top weight is set: the loop clears it and carries into the next one
      obtain ⟨p, hp, hsum⟩ := ih (l := l / 2) (i := i / 2) (by omega) (by omega)
      refine ⟨p, returns_while_true (by simp [revSum_of_odd s l h]) (returns_pure _) ?_, ?_⟩
      · rw [revSum_of_odd s l h, Nat.add_sub_cancel_left, Nat.shiftRight_one]
        exact hp
      · rw [hsum, revSum_succ_of_odd s l h]

theorem carry_returns {s l i : ℕ} (hl : 2 ^ s ≤ 2 * l + 1) (hi : i + 1 < 2 ^ s) :
    Returns (carry l (revSum s l i)) (revSum s l (i + 1)) := by
  obtain ⟨p, hp, hsum⟩ := carry_loop hl hi
  rw [← hsum]
  exact hp.bind (returns_pure _)

/-- **Divergence of the carry loop.** From the last value of the counter it drops
every weight, down to `k = 0`, where its state repeats. -/
theorem carry_stuck {s l i : ℕ} (hl : l < 2 ^ s) (hi : i + 1 = 2 ^ s) :
    Stuck (carry l (revSum s l i)) := by
  refine Fails.bind_left ?_ _
  induction s generalizing l i with
  | zero =>
    obtain rfl : l = 0 := by simpa using hl
    exact stuck_while_fixed (by simp [revSum]) fun fuel => by
      simp only [revSum, Nat.zero_shiftRight, Nat.sub_zero]
      rfl
  | succ s ih =>
    rw [pow_succ] at hl hi
    have h : i % 2 = 1 := by omega
    refine fails_while_true (by simp [revSum_of_odd s l h]) (returns_pure _) ?_
    rw [revSum_of_odd s l h, Nat.add_sub_cancel_left, Nat.shiftRight_one]
    exact ih (by omega) (by omega)

/-! ### The swap loop -/

/-- A swap in bounds exchanges two entries. -/
theorem swap_ends (x : Vector (Cplx R) len) {i j : ℕ} (hi : i < len) (hj : j < len) :
    Ends (swap x i j) fun y => ∀ t, cell y t =
      if t = i then cell x j else if t = j then cell x i else cell x t := by
  rw [swap, rd_eq x hj, pure_bind, rd_eq x hi, pure_bind, wr_eq x hj, pure_bind, wr_eq _ hi]
  refine ends_pure fun t => ?_
  rw [cell_set, cell_set]

/-- One round of the swap loop, in which the counter does not overflow. -/
private theorem round_ends {s l i : ℕ} (hl : 2 ^ s ≤ 2 * l + 1) (hi : i + 1 < 2 ^ s)
    (x : Vector (Cplx R) len) (hrev : revSum s l i < len) :
    Ends (do
      let x ← if i < revSum s l i then swap x i (revSum s l i) else pure x
      let j ← carry l (revSum s l i)
      pure (x, j)) fun p => p.2 = revSum s l (i + 1) ∧ ∀ t, cell p.1 t =
        if i < revSum s l i then
          if t = i then cell x (revSum s l i)
          else if t = revSum s l i then cell x i else cell x t
        else cell x t := by
  have hcarry := carry_returns hl hi
  split
  · next h =>
    refine (swap_ends x (by omega) hrev).bind fun y hy => ?_
    exact (Ends.of_returns hcarry rfl).bind fun j hj => ends_pure ⟨hj.symm, hy⟩
  · rw [pure_bind]
    exact (Ends.of_returns hcarry rfl).bind fun j hj => ends_pure ⟨hj.symm, fun t => rfl⟩

/-- **Bit reversal.** For `N = 2^m` the swap loop ends, and entry `t` of its
result is entry `bitRev m t` of its argument. -/
theorem bitReversal_spec {m : ℕ} (x : Vector (Cplx R) len) (hN : 2 ^ m ≤ len) :
    Ends (bitReversal x (2 ^ m)) fun y =>
      (∀ t, t < 2 ^ m → cell y t = cell x (bitRev m t)) ∧
        ∀ t, 2 ^ m ≤ t → cell y t = cell x t := by
  rcases Nat.eq_zero_or_pos m with rfl | hm
  · -- a single sample: the loop has no rounds
    refine ends_pure ⟨fun t ht => ?_, fun t _ => rfl⟩
    obtain rfl : t = 0 := by simpa using ht
    rfl
  have hpow : 2 ^ m = 2 * 2 ^ (m - 1) := by
    rw [← pow_succ', Nat.sub_add_cancel hm]
  have hpos := Nat.two_pow_pos (m - 1)
  have hl : 2 ^ m ≤ 2 * (2 ^ m / 2) + 1 := by omega
  -- before round `i` the counter `j` is the reversal of `i`, and all below `i` is in its place
  have hloop := @ends_forRange (Vector (Cplx R) len × ℕ) 1 (2 ^ m - 1) (x, 2 ^ m / 2)
    (fun i p => do
      let x ← if i < p.2 then swap p.1 i p.2 else pure p.1
      let j ← carry (2 ^ m / 2) p.2
      pure (x, j))
    (by omega)
    (fun i p => p.2 = revSum m (2 ^ m / 2) i ∧
      (∀ t, t < 2 ^ m → cell p.1 t = revUpTo m i (cell x) t) ∧
        ∀ t, 2 ^ m ≤ t → cell p.1 t = cell x t)
    ⟨?_, fun t ht => (revUpTo_one _ ht).symm, fun t _ => rfl⟩ ?_
  · rw [bitReversal, Nat.shiftRight_one]
    refine hloop.bind fun p hp => ends_pure ⟨fun t ht => ?_, hp.2.2⟩
    rw [hp.2.1 t ht, revUpTo_pred _ ht]
  · rw [revSum_two_pow]
    obtain ⟨m, rfl⟩ : ∃ k, m = k + 1 := ⟨m - 1, by omega⟩
    rw [bitRev_succ, pow_succ]
    simp
  · rintro i ⟨y, j⟩ h1 h2 ⟨rfl, hlo, hhi⟩
    have hi : i < 2 ^ m := by omega
    have hrev : revSum m (2 ^ m / 2) i = bitRev m i := revSum_two_pow m i
    have hlt := bitRev_lt m i
    refine (round_ends hl (by omega) y (by omega)).mono fun p hp => ⟨hp.1, fun t ht => ?_, ?_⟩
    -- the round swaps `i` with its reversal, if that is behind it
    · rw [hp.2 t, hrev]
      split
      · next h =>
        rw [revUpTo_succ_swap _ hi ht h, hlo _ hlt, hlo _ hi, hlo _ ht]
      · next h =>
        rw [revUpTo_succ_skip _ hi ht (by omega), hlo _ ht]
    · intro t ht
      rw [hp.2 t, hrev, if_neg (by omega : ¬ t = i), if_neg (by omega : ¬ t = bitRev m i), ite_self,
        hhi t ht]

/-- The counter at the head of the first round. -/
private theorem counter_start {s : ℕ} (hs1 : 1 ≤ s) (l : ℕ) : l = revSum s l 1 := by
  obtain ⟨s, rfl⟩ := Nat.exists_eq_add_of_le' hs1
  exact (revSum_at_one s l).symm

/-- A round before the overflow moves the counter on, whatever `N` is. -/
private theorem counter_round {s N i : ℕ} (hs : 2 ^ s < N) (hi : i + 1 < 2 ^ s) (hlen : N ≤ len)
    (x : Vector (Cplx R) len) :
    Ends (do
      let x ← if i < revSum s (N / 2) i then swap x i (revSum s (N / 2) i) else pure x
      let j ← carry (N / 2) (revSum s (N / 2) i)
      pure (x, j)) fun p => p.2 = revSum s (N / 2) (i + 1) := by
  -- the weights add up to less than `N`, so both entries of the swap are in bounds
  have hlt := revSum_lt s (by omega : 0 < N / 2) i
  exact (round_ends (by omega) hi x (by omega)).mono fun p hp => hp.1

/-- **Divergence of the swap loop.** When `N` lies strictly between two powers of
two, round `2^s - 1 ≤ N - 2` of the loop never ends. -/
theorem bitReversal_stuck {s N : ℕ} (x : Vector (Cplx R) len) (hs : 2 ^ s < N)
    (hN : N < 2 ^ (s + 1)) (hlen : N ≤ len) : Stuck (bitReversal x N) := by
  rw [pow_succ] at hN
  have hs1 : 1 ≤ s := by
    -- no length lies strictly between one and two
    rcases Nat.eq_zero_or_pos s with rfl | h
    · omega
    · exact h
  have htwo : 2 ^ 1 ≤ 2 ^ s := Nat.pow_le_pow_right (by decide) hs1
  rw [bitReversal, Nat.shiftRight_one]
  apply Fails.bind_left
  refine fails_forRange (k := 2 ^ s - 1) (by omega) (by omega)
    (fun i p => p.2 = revSum s (N / 2) i) (counter_start hs1 _) ?round ?overflow
  case round =>
    rintro i ⟨y, j⟩ - hi rfl
    exact counter_round hs (by omega) hlen y
  case overflow =>
    rintro ⟨y, j⟩ rfl
    have hlt := revSum_lt s (by omega : 0 < N / 2) (2 ^ s - 1)
    have hcarry := carry_stuck (s := s) (l := N / 2) (i := 2 ^ s - 1) (by omega) (by omega)
    -- whether or not the round swaps, it goes on to the carry loop
    dsimp only
    split
    · obtain ⟨z, hz, -⟩ := swap_ends y (by omega : 2 ^ s - 1 < len)
        (by omega : revSum s (N / 2) (2 ^ s - 1) < len)
      exact Fails.bind_right hz (hcarry.bind_left _)
    · rw [pure_bind]
      exact hcarry.bind_left _

/-! ### When the swap loop ends -/

/-- One round of the `while (k <= j)` loop. -/
def carryRound (s : ℕ × ℕ) : ℕ × ℕ :=
  (s.1 - s.2, s.2 >>> 1)

/-- The swap loop up to the head of round `i`: the array, and `j`. -/
def reversalRounds (x : Vector (Cplx R) len) (N i : ℕ) : Prog (Vector (Cplx R) len × ℕ) :=
  forRange 1 i (x, N >>> 1) fun i (x, j) => do
    let x ← if i < j then swap x i j else pure x
    let j ← carry (N >>> 1) j
    pure (x, j)

omit [CommRing R] in
theorem bitReversal_eq (x : Vector (Cplx R) len) (N : ℕ) :
    bitReversal x N = (do
      let (x, _) ← reversalRounds x N (N - 1)
      pure x) := rfl

/-- From the last value of the counter, each test of the carry loop succeeds, and
after as many rounds as there are weights `k` is zero. -/
theorem carryRound_last {s l i : ℕ} (hl : l < 2 ^ s) (hi : i + 1 = 2 ^ s) :
    (carryRound^[s] (revSum s l i, l)).2 = 0 ∧
      ∀ c, (carryRound^[c] (revSum s l i, l)).2 ≤ (carryRound^[c] (revSum s l i, l)).1 := by
  induction s generalizing l i with
  | zero =>
    obtain rfl : l = 0 := by simpa using hl
    have hfix : carryRound (0, 0) = (0, 0) := rfl
    refine ⟨rfl, fun c => ?_⟩
    rw [revSum, Function.iterate_fixed hfix]
  | succ s ih =>
    rw [pow_succ] at hl hi
    have h : i % 2 = 1 := by omega
    have hround : carryRound (revSum (s + 1) l i, l) = (revSum s (l / 2) (i / 2), l / 2) := by
      rw [carryRound, revSum_of_odd s l h, Nat.add_sub_cancel_left, Nat.shiftRight_one]
    obtain ⟨hzero, htest⟩ := ih (l := l / 2) (i := i / 2) (by omega) (by omega)
    refine ⟨?_, fun c => ?_⟩
    · rw [Function.iterate_succ_apply, hround]
      exact hzero
    · cases c with
      | zero =>
        -- the top weight is set
        rw [Function.iterate_zero_apply, revSum_of_odd s l h]
        exact Nat.le_add_right _ _
      | succ c =>
        rw [Function.iterate_succ_apply, hround]
        exact htest c

/-- The head of a round before which the counter has not overflowed. -/
theorem reversalRounds_ends {s N i : ℕ} (x : Vector (Cplx R) len) (hs : 2 ^ s < N)
    (hs1 : 1 ≤ s) (h1 : 1 ≤ i) (hi : i < 2 ^ s) (hlen : N ≤ len) :
    Ends (reversalRounds x N i) fun p => p.2 = revSum s (N >>> 1) i := by
  rw [Nat.shiftRight_one]
  unfold reversalRounds
  refine ends_forRange h1
    (fun i (p : Vector (Cplx R) len × ℕ) => p.2 = revSum s (N / 2) i) (counter_start hs1 _) ?_
  rintro t ⟨y, j⟩ - ht rfl
  exact counter_round hs (by omega) hlen y

/-- **Termination of the swap loop.** For every length it ends exactly at the
powers of two. At any other length some round `i ≤ N - 2` is entered in which the
carry loop brings `k` down to `0` and passes every test, so that it never ends. -/
theorem bitReversal_terminates_iff (x : Vector (Cplx R) len) {N : ℕ} (hN : 1 ≤ N)
    (hlen : N ≤ len) :
    ((∃ y, Returns (bitReversal x N) y) ↔ ∃ m, N = 2 ^ m) ∧
      ((¬ ∃ m, N = 2 ^ m) → ∃ i, 1 ≤ i ∧ i ≤ N - 2 ∧ ∃ x' j,
        Returns (reversalRounds x N i) (x', j) ∧
        (∃ c, (carryRound^[c] (j, N >>> 1)).2 = 0) ∧
        (∀ c, (carryRound^[c] (j, N >>> 1)).2 ≤ (carryRound^[c] (j, N >>> 1)).1) ∧
        Stuck (carry (N >>> 1) j)) := by
  -- a length that is no power of two lies strictly between two of them
  have hbetween : (¬ ∃ m, N = 2 ^ m) → 2 ^ Nat.log 2 N < N ∧ N < 2 ^ (Nat.log 2 N + 1) := by
    intro h
    have hlog := Nat.pow_log_le_self 2 (by omega : N ≠ 0)
    have hne : 2 ^ Nat.log 2 N ≠ N := fun he => h ⟨_, he.symm⟩
    exact ⟨by omega, Nat.lt_pow_succ_log_self (by decide) N⟩
  refine ⟨⟨?_, ?_⟩, ?_⟩
  -- what does not end does not return, and at a power of two it ends
  · rintro ⟨y, hy⟩
    by_contra h
    obtain ⟨hlo, hhi⟩ := hbetween h
    exact (bitReversal_stuck x hlo hhi hlen).not_returns y hy
  · rintro ⟨m, rfl⟩
    obtain ⟨y, hy, -⟩ := bitReversal_spec x hlen
    exact ⟨y, hy⟩
  · intro h
    obtain ⟨hlo, hhi⟩ := hbetween h
    generalize Nat.log 2 N = s at hlo hhi
    have hs1 : 1 ≤ s := by
      by_contra hs
      obtain rfl : s = 0 := by omega
      omega
    have hs2 : 2 ^ 1 ≤ 2 ^ s := Nat.pow_le_pow_right (by decide) hs1
    have hl : N >>> 1 < 2 ^ s := by
      rw [Nat.shiftRight_one]
      rw [pow_succ] at hhi
      omega
    -- the round is the last one below the power of two
    have hlast : 2 ^ s - 1 + 1 = 2 ^ s := by omega
    obtain ⟨⟨x', j⟩, hret, hj⟩ :=
      reversalRounds_ends x hlo hs1 (i := 2 ^ s - 1) (by omega) (by omega) hlen
    obtain rfl : j = _ := hj
    obtain ⟨hzero, htest⟩ := carryRound_last hl hlast
    exact ⟨2 ^ s - 1, by omega, by omega, x', _, hret, ⟨s, hzero⟩, htest, carry_stuck hl hlast⟩

/-- Length six. -/
theorem bitReversal_terminates_iff_six :
    let x : Vector (Cplx ℤ) 6 := Vector.ofFn fun i => ⟨(i : ℕ), 0⟩
    ((∃ y, Returns (bitReversal x 6) y) ↔ ∃ m, 6 = 2 ^ m) ∧
      ((¬ ∃ m, 6 = 2 ^ m) → ∃ i, 1 ≤ i ∧ i ≤ 6 - 2 ∧ ∃ x' j,
        Returns (reversalRounds x 6 i) (x', j) ∧
        (∃ c, (carryRound^[c] (j, 6 >>> 1)).2 = 0) ∧
        (∀ c, (carryRound^[c] (j, 6 >>> 1)).2 ≤ (carryRound^[c] (j, 6 >>> 1)).1) ∧
        Stuck (carry (6 >>> 1) j)) :=
  bitReversal_terminates_iff _ (by decide) (by decide)

end SqlCode.FftSerial
