import SqlCode.FftMpi1.Model
import SqlCode.Dft.BitRev

/-!
# The table of `reverse`

`reverse` counts in the array `a` of bits, lowest bit first, and writes to `b[i]` the
bits of `i` weighted from the top. A round of the counter (`increment_ends`) clears the
ones up to the first zero and sets that; below `2^M` there is a zero, so the loop stays
inside `a`. The sum over the bits is `bitRev M i`, digit by digit (`bitRev_succ_top`).
-/

namespace SqlCode.FftMpi1

open Exec Dft

/-- The exact power function gives the powers of two. -/
theorem powInt_natCast (e : ℕ) : powInt exactPowLibm (e : ℝ) = 2 ^ e := by
  change ⌊((2 : ℕ) : ℝ) ^ (e : ℝ)⌋₊ = 2 ^ e
  rw [Real.rpow_natCast, ← Nat.cast_pow, Nat.floor_natCast]

theorem powInt_sub {M l : ℕ} (h : l ≤ M) : powInt exactPowLibm ((M : ℝ) - l) = 2 ^ (M - l) := by
  rw [← Nat.cast_sub h, powInt_natCast]

/-- The bits of `i` below position `M`, lowest first, from position `j` on. -/
def HoldsBits (M : ℕ) (a : ℕ → ℕ) (j i : ℕ) : Prop :=
  ∀ u, j + u < M → a (j + u) = i / 2 ^ u % 2

theorem HoldsBits.tail {M j i : ℕ} {a : ℕ → ℕ} (h : HoldsBits M a j i) :
    HoldsBits M a (j + 1) (i / 2) := by
  intro u hu
  rw [show j + 1 + u = j + (u + 1) by ring, h (u + 1) (by omega), pow_succ',
    Nat.div_div_eq_div_mul]

theorem HoldsBits.cons {M j i : ℕ} {a : ℕ → ℕ} (h : HoldsBits M a (j + 1) (i / 2))
    (h0 : a j = i % 2) : HoldsBits M a j i := by
  intro u hu
  cases u with
  | zero => simpa using h0
  | succ u =>
    rw [show j + (u + 1) = j + 1 + u by ring, h u (by omega), Nat.div_div_eq_div_mul, ← pow_succ']

/-- The loop of `increment` from position `j` on ends at the first zero, where a one makes
the bits those of the next number. The induction is on the number of positions left. -/
private theorem increment_loop {M : ℕ} (d : ℕ) {j i : ℕ} (a : Vector ℕ M) (hd : j + d = M)
    (ha : HoldsBits M (cell a) j i) (hi : i + 1 < 2 ^ d) :
    Ends (whileLoop (fun s : Vector ℕ M × ℕ × ℕ => s.2.2 != 0)
      (fun (a, j, _) => do
        let a ← wr a j 0
        let j := j + 1
        let bit ← rd a j
        pure (a, j, bit)) (a, j, cell a j)) fun s =>
      (j ≤ s.2.1 ∧ s.2.1 < M) ∧ (∀ t, t < j → cell s.1 t = cell a t) ∧
        HoldsBits M (fun t => if t = s.2.1 then 1 else cell s.1 t) j (i + 1) := by
  induction d generalizing j i a with
  | zero => exact absurd hi (by simp)
  | succ d ih =>
    rw [pow_succ] at hi
    have hj : j < M := by omega
    have hbit : cell a j = i % 2 := by simpa using ha 0 (by omega)
    rcases Nat.mod_two_eq_zero_or_one i with h | h
    · -- a zero: the loop ends
      refine Ends.of_returns (returns_while_false (by simp [hbit, h]))
        ⟨⟨le_rfl, hj⟩, fun _ _ => rfl, HoldsBits.cons ?_ ?_⟩
      · rw [show (i + 1) / 2 = i / 2 by omega]
        intro u hu
        dsimp only
        rw [if_neg (by omega)]
        exact ha.tail u hu
      · dsimp only
        rw [if_pos rfl]
        omega
    · -- a one: the loop clears it and goes on behind it
      have hd0 : 0 < d := by
        rcases Nat.eq_zero_or_pos d with rfl | hd0
        · rw [pow_zero] at hi
          omega
        · exact hd0
      have hrest : HoldsBits M (cell (a.set j 0)) (j + 1) (i / 2) := by
        intro u hu
        rw [cell_set_ne _ _ _ (by omega)]
        exact ha.tail u hu
      obtain ⟨s, hs, ⟨hlo, hhi⟩, hbelow, hholds⟩ := ih (a.set j 0) (by omega) hrest (by omega)
      have hround : Returns (do
          let a ← wr a j 0
          let j := j + 1
          let bit ← rd a j
          pure (a, j, bit) : Prog (Vector ℕ M × ℕ × ℕ))
          (a.set j 0, j + 1, cell (a.set j 0) (j + 1)) := by
        rw [wr_eq a hj, pure_bind]
        dsimp only
        rw [rd_eq _ (by omega), pure_bind]
        exact returns_pure _
      refine ⟨s, returns_while_true (by simp [hbit, h]) hround hs, ⟨by omega, hhi⟩,
        fun t ht => ?_, HoldsBits.cons ?_ ?_⟩
      · rw [hbelow t (by omega), cell_set_ne _ _ _ (by omega)]
      · rw [show (i + 1) / 2 = i / 2 + 1 by omega]
        exact hholds
      · rw [if_neg (by omega), hbelow j (by omega), cell_set_self]
        omega

theorem increment_ends {M i : ℕ} (a : Vector ℕ M) (ha : HoldsBits M (cell a) 0 i)
    (hi : i + 1 < 2 ^ M) : Ends (increment a) fun a' => HoldsBits M (cell a') 0 (i + 1) := by
  have hM : 0 < M := by
    rcases Nat.eq_zero_or_pos M with rfl | h
    · simp at hi
    · exact h
  unfold increment
  rw [rd_eq a hM, pure_bind]
  refine (increment_loop M a (by omega) ha hi).bind ?_
  rintro ⟨a', j, bit⟩ ⟨⟨-, hj⟩, -, hholds⟩
  dsimp only at hj hholds ⊢
  rw [wr_eq a' hj]
  refine ends_pure fun u hu => ?_
  rw [← hholds u hu, cell_set]

/-- The sum over the digits of `i`, which are in `a`. -/
private theorem digits_ends {nLen M i : ℕ} (a : Vector ℕ M) (b : Vector ℕ nLen) (hi : i < nLen)
    (ha : HoldsBits M (cell a) 0 i) (hb : cell b i = 0) :
    Ends (forRange 0 M b fun j b => do
      wr b i ((← rd b i) + (← rd a j) * powInt exactPowLibm ((M - 1 - j : ℕ) : ℝ))) fun b' =>
      cell b' i = bitRev M i ∧ ∀ t, t ≠ i → cell b' t = cell b t := by
  -- after `j` digits, the reversal of the `j` low bits stands in the top places
  refine (ends_forRange (Nat.zero_le M) (fun j (b' : Vector ℕ nLen) =>
    cell b' i = bitRev j i * 2 ^ (M - j) ∧ ∀ t, t ≠ i → cell b' t = cell b t)
    ⟨by simp [hb, bitRev], fun _ _ => rfl⟩ ?_).mono ?_
  · rintro j c - hj ⟨hc, hframe⟩
    rw [rd_eq c hi, pure_bind, rd_eq a hj, pure_bind, wr_eq c hi]
    refine ends_pure ⟨?_, fun t ht => ?_⟩
    · have hbit := ha j (by omega)
      rw [Nat.zero_add] at hbit
      have hpow : 2 ^ (M - j) = 2 * 2 ^ (M - 1 - j) := by
        rw [← pow_succ']
        congr 1
        omega
      rw [cell_set_self, hc, hbit, powInt_natCast, bitRev_succ_top, hpow,
        show M - (j + 1) = M - 1 - j by omega]
      ring
    · rw [cell_set_ne _ _ _ ht, hframe t ht]
  · intro c hc
    rw [Nat.sub_self, pow_zero, mul_one] at hc
    exact hc

/-- **`reverse`** makes the table of the bit reversals. -/
theorem reverse_ends (junkInt : ℕ → ℕ) (M : ℕ) :
    Ends (reverse exactPowLibm junkInt (2 ^ M) M) fun b =>
      ∀ i, i < 2 ^ M → cell b i = bitRev M i := by
  have hpos := Nat.two_pow_pos M
  unfold reverse
  refine (ends_forCells (fun _ => 0) (Nat.zero_le M) fun k a _ hk _ => ?_).bind fun a₀ ha₀ => ?_
  · rw [wr_eq a hk]
    exact ends_pure ⟨cell_set_self _ _ _, fun t ht => cell_set_ne _ _ _ ht⟩
  rw [wr_eq _ hpos, pure_bind]
  -- at the head of round `i` the digits are those of `i - 1`
  refine (ends_forRange hpos (fun i (s : Vector ℕ M × Vector ℕ (2 ^ M)) =>
    HoldsBits M (cell s.1) 0 (i - 1) ∧ ∀ t, t < i → cell s.2 t = bitRev M t)
    ⟨?_, ?_⟩ ?_).bind ?_
  · intro u hu
    rw [ha₀.1 _ (Nat.zero_le _) hu]
    simp
  · intro t ht
    obtain rfl : t = 0 := by omega
    rw [cell_set_self, bitRev_at_zero]
  · rintro i ⟨a, b⟩ h1 hi ⟨ha, hb⟩
    obtain ⟨i, rfl⟩ := Nat.exists_eq_add_of_le' h1
    refine (increment_ends a ha (by omega)).bind fun a' ha' => ?_
    rw [wr_eq b hi, pure_bind]
    refine (digits_ends a' _ hi ha' (cell_set_self _ _ _)).bind fun b' hb' => ends_pure ⟨ha', ?_⟩
    intro t ht
    by_cases heq : t = i + 1
    · rw [heq]
      exact hb'.1
    · rw [hb'.2 t heq, cell_set_ne _ _ _ heq, hb t (by omega)]
  · rintro ⟨a, b⟩ ⟨-, hb⟩
    exact ends_pure hb

end SqlCode.FftMpi1
