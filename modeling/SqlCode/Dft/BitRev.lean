import Mathlib.Tactic.Ring
import Mathlib.Algebra.Order.Ring.Nat
import Mathlib.Data.Nat.Init

/-!
# Bit reversal and reversed counters

`bitRev m i` reverses the `m` low bits of `i`. It is an involution on
`[0, 2 ^ m)`, computed from the bottom (`bitRev_succ`) or from the top
(`bitRev_add_top`). Indices whose bits below the highest one are complements of each
other have reversals that are negatives of each other (`Opposite.bitRev_add`).

In-place bit reversal walks a *reversed counter*, which propagates its carry
from the top weight down. `revSum s l i` is its value after `i` increments
when the weights are the halves `l`, `l / 2`, `l / 4`, … of an arbitrary top
weight, `s` of them. At `l = 2 ^ (m - 1)` it is `bitRev m` (`revSum_two_pow`). The
three facts about one increment are `revSum_lt_of_even`, `revSum_of_odd` and
`revSum_succ_of_even`.

`revUpTo m i a` is the array `a` once the swaps at all positions below `i` are
done; `revUpTo_succ_swap` and `revUpTo_succ_skip` are the two ways a position is
passed.
-/

namespace Dft

/-- The `m` low bits of a number, in reverse order. -/
def bitRev : ℕ → ℕ → ℕ
  | 0, _ => 0
  | m + 1, i => i % 2 * 2 ^ m + bitRev m (i / 2)

theorem bitRev_succ (m i : ℕ) : bitRev (m + 1) i = i % 2 * 2 ^ m + bitRev m (i / 2) := rfl

@[simp] theorem bitRev_at_zero (m : ℕ) : bitRev m 0 = 0 := by
  induction m with
  | zero => rfl
  | succ m ih => simp [bitRev_succ, ih]

theorem bitRev_lt (m i : ℕ) : bitRev m i < 2 ^ m := by
  induction m generalizing i with
  | zero => simp [bitRev]
  | succ m ih =>
    have h := ih (i / 2)
    rw [bitRev_succ, pow_succ]
    rcases Nat.mod_two_eq_zero_or_one i with hi | hi <;> rw [hi] <;> omega

theorem bitRev_two_mul (m i : ℕ) : bitRev (m + 1) (2 * i) = bitRev m i := by
  rw [bitRev_succ, Nat.mul_mod_right, Nat.mul_div_cancel_left _ (by omega), zero_mul, zero_add]

theorem bitRev_two_mul_add_one (m i : ℕ) :
    bitRev (m + 1) (2 * i + 1) = 2 ^ m + bitRev m i := by
  rw [bitRev_succ, show (2 * i + 1) % 2 = 1 by omega, show (2 * i + 1) / 2 = i by omega, one_mul]

/-- The recursion from the top: the highest bit goes to the bottom. -/
theorem bitRev_add_top (m : ℕ) {b i : ℕ} (hi : i < 2 ^ m) (hb : b < 2) :
    bitRev (m + 1) (b * 2 ^ m + i) = 2 * bitRev m i + b := by
  induction m generalizing i with
  | zero =>
    obtain rfl : i = 0 := by simpa using hi
    simp only [bitRev, pow_zero]
    omega
  | succ m ih =>
    -- the highest bit is not among those that the recursion from the bottom takes
    have hhalf : (b * 2 ^ (m + 1) + i) / 2 = b * 2 ^ m + i / 2 := by
      rw [pow_succ, ← mul_assoc]
      omega
    have hpar : (b * 2 ^ (m + 1) + i) % 2 = i % 2 := by
      rw [pow_succ, ← mul_assoc]
      omega
    rw [bitRev_succ (m + 1), hhalf, hpar, ih (by rw [pow_succ] at hi; omega), bitRev_succ m,
      pow_succ]
    ring

/-- The recursion from the top, without bounds. -/
theorem bitRev_succ_top (m i : ℕ) : bitRev (m + 1) i = 2 * bitRev m i + i / 2 ^ m % 2 := by
  induction m generalizing i with
  | zero => simp [bitRev]
  | succ m ih =>
    rw [bitRev_succ (m + 1), ih, bitRev_succ m, Nat.div_div_eq_div_mul, ← pow_succ', pow_succ]
    ring

/-- **Bit reversal is an involution.** -/
theorem bitRev_bitRev (m : ℕ) {i : ℕ} (hi : i < 2 ^ m) : bitRev m (bitRev m i) = i := by
  induction m generalizing i with
  | zero =>
    obtain rfl : i = 0 := by simpa using hi
    rfl
  | succ m ih =>
    rw [bitRev_succ m i, bitRev_add_top m (bitRev_lt m _) (Nat.mod_lt _ (by omega)),
      ih (by rw [pow_succ] at hi; omega)]
    omega

theorem bitRev_eq_iff (m : ℕ) {i j : ℕ} (hi : i < 2 ^ m) (hj : j < 2 ^ m) :
    bitRev m i = j ↔ i = bitRev m j := by
  constructor
  · rintro rfl
    exact (bitRev_bitRev m hi).symm
  · rintro rfl
    exact bitRev_bitRev m hj

/-- The last index is its own reversal. -/
theorem bitRev_pred (m : ℕ) : bitRev m (2 ^ m - 1) = 2 ^ m - 1 := by
  induction m with
  | zero => rfl
  | succ m ih =>
    have hm := Nat.two_pow_pos m
    rw [show 2 ^ (m + 1) - 1 = 2 * (2 ^ m - 1) + 1 by rw [pow_succ]; omega,
      bitRev_two_mul_add_one, ih]
    omega

/-! ### Opposite indices -/

/-- The indices `2^r + s` and `2^r + s'`, where `s` and `s'` are complements in `r` bits. -/
def Opposite (r c c' : ℕ) : Prop :=
  2 ^ r ≤ c ∧ 2 ^ r ≤ c' ∧ c + c' + 1 = 3 * 2 ^ r

variable {r c c' : ℕ}

theorem Opposite.symm (h : Opposite r c c') : Opposite r c' c :=
  ⟨h.2.1, h.1, by rw [← h.2.2, add_comm c']⟩

theorem Opposite.lt (h : Opposite r c c') : c < 2 ^ (r + 1) := by
  obtain ⟨_, h', hsum⟩ := h
  rw [pow_succ]
  omega

theorem Opposite.child (h : Opposite r c c') : Opposite (r + 1) (2 * c) (2 * c' + 1) := by
  obtain ⟨h, h', hsum⟩ := h
  unfold Opposite
  rw [pow_succ]
  omega

theorem Opposite.parent (h : Opposite (r + 1) c c') :
    c % 2 + c' % 2 = 1 ∧ Opposite r (c / 2) (c' / 2) := by
  obtain ⟨h, h', hsum⟩ := h
  unfold Opposite
  rw [pow_succ] at h h' hsum
  omega

/-- The reversals of opposite indices are the negatives of each other. -/
theorem Opposite.bitRev_add {m : ℕ} (h : Opposite r c c') (hr : r < m) :
    bitRev m c + bitRev m c' = 2 ^ m := by
  induction r generalizing m c c' with
  | zero =>
    obtain ⟨m, rfl⟩ := Nat.exists_eq_add_of_lt hr
    obtain ⟨h, h', hsum⟩ := h
    rw [pow_zero] at h h' hsum
    obtain rfl : c = 1 := by omega
    obtain rfl : c' = 1 := by omega
    rw [zero_add, bitRev_succ, pow_succ]
    simp
    omega
  | succ r ih =>
    obtain ⟨m, rfl⟩ := Nat.exists_eq_add_of_lt hr
    -- one of the lowest bits is set, and the halves are opposite
    obtain ⟨hbit, hhalf⟩ := h.parent
    have hsum := ih (m := r + 1 + m) hhalf (by omega)
    rw [bitRev_succ, bitRev_succ, pow_succ]
    calc c % 2 * 2 ^ (r + 1 + m) + bitRev (r + 1 + m) (c / 2)
          + (c' % 2 * 2 ^ (r + 1 + m) + bitRev (r + 1 + m) (c' / 2))
        = (c % 2 + c' % 2) * 2 ^ (r + 1 + m)
          + (bitRev (r + 1 + m) (c / 2) + bitRev (r + 1 + m) (c' / 2)) := by ring
      _ = 2 ^ (r + 1 + m) * 2 := by rw [hbit, hsum]; ring

/-! ### Reversed counters -/

/-- The value of a reversed counter with weights `l`, `l / 2`, … after `i`
increments. -/
def revSum : ℕ → ℕ → ℕ → ℕ
  | 0, _, _ => 0
  | s + 1, l, i => i % 2 * l + revSum s (l / 2) (i / 2)

theorem revSum_succ (s l i : ℕ) :
    revSum (s + 1) l i = i % 2 * l + revSum s (l / 2) (i / 2) := rfl

@[simp] theorem revSum_weight_zero (s i : ℕ) : revSum s 0 i = 0 := by
  induction s generalizing i with
  | zero => rfl
  | succ s ih => simp [revSum_succ, ih]

@[simp] theorem revSum_at_zero (s l : ℕ) : revSum s l 0 = 0 := by
  induction s generalizing l with
  | zero => rfl
  | succ s ih => simp [revSum_succ, ih]

theorem revSum_at_one (s l : ℕ) : revSum (s + 1) l 1 = l := by
  simp [revSum_succ]

/-- The weights below a weight sum to less than it. -/
theorem revSum_lt (s : ℕ) {l : ℕ} (hl : 0 < l) (i : ℕ) : revSum s l i < 2 * l := by
  induction s generalizing l i with
  | zero => simp [revSum, hl]
  | succ s ih =>
    have hi : i % 2 * l ≤ l := by
      rcases Nat.mod_two_eq_zero_or_one i with h | h <;> simp [h]
    rw [revSum_succ]
    rcases Nat.eq_zero_or_pos (l / 2) with h0 | h0
    · rw [h0, revSum_weight_zero]
      omega
    · have h := ih h0 (i / 2)
      omega

/-- No carry out of an even value: the top weight is clear, and the lower ones
do not reach it. -/
theorem revSum_lt_of_even (s : ℕ) {l i : ℕ} (hl : 0 < l) (hi : i % 2 = 0) :
    revSum (s + 1) l i < l := by
  rw [revSum_succ, hi, zero_mul, zero_add]
  rcases Nat.eq_zero_or_pos (l / 2) with h0 | h0
  · rwa [h0, revSum_weight_zero]
  · have h := revSum_lt s h0 (i / 2)
    omega

theorem revSum_succ_of_even (s l : ℕ) {i : ℕ} (hi : i % 2 = 0) :
    revSum (s + 1) l (i + 1) = revSum (s + 1) l i + l := by
  rw [revSum_succ, revSum_succ, hi, show (i + 1) % 2 = 1 by omega,
    show (i + 1) / 2 = i / 2 by omega]
  ring

/-- An odd value carries: its top weight is set. -/
theorem revSum_of_odd (s l : ℕ) {i : ℕ} (hi : i % 2 = 1) :
    revSum (s + 1) l i = l + revSum s (l / 2) (i / 2) := by
  rw [revSum_succ, hi, one_mul]

theorem revSum_succ_of_odd (s l : ℕ) {i : ℕ} (hi : i % 2 = 1) :
    revSum (s + 1) l (i + 1) = revSum s (l / 2) (i / 2 + 1) := by
  rw [revSum_succ, show (i + 1) % 2 = 0 by omega, show (i + 1) / 2 = i / 2 + 1 by omega, zero_mul,
    zero_add]

/-- At a power of two the reversed counter counts in bit-reversed order. -/
theorem revSum_two_pow (m i : ℕ) : revSum m (2 ^ m / 2) i = bitRev m i := by
  induction m generalizing i with
  | zero => rfl
  | succ m ih =>
    rw [revSum_succ, bitRev_succ, pow_succ, Nat.mul_div_cancel _ (by omega), ih]

/-! ### Bit reversal by swaps -/

variable {α : Type}

/-- The array `a` once every swap at a position below `i` is done. -/
def revUpTo (m i : ℕ) (a : ℕ → α) (t : ℕ) : α :=
  if t < i ∨ bitRev m t < i then a (bitRev m t) else a t

/-- Passing a position whose partner lies ahead: the two are swapped. -/
theorem revUpTo_succ_swap {m i t : ℕ} (a : ℕ → α) (hi : i < 2 ^ m) (ht : t < 2 ^ m)
    (h : i < bitRev m i) :
    revUpTo m (i + 1) a t =
      if t = i then revUpTo m i a (bitRev m i)
      else if t = bitRev m i then revUpTo m i a i else revUpTo m i a t := by
  have hii := bitRev_bitRev m hi
  by_cases h1 : t = i
  · subst h1
    rw [if_pos rfl, revUpTo, revUpTo, if_pos (Or.inl (by omega)), if_neg (by omega)]
  · rw [if_neg h1]
    by_cases h2 : t = bitRev m i
    · subst h2
      rw [if_pos rfl, revUpTo, revUpTo, if_pos (Or.inr (by omega)), if_neg (by omega), hii]
    · have h3 : bitRev m t ≠ i := fun he => h2 ((bitRev_eq_iff m ht hi).mp he)
      rw [if_neg h2, revUpTo, revUpTo]
      exact if_congr (by omega) rfl rfl

/-- Passing a position whose partner is itself or lies behind: nothing to do. -/
theorem revUpTo_succ_skip {m i t : ℕ} (a : ℕ → α) (hi : i < 2 ^ m) (ht : t < 2 ^ m)
    (h : bitRev m i ≤ i) : revUpTo m (i + 1) a t = revUpTo m i a t := by
  have hii := bitRev_bitRev m hi
  rw [revUpTo, revUpTo]
  by_cases h1 : t = i
  · subst h1
    rw [if_pos (Or.inl (by omega))]
    rcases Nat.lt_or_ge (bitRev m t) t with h2 | h2
    · rw [if_pos (Or.inr h2)]
    · rw [if_neg (by omega), show bitRev m t = t by omega]
  · by_cases h2 : bitRev m t = i
    · have h3 : t = bitRev m i := (bitRev_eq_iff m ht hi).mp h2
      rw [if_pos (Or.inr (by omega)), if_pos (Or.inl (by omega))]
    · exact if_congr (by omega) rfl rfl

/-- Before the first swap. -/
theorem revUpTo_one {m t : ℕ} (a : ℕ → α) (ht : t < 2 ^ m) : revUpTo m 1 a t = a t := by
  rw [revUpTo]
  split
  · next h =>
    have hm := Nat.two_pow_pos m
    rcases h with h | h
    · rw [show t = 0 by omega, bitRev_at_zero]
    · have h0 : t = bitRev m 0 := (bitRev_eq_iff m ht hm).mp (by omega)
      rw [h0, bitRev_at_zero, bitRev_at_zero]
  · rfl

/-- After the last swap. -/
theorem revUpTo_pred {m t : ℕ} (a : ℕ → α) (ht : t < 2 ^ m) :
    revUpTo m (2 ^ m - 1) a t = a (bitRev m t) := by
  rw [revUpTo]
  split
  · rfl
  · next h =>
    rw [show t = 2 ^ m - 1 by omega, bitRev_pred]

end Dft
