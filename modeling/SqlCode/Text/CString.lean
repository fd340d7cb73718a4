import Mathlib.Algebra.Order.Ring.Int
import Mathlib.Data.List.Induction
import Mathlib.Data.List.Lex
import Mathlib.Data.List.TakeWhile
import Mathlib.Tactic.Positivity.Basic
import Mathlib.Tactic.Ring

/-!
# Strings of C

A string of C is the list of the bytes before its terminating zero. The functions of
`string.h`, `ctype.h` and `stdlib.h` are those of the C locale, on numbers that do not
overflow.
-/

namespace Text

/-- A byte. -/
abbrev Byte : Type := UInt8

/-- The bytes of a text in ASCII. -/
def bytes (s : List Char) : List Byte := s.map Char.toUInt8

/-- `'0'`. -/
abbrev zeroChar : Byte := 48

/-- `isspace`. -/
def isSpace (c : Byte) : Bool := c == 32 || (9 ≤ c && c ≤ 13)

/-- `isdigit`. -/
def isDigit (c : Byte) : Bool := zeroChar ≤ c && c ≤ 57

/-- `isalpha`. -/
def isAlpha (c : Byte) : Bool := (65 ≤ c && c ≤ 90) || (97 ≤ c && c ≤ 122)

/-- `toupper`. -/
def toUpper (c : Byte) : Byte := if 97 ≤ c && c ≤ 122 then c - 32 else c

/-- `tolower`. -/
def toLower (c : Byte) : Byte := if 65 ≤ c && c ≤ 90 then c + 32 else c

/-- The string in a buffer after `strncpy(buffer, s, n)` and `buffer[n] = 0`, where `s` is
any sequence of bytes. -/
def strncpy (s : List Byte) (n : ℕ) : List Byte := (s.take n).takeWhile (· ≠ 0)

/-- `strchr`: the rest of the string from the first `c` on. The empty list stands for `NULL`. -/
def strchr (s : List Byte) (c : Byte) : List Byte := s.dropWhile (· ≠ c)

/-- `strcmp`: `-1`, `0` or `1`, by the first byte that differs. -/
def strcmp : List Byte → List Byte → ℤ
  | [], [] => 0
  | [], _ :: _ => -1
  | _ :: _, [] => 1
  | c :: s, d :: t => if c < d then -1 else if d < c then 1 else strcmp s t

/-- The digits of a number. -/
def decimal (n : ℕ) : List Byte := bytes (Nat.toDigits 10 n)

/-- What `printf` makes of an `int` under the format `%02i`. -/
def format02 (n : ℤ) : List Byte :=
  let sign : List Byte := if n < 0 then [45] else []
  let digits := decimal n.natAbs
  sign ++ List.replicate (2 - (sign ++ digits).length) zeroChar ++ digits

/-- The number that a sequence of digits stands for. -/
def digitsValue (s : List Byte) : ℕ := s.foldl (fun n c => 10 * n + (c - zeroChar).toNat) 0

/-- `atoi`: spaces, a sign, and the digits behind it. -/
def atoi (s : List Byte) : ℤ :=
  let s := s.dropWhile isSpace
  if s.head? = some 45 then -(digitsValue (s.tail.takeWhile isDigit))
  else if s.head? = some 43 then digitsValue (s.tail.takeWhile isDigit)
  else digitsValue (s.takeWhile isDigit)

variable {s t : List Byte} {c : Byte}

/-! ### Classes of bytes -/

theorem isDigit_iff : isDigit c = true ↔ 48 ≤ c.toNat ∧ c.toNat ≤ 57 := by
  unfold isDigit
  rw [Bool.and_eq_true, decide_eq_true_eq, decide_eq_true_eq, UInt8.le_iff_toNat_le,
    UInt8.le_iff_toNat_le]
  rfl

theorem isAlpha_iff : isAlpha c = true ↔
    (65 ≤ c.toNat ∧ c.toNat ≤ 90) ∨ (97 ≤ c.toNat ∧ c.toNat ≤ 122) := by
  unfold isAlpha
  simp only [Bool.or_eq_true, Bool.and_eq_true, decide_eq_true_eq, UInt8.le_iff_toNat_le]
  rfl

theorem ne_of_isDigit {d : Byte} (h : isDigit c = true) (hd : isDigit d = false) : c ≠ d := by
  rintro rfl
  rw [h] at hd
  cases hd

theorem isSpace_of_isDigit (h : isDigit c = true) : isSpace c = false := by
  obtain ⟨hlo, hhi⟩ := isDigit_iff.mp h
  have hle : ¬ c ≤ 13 := by
    rw [UInt8.le_iff_toNat_le]
    exact fun hc => by have : c.toNat ≤ 13 := hc; omega
  have hne : c ≠ 32 := ne_of_isDigit h rfl
  simp [isSpace, hle, hne]

/-- Only a letter becomes a letter. -/
theorem isAlpha_of_toUpper (h : isAlpha (toUpper c) = true) : isAlpha c = true := by
  unfold toUpper at h
  split_ifs at h with hlower
  · rw [Bool.and_eq_true, decide_eq_true_eq, decide_eq_true_eq, UInt8.le_iff_toNat_le,
      UInt8.le_iff_toNat_le] at hlower
    exact isAlpha_iff.mpr (.inr hlower)
  · exact h

/-! ### Parts of strings -/

theorem strncpy_append (hs : ∀ c ∈ s, c ≠ 0) (t : List Byte) : strncpy (s ++ t) s.length = s := by
  unfold strncpy
  rw [List.take_left, List.takeWhile_eq_self_iff]
  simpa using hs

/-- A string is copied as a whole into a buffer that is long enough. -/
theorem strncpy_length (hs : ∀ c ∈ s, c ≠ 0) : strncpy s s.length = s := by
  have hcopy := strncpy_append hs []
  rwa [List.append_nil] at hcopy

theorem strchr_append (hs : c ∉ s) (t : List Byte) : strchr (s ++ c :: t) c = c :: t := by
  unfold strchr
  rw [List.dropWhile_append_of_pos, List.dropWhile_cons_of_neg]
  · simp
  · intro d hd
    exact decide_eq_true fun hdc => hs (hdc ▸ hd)

/-! ### Numbers -/

theorem digitsValue_append (s t : List Byte) :
    digitsValue (s ++ t) = digitsValue s * 10 ^ t.length + digitsValue t := by
  induction t using List.reverseRecOn with
  | nil => simp [digitsValue]
  | append_singleton t c ih =>
    have hsnoc (u : List Byte) :
        digitsValue (u ++ [c]) = 10 * digitsValue u + (c - zeroChar).toNat :=
      List.foldl_append
    rw [← List.append_assoc, hsnoc, hsnoc, ih, List.length_append, List.length_singleton]
    ring

theorem digitsValue_lt (hs : ∀ c ∈ s, isDigit c = true) : digitsValue s < 10 ^ s.length := by
  -- digits are added at the end
  induction s using List.reverseRecOn with
  | nil => exact Nat.one_pos
  | append_singleton s c ih =>
    have hc : (c - zeroChar).toNat < 10 := by
      obtain ⟨hlo, hhi⟩ := isDigit_iff.mp (hs c (by simp))
      have h48 : zeroChar.toNat = 48 := rfl
      rw [UInt8.toNat_sub_of_le _ _ (UInt8.le_iff_toNat_le.mpr (by omega))]
      omega
    have hlt := ih fun d hd => hs d (List.mem_append_left _ hd)
    rw [digitsValue_append, List.length_append, List.length_singleton, pow_succ]
    have hone : digitsValue [c] = (c - zeroChar).toNat := by simp [digitsValue]
    rw [hone]
    omega

/-- The value of a sequence of digits determines what its first digits stand for. -/
theorem digitsValue_append_div (s : List Byte) (ht : ∀ c ∈ t, isDigit c = true) :
    digitsValue (s ++ t) / 10 ^ t.length = digitsValue s := by
  rw [digitsValue_append, Nat.add_comm, Nat.add_mul_div_right _ _ (by positivity),
    Nat.div_eq_of_lt (digitsValue_lt ht), Nat.zero_add]

/-! ### Comparing numbers of two digits -/

/-- A common start is skipped. -/
theorem strcmp_append (u s t : List Byte) : strcmp (u ++ s) (u ++ t) = strcmp s t := by
  induction u with
  | nil => rfl
  | cons c u ih =>
    rw [List.cons_append, List.cons_append, strcmp, if_neg (UInt8.lt_irrefl c),
      if_neg (UInt8.lt_irrefl c), ih]

theorem strcmp_self (s : List Byte) : strcmp s s = 0 := by
  have h := strcmp_append s [] []
  rwa [List.append_nil] at h

/-- Exchanging the strings changes the sign. -/
theorem strcmp_swap (s t : List Byte) : strcmp t s = -strcmp s t := by
  induction s generalizing t with
  | nil => cases t <;> rfl
  | cons c s ih =>
    cases t with
    | nil => rfl
    | cons d t =>
      rw [strcmp, strcmp, ih]
      split_ifs with hdc hcd
      · exact absurd (UInt8.lt_trans hdc hcd) (UInt8.lt_irrefl d)
      · rfl
      · rfl
      · rfl

/-- `strcmp` is the lexicographic order of the bytes. -/
theorem strcmp_neg_iff {s t : List Byte} : strcmp s t < 0 ↔ List.Lex (· < ·) s t := by
  induction s generalizing t with
  | nil => cases t <;> simp [strcmp]
  | cons c s ih =>
    cases t with
    | nil => simp [strcmp]
    | cons d t =>
      rw [strcmp]
      split_ifs with hcd hdc
      · exact iff_of_true (by decide) (.rel hcd)
      · refine iff_of_false (by decide) fun h => ?_
        cases h with
        | cons _ => exact UInt8.lt_irrefl c hdc
        | rel h => exact hcd h
      · obtain rfl : c = d := UInt8.le_antisymm (UInt8.not_lt.mp hdc) (UInt8.not_lt.mp hcd)
        rw [ih, List.lex_cons_iff]

theorem strcmp_pos_iff {s t : List Byte} : 0 < strcmp s t ↔ List.Lex (· < ·) t s := by
  rw [← strcmp_neg_iff, strcmp_swap s t, neg_lt_zero]

theorem format02_of_lt {n : ℕ} (hn : n < 100) :
    format02 n = [zeroChar + (n / 10).toUInt8, zeroChar + (n % 10).toUInt8] := by
  have hall : ∀ n : Fin 100, format02 (n.val : ℤ)
      = [zeroChar + (n.val / 10).toUInt8, zeroChar + (n.val % 10).toUInt8] := by decide
  exact hall ⟨n, hn⟩

/-- Digits compare as their bytes. -/
theorem strcmp_digit {m n : ℕ} (hm : m < 10) (hn : n < 10) (s t : List Byte) :
    strcmp ((zeroChar + m.toUInt8) :: s) ((zeroChar + n.toUInt8) :: t) =
      if m < n then -1 else if n < m then 1 else strcmp s t := by
  have hall : ∀ m n : Fin 10,
      zeroChar + m.val.toUInt8 < zeroChar + n.val.toUInt8 ↔ m.val < n.val := by decide
  exact if_congr (hall ⟨m, hm⟩ ⟨n, hn⟩) rfl (if_congr (hall ⟨n, hn⟩ ⟨m, hm⟩) rfl rfl)

/-- **Texts of two digits compare as their numbers.** -/
theorem strcmp_format02 {m n : ℤ} (hm : 0 ≤ m ∧ m < 100) (hn : 0 ≤ n ∧ n < 100)
    (s t : List Byte) : strcmp (format02 m ++ s) (format02 n ++ t) =
      if m < n then -1 else if n < m then 1 else strcmp s t := by
  lift m to ℕ using hm.1
  lift n to ℕ using hn.1
  rw [format02_of_lt (by omega), format02_of_lt (by omega)]
  simp only [List.cons_append, List.nil_append]
  rw [strcmp_digit (by omega) (by omega), strcmp_digit (by omega) (by omega)]
  split_ifs <;> first | rfl | omega

/-- A run of digits is read up to its end. -/
theorem atoi_digits (hs : ∀ c ∈ s, isDigit c = true) (hne : s ≠ [])
    (ht : t.takeWhile isDigit = []) : atoi (s ++ t) = digitsValue s := by
  obtain ⟨c, s, rfl⟩ := List.exists_cons_of_ne_nil hne
  have hc := hs c List.mem_cons_self
  -- a digit is no space and no sign
  have hdrop : (c :: s ++ t).dropWhile isSpace = c :: s ++ t := by
    rw [List.cons_append, List.dropWhile_cons_of_neg]
    rw [isSpace_of_isDigit hc]
    exact Bool.false_ne_true
  have hminus : (c :: s ++ t).head? ≠ some 45 := fun h =>
    ne_of_isDigit hc rfl (Option.some.inj h)
  have hplus : (c :: s ++ t).head? ≠ some 43 := fun h =>
    ne_of_isDigit hc rfl (Option.some.inj h)
  unfold atoi
  rw [hdrop]
  dsimp only
  rw [if_neg hminus, if_neg hplus, List.takeWhile_append_of_pos hs, ht, List.append_nil]

end Text
