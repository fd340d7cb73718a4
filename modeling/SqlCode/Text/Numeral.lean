import SqlCode.Text.CString
import SqlCode.Text.Longest
import Mathlib.Algebra.Order.Field.Rat

/-!
# Numerals

The texts that `strtol`, `strtod` and the conversion `%f` of `scanf` take for numbers, in the
C locale, as regular expressions. `strtol` and `strtod` set their end pointer behind the longest
prefix that is a numeral, and to the start if there is none. So the pointer is at the end
of the text exactly if the whole of it is a numeral or it is empty (`drop_endptr_eq_nil_iff`).

`scanf` reads the longest prefix that is one of a numeral, and fails if it is none itself. From a
text that breaks off in a numeral it reads all of it (`scanfFloat_prefix`).
-/

namespace Text

open RegularExpression

/-! ### The grammar -/

/-- A character. -/
def chr (c : Char) : RegularExpression Byte := char c.toUInt8

/-- A word, without regard to case. -/
def anyCase (word : List Char) : RegularExpression Byte :=
  ((bytes word).map fun c => oneOf [c, toUpper c]).prod

/-- The decimal digits. -/
def decimalDigits : List Byte := bytes ['0', '1', '2', '3', '4', '5', '6', '7', '8', '9']

/-- The hexadecimal digits. -/
def hexDigits : List Byte :=
  decimalDigits ++ bytes ['a', 'b', 'c', 'd', 'e', 'f', 'A', 'B', 'C', 'D', 'E', 'F']

/-- The characters of `isspace`. -/
def spaceChars : List Byte := [32, 9, 10, 11, 12, 13]

/-- The white space before a number. -/
def spaces : RegularExpression Byte := (oneOf spaceChars).star

/-- An optional sign. -/
def sign : RegularExpression Byte := maybe (oneOf (bytes ['+', '-']))

/-- An integer of base 0 without a sign: decimal, octal behind a `0`, or hexadecimal behind
`0x`. -/
def unsignedInt : RegularExpression Byte :=
  oneOf decimalDigits.tail * (oneOf decimalDigits).star +
    chr '0' * (oneOf (decimalDigits.take 8)).star +
    chr '0' * oneOf (bytes ['x', 'X']) * many1 (oneOf hexDigits)

/-- An integer of base 0. -/
def intLiteral : RegularExpression Byte := sign * unsignedInt

/-- Digits with an optional point. -/
def mantissa (digits : List Byte) : RegularExpression Byte :=
  many1 (oneOf digits) * maybe (chr '.' * (oneOf digits).star) + chr '.' * many1 (oneOf digits)

/-- An optional exponent, which is decimal. -/
def exponent (mark : List Char) : RegularExpression Byte :=
  maybe (oneOf (bytes mark) * sign * many1 (oneOf decimalDigits))

/-- A number in decimal notation without a sign. -/
def unsignedDecimal : RegularExpression Byte := mantissa decimalDigits * exponent ['e', 'E']

/-- A number in decimal notation. -/
def decimalLiteral : RegularExpression Byte := sign * unsignedDecimal

/-- A number in hexadecimal notation without a sign. -/
def hexFloat : RegularExpression Byte :=
  chr '0' * oneOf (bytes ['x', 'X']) * (mantissa hexDigits * exponent ['p', 'P'])

/-- The characters that may stand in the parentheses of a `nan`. -/
def nameChars : List Byte :=
  decimalDigits ++ (List.range 26).map (97 + ·.toUInt8) ++ (List.range 26).map (65 + ·.toUInt8)
    ++ bytes ['_']

/-- `inf`, `infinity` and `nan`. -/
def infinityOrNan : RegularExpression Byte :=
  anyCase ['i', 'n', 'f'] * maybe (anyCase ['i', 'n', 'i', 't', 'y']) +
    anyCase ['n', 'a', 'n'] * maybe (chr '(' * (oneOf nameChars).star * chr ')')

/-- A floating-point number. -/
def floatLiteral : RegularExpression Byte :=
  sign * (unsignedDecimal + (hexFloat + infinityOrNan))

/-- The digits of an integer of base 0, by its first characters. -/
inductive IntDigits : List Byte → Prop
  /-- A digit other than `0` first. -/
  | decimal {d : Byte} {ds : List Byte} (hd : d ∈ decimalDigits.tail)
      (hds : ∀ c ∈ ds, c ∈ decimalDigits) : IntDigits (d :: ds)
  /-- A `0` first. -/
  | octal {ds : List Byte} (hds : ∀ c ∈ ds, c ∈ decimalDigits.take 8) : IntDigits (48 :: ds)
  /-- `0x` first, and at least one digit behind it. -/
  | hex {x : Byte} {ds : List Byte} (hx : x ∈ bytes ['x', 'X']) (hne : ds ≠ [])
      (hds : ∀ c ∈ ds, c ∈ hexDigits) : IntDigits (48 :: x :: ds)

theorem mem_sign {u : List Byte} : u ∈ sign.matches' ↔ u = [] ∨ u = [43] ∨ u = [45] := by
  unfold sign maybe
  rw [matches'_add, Language.mem_add, mem_oneOf]
  simp only [matches'_epsilon, Language.mem_one, bytes, List.map_cons, List.map_nil,
    List.mem_cons, List.not_mem_nil, or_false, exists_eq_or_imp, exists_eq_left]
  rfl

theorem mem_unsignedInt {v : List Byte} : v ∈ unsignedInt.matches' ↔ IntDigits v := by
  constructor
  -- the alternatives of the expression are the constructors
  · rintro ((⟨u, hu, ds, hds, rfl⟩ | ⟨u, hu, ds, hds, rfl⟩) | ⟨_, ⟨u, hu, t, ht, rfl⟩, ds, hds, rfl⟩)
    · obtain ⟨d, hd, rfl⟩ := mem_oneOf.mp hu
      exact .decimal hd (mem_star_oneOf.mp hds)
    · obtain rfl : u = [48] := hu
      exact .octal (mem_star_oneOf.mp hds)
    · obtain rfl : u = [48] := hu
      obtain ⟨x, hx, rfl⟩ := mem_oneOf.mp ht
      obtain ⟨hne, hds⟩ := mem_many1_oneOf.mp hds
      exact .hex hx hne hds
  · intro h
    cases h with
    | @decimal d ds hd hds =>
      have hrest := mem_star_oneOf.mpr hds
      exact .inl (.inl (Language.append_mem_mul (mem_oneOf.mpr ⟨d, hd, rfl⟩) hrest))
    | @octal ds hds =>
      have hzero : [48] ∈ (chr '0').matches' := rfl
      exact .inl (.inr (Language.append_mem_mul hzero (mem_star_oneOf.mpr hds)))
    | @hex x ds hx hne hds =>
      have hzero : [48] ∈ (chr '0').matches' := rfl
      have hprefix := Language.append_mem_mul hzero (mem_oneOf.mpr ⟨x, hx, rfl⟩)
      exact .inr (Language.append_mem_mul hprefix (mem_many1_oneOf.mpr ⟨hne, hds⟩))

/-- **The integers of the grammar**: a sign and digits. -/
theorem mem_intLiteral {v : List Byte} : v ∈ intLiteral.matches' ↔
    ∃ u w, v = u ++ w ∧ (u = [] ∨ u = [43] ∨ u = [45]) ∧ IntDigits w := by
  unfold intLiteral
  rw [matches'_mul, Language.mem_mul]
  constructor
  · rintro ⟨u, hu, w, hw, rfl⟩
    exact ⟨u, w, rfl, mem_sign.mp hu, mem_unsignedInt.mp hw⟩
  · rintro ⟨u, w, rfl, hu, hw⟩
    exact ⟨u, mem_sign.mpr hu, w, mem_unsignedInt.mpr hw, rfl⟩

/-! ### `strtol` and `strtod` -/

/-- How far the end pointer is from the start after the longest prefix that matches. -/
def endptr (P : RegularExpression Byte) (s : List Byte) : ℕ :=
  ((longest P.rmatch s).getD []).length

/-- Where `strtol (s, &end, 0)` sets the end pointer. -/
def strtol (s : List Byte) : ℕ := endptr (spaces * intLiteral) s

/-- Where `strtod (s, &end)` sets the end pointer. -/
def strtod (s : List Byte) : ℕ := endptr (spaces * floatLiteral) s

variable {P : RegularExpression Byte} {s t u : List Byte} {c : Byte}

/-- **Where the end pointer is at the end.** -/
theorem drop_endptr_eq_nil_iff : s.drop (endptr P s) = [] ↔ s = [] ∨ s ∈ P.matches' := by
  unfold endptr
  rw [List.drop_eq_nil_iff, ← rmatch_iff_matches', ← longest_eq_self_iff]
  cases hlong : longest P.rmatch s with
  | none => simp
  | some u =>
    -- a prefix of the same length is the whole
    have hu := (longest_eq_some_iff.mp hlong).1
    rw [Option.getD_some]
    constructor
    · exact fun hle => .inr (congrArg some (hu.eq_of_length_le hle))
    · rintro (rfl | h)
      · exact Nat.zero_le _
      · exact (congrArg List.length (Option.some.inj h)).ge

example : strtol (bytes ['0', 'x']) = 1 ∧ strtol (bytes ['-', '0', '1', '8']) = 3 ∧
    strtol (bytes [' ', '+']) = 0 := by decide

/-! ### Decimal numbers -/

/-- The text of a number in decimal notation. -/
def Decimal (s : List Byte) : Prop := s ∈ decimalLiteral.matches'

instance : DecidablePred Decimal := fun s =>
  inferInstanceAs (Decidable (s ∈ decimalLiteral.matches'))

/-- The number that a decimal text stands for. -/
def decimalValue (s : List Byte) : ℚ :=
  let signed := s.head? = some 43 ∨ s.head? = some 45
  let t := if signed then s.tail else s
  let whole := t.takeWhile isDigit
  let rest := t.dropWhile isDigit
  let point := rest.head? = some 46
  let frac := if point then rest.tail.takeWhile isDigit else []
  let rest := if point then rest.tail.dropWhile isDigit else rest
  let e : ℤ := if rest = [] then 0 else atoi rest.tail
  let n := digitsValue (whole ++ frac) * (10 : ℚ) ^ (e - frac.length)
  if s.head? = some 45 then -n else n

example : decimalValue (bytes ['-', '1', '.', '5', 'e', '+', '1']) = -15 := by decide +kernel

/-- A number has a digit. -/
theorem Decimal.ne_nil (h : Decimal s) : s ≠ [] := by
  rintro rfl
  have hneeds : needs isDigit decimalLiteral = true := by decide +kernel
  obtain ⟨c, hc, -⟩ := exists_of_needs hneeds h
  cases hc

theorem float_of_decimal (h : Decimal s) : s ∈ floatLiteral.matches' := by
  obtain ⟨u, hu, v, hv, rfl⟩ := Language.mem_mul.mp h
  exact Language.append_mem_mul hu (.inl hv)

/-- Without a letter of the other notations a number is a decimal one. -/
theorem decimal_of_float (h : s ∈ floatLiteral.matches')
    (hs : ∀ c ∈ s, c ∈ letters decimalLiteral) : Decimal s := by
  obtain ⟨u, hu, v, hv | hv, rfl⟩ := Language.mem_mul.mp h
  · exact Language.append_mem_mul hu hv
  · -- the `x`, the `i` of `inf` and the `n` of `nan`
    have hneeds : needs (fun c => !(letters decimalLiteral).contains c)
        (hexFloat + infinityOrNan) = true := by decide +kernel
    obtain ⟨c, hc, hother⟩ := exists_of_needs hneeds hv
    have hmem := hs c (List.mem_append_right _ hc)
    simp [hmem] at hother

/-! ### `scanf` -/

/-- The text of the number that a conversion `%f` of `scanf` reads, if it succeeds. -/
def scanfFloat (s : List Byte) : Option (List Byte) :=
  (longest (viable floatLiteral) (s.dropWhile isSpace)).filter floatLiteral.rmatch

/-- A number has no white space in it. -/
theorem isSpace_of_mem_float (h : s ∈ floatLiteral.matches') (hc : c ∈ s) : isSpace c = false := by
  have hall : ((letters floatLiteral).all fun c => !isSpace c) = true := by decide +kernel
  have hspace := List.all_eq_true.mp hall c (mem_letters h hc)
  rwa [Bool.not_eq_true'] at hspace

/-- **What is read of a text that breaks off in a number**: all of it, or nothing. -/
theorem scanfFloat_prefix (hs : s ≠ []) (hviable : ∃ u, s ++ u ∈ floatLiteral.matches')
    (ht : ∀ c ∈ t.head?, isSpace c = true) :
    scanfFloat (32 :: (s ++ t)) = if s ∈ floatLiteral.matches' then some s else none := by
  obtain ⟨u, hu⟩ := hviable
  have hdrop : (32 :: (s ++ t)).dropWhile isSpace = s ++ t := by
    obtain ⟨c, s, rfl⟩ := List.exists_cons_of_ne_nil hs
    have hc : isSpace c = false := isSpace_of_mem_float hu List.mem_cons_self
    rw [List.dropWhile_cons_of_pos rfl, List.cons_append, List.dropWhile_cons_of_neg]
    rw [hc]
    exact Bool.false_ne_true
  -- the reading stops before the white space
  have hmax : ∀ w, w <+: s ++ t → viable floatLiteral w = true → w <+: s := by
    intro w hw hviable
    rcases List.prefix_or_prefix_of_prefix hw (List.prefix_append s t) with hws | ⟨w', rfl⟩
    · exact hws
    · obtain ⟨u', hu'⟩ := viable_iff.mp hviable
      cases w' with
      | nil => exact (List.append_nil s).symm ▸ List.prefix_rfl
      | cons d w' =>
        have hd : isSpace d = false := isSpace_of_mem_float hu' (by simp)
        have hhead : d ∈ t.head? := by
          obtain ⟨t', rfl⟩ := (List.prefix_append_right_inj s).mp hw
          rfl
        rw [ht d hhead] at hd
        cases hd
  have hlong : longest (viable floatLiteral) (s ++ t) = some s :=
    longest_eq_some_iff.mpr ⟨List.prefix_append s t, viable_iff.mpr ⟨u, hu⟩, hmax⟩
  unfold scanfFloat
  rw [hdrop, hlong, Option.filter_some]
  exact if_congr (rmatch_iff_matches' _ _) rfl rfl

end Text
