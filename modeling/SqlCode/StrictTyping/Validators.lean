import SqlCode.Text.Numeral

/-!
# The validators

`validate_int_udf` and `validate_double_udf` of `capi_ext/strict_typing.c`. Both let `strtol`
or `strtod` set an end pointer and accept a text if it points to the terminating zero.

That is so for a numeral with white space before it. But the functions set the pointer to the
start of a text that does not begin with a numeral, and the start of the empty text is its
end. So this text is accepted as well, and no other (`acceptsNumerals_iff`).
-/

namespace SqlCode.StrictTyping

open Text

/-- What a validator returns for a value, `none` for `NULL`. The end pointer of the function that
it calls is `endOf value` behind the start. -/
def validate (endOf : List Byte → ℕ) : Option (List Byte) → ℤ
  -- Assuming NULL values for type checked columns not allowed
  | none => 0
  | some value =>
    -- `*tmp`, which is zero behind the text
    if (value.drop (endOf value)).headD 0 ≠ 0 then 0 else 1

/-- `validate_int_udf`. -/
def validateInt (value : Option (List Byte)) : ℤ := validate strtol value

/-- `validate_double_udf`. -/
def validateDouble (value : Option (List Byte)) : ℤ := validate strtod value

/-- White space and an integer. -/
def IntNumeral (v : List Byte) : Prop := v ∈ (spaces * intLiteral).matches'

/-- White space and a floating-point number. -/
def DoubleNumeral (v : List Byte) : Prop := v ∈ (spaces * floatLiteral).matches'

/-- The validators accept the text if and only if it is a numeral of their type. -/
def AcceptsNumerals (v : List Byte) : Prop :=
  (validateInt (some v) = 1 ↔ IntNumeral v) ∧ (validateDouble (some v) = 1 ↔ DoubleNumeral v)

variable {v : List Byte}

/-- **The numerals of `validate_int`**: white space, a sign, and decimal, octal or hexadecimal
digits. -/
theorem intNumeral_iff : IntNumeral v ↔ ∃ s u w, v = s ++ (u ++ w) ∧
    (∀ c ∈ s, c ∈ spaceChars) ∧ (u = [] ∨ u = [43] ∨ u = [45]) ∧ IntDigits w := by
  unfold IntNumeral
  rw [RegularExpression.matches'_mul, Language.mem_mul]
  constructor
  · rintro ⟨s, hs, t, ht, rfl⟩
    obtain ⟨u, w, rfl, hu, hw⟩ := mem_intLiteral.mp ht
    exact ⟨s, u, w, rfl, mem_star_oneOf.mp hs, hu, hw⟩
  · rintro ⟨s, u, w, rfl, hs, hu, hw⟩
    exact ⟨s, mem_star_oneOf.mpr hs, u ++ w, mem_intLiteral.mpr ⟨u, w, rfl, hu, hw⟩, rfl⟩

/-- A validator accepts exactly if nothing is left of the text. -/
theorem validate_eq_one_iff {endOf : List Byte → ℕ} (hv : 0 ∉ v) :
    validate endOf (some v) = 1 ↔ v.drop (endOf v) = [] := by
  unfold validate
  dsimp only
  generalize hrest : v.drop (endOf v) = rest
  cases rest with
  | nil => exact iff_of_true rfl rfl
  | cons c rest =>
    -- a byte of the text is no zero
    have hc : c ≠ 0 := by
      rintro rfl
      have hmem : 0 ∈ v.drop (endOf v) := hrest ▸ List.mem_cons_self
      exact hv (List.mem_of_mem_drop hmem)
    rw [List.headD_cons, if_pos hc]
    exact iff_of_false (by decide) (List.cons_ne_nil c rest)

/-- **What a validator accepts**: the texts of its form, and the empty one. -/
theorem validate_endptr_iff (P : RegularExpression Byte) (hv : 0 ∉ v) :
    validate (endptr P) (some v) = 1 ↔ v = [] ∨ v ∈ P.matches' :=
  (validate_eq_one_iff hv).trans drop_endptr_eq_nil_iff

/-- A numeral has a digit. -/
theorem not_intNumeral_nil : ¬ IntNumeral [] := by
  intro h
  obtain ⟨s, u, w, hnil, -, -, hw⟩ := intNumeral_iff.mp h
  obtain rfl : w = [] := (List.append_eq_nil_iff.mp (List.append_eq_nil_iff.mp hnil.symm).2).2
  cases hw

theorem not_doubleNumeral_nil : ¬ DoubleNumeral [] := by
  intro h
  have hneeds : needs (fun _ => true) (spaces * floatLiteral) = true := by decide
  obtain ⟨c, hc, -⟩ := exists_of_needs hneeds h
  cases hc

/-- **The texts on which the validators are right** are those that are not empty. -/
theorem acceptsNumerals_iff (hv : 0 ∉ v) : AcceptsNumerals v ↔ v ≠ [] := by
  have hint : validateInt (some v) = 1 ↔ v = [] ∨ IntNumeral v := validate_endptr_iff _ hv
  have hdouble : validateDouble (some v) = 1 ↔ v = [] ∨ DoubleNumeral v :=
    validate_endptr_iff _ hv
  unfold AcceptsNumerals
  rw [hint, hdouble]
  constructor
  · rintro ⟨h, -⟩ rfl
    exact not_intNumeral_nil (h.mp (.inl rfl))
  · intro hne
    exact ⟨or_iff_right hne, or_iff_right hne⟩

/-- On `0x` the end pointer is at the `x`, and both validators refuse it. -/
theorem acceptsNumerals_prefix : AcceptsNumerals (bytes ['0', 'x']) :=
  (acceptsNumerals_iff (by decide)).mpr (by decide)

/-- Both accept the empty text. -/
theorem validators_accept_nil : ¬ (validateInt (some []) = 1 ↔ IntNumeral []) ∧
    ¬ (validateDouble (some []) = 1 ↔ DoubleNumeral []) :=
  ⟨fun h => not_intNumeral_nil (h.mp (by decide)),
    fun h => not_doubleNumeral_nil (h.mp (by decide))⟩

end SqlCode.StrictTyping
