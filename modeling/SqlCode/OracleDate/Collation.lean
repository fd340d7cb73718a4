import SqlCode.OracleDate.Model
import SqlCode.Order.Comparator
import Mathlib.Order.Compare

/-!
# The Oracle date collation

SQLite asks of a collation that it is a proper comparison function of strings. The
comparisons of `oracleDateCollation` are a lexicographic order of dates
(`compareStructs_eq`), so it is one on the strings that have a date. On any other string the
structs keep what was in memory, and it is not: `collation_proper_iff`.

The order is meant to be chronological. For a text `D-MON-YYYY` the pattern ends after two
digits of the year (`dateOf_text`), so the collation sorts by century, month and day, and
`collation_chronological_iff` says for which pairs that is the chronological order.
-/

namespace SqlCode.OracleDate

open Text Comparator

/-- Dates are ordered by year, month and day. -/
instance : Ord Date where
  compare := compareLex (compareOn Date.year)
    (compareLex (compareOn Date.month) (compareOn Date.day))

instance : Std.TransOrd Date :=
  inferInstanceAs (Std.TransCmp
    (compareLex (compareOn Date.year) (compareLex (compareOn Date.month) (compareOn Date.day))))

theorem compare_date (d1 d2 : Date) : compare d1 d2 =
    (compare d1.year d2.year).then ((compare d1.month d2.month).then (compare d1.day d2.day)) :=
  rfl

/-- One comparison of the chain. -/
theorem result_then (x y : ℤ) (o : Ordering) :
    result ((compare x y).then o) = if x < y then -1 else if x > y then 1 else result o := by
  rcases lt_trichotomy x y with h | h | h
  · rw [compare_lt_iff_lt.mpr h, if_pos h]
    rfl
  · subst h
    rw [compare_eq_iff_eq.mpr rfl, if_neg (lt_irrefl x), if_neg (lt_irrefl x)]
    rfl
  · rw [compare_gt_iff_gt.mpr h, if_neg h.not_gt, if_pos h]
    rfl

/-- **The comparisons are the order of dates.** -/
theorem compareStructs_eq (d1 d2 : Date) : compareStructs d1 d2 = result (compare d1 d2) := by
  have hlast : compare d1.day d2.day = (compare d1.day d2.day).then .eq := by
    cases compare d1.day d2.day <;> rfl
  rw [compare_date, result_then, result_then, hlast, result_then]
  rfl

/-! ### A proper collation -/

/-- The collation, with the contents of both structs as the memory. -/
def collation (d : Date × Date) (a b : List Byte) : ℤ := oracleDateCollation d.1 d.2 a b

/-- **The collation is proper on a set of strings exactly if all of them have a date.** -/
theorem collation_proper_iff (D : Set (List Byte)) :
    ProperOn collation D ↔ ∀ s ∈ D, HasDate s := by
  constructor
  · intro h s hs
    by_contra hno
    -- two different years may be in memory
    have hrefl := h.refl s hs (⟨0, 0, 0⟩, ⟨0, 0, 1⟩)
    unfold collation oracleDateCollation at hrefl
    rw [strToStruct_of_not_hasDate hno, strToStruct_of_not_hasDate hno] at hrefl
    exact absurd hrefl (by decide)
  · intro h
    refine properOn_of_key dateOf fun a ha b hb j => ?_
    rw [collation, collation_of_hasDate (h a ha) (h b hb), compareStructs_eq]

/-- The empty string is not equal to itself. -/
theorem collation_not_proper :
    oracleDateCollation ⟨0, 0, 0⟩ ⟨0, 0, 1⟩ [] [] = -1 ∧ ¬ ProperOn collation Set.univ := by
  have hempty : oracleDateCollation ⟨0, 0, 0⟩ ⟨0, 0, 1⟩ [] [] = -1 := by decide
  refine ⟨hempty, fun h => ?_⟩
  have hrefl := h.refl [] (Set.mem_univ _) (⟨0, 0, 0⟩, ⟨0, 0, 1⟩)
  rw [collation, hempty] at hrefl
  cases hrefl

/-! ### The chronological order -/

/-- A text `D-MON-YYYY`. -/
structure DateText where
  /-- The day. -/
  day : List Byte
  /-- The month. -/
  mon : List Byte
  /-- The year. -/
  year : List Byte
  /-- The number of the month in its list, from zero on. -/
  monthIndex : ℕ
  /-- The day has one or two digits. -/
  day_length : 1 ≤ day.length ∧ day.length ≤ 2
  /-- The day consists of digits. -/
  day_digits : ∀ c ∈ day, isDigit c = true
  /-- The month is an abbreviation in any letter case. -/
  mon_name : monthNames[monthIndex]? = some (mon.map toUpper)
  /-- The year has four digits. -/
  year_length : year.length = 4
  /-- The year consists of digits. -/
  year_digits : ∀ c ∈ year, isDigit c = true

namespace DateText

/-- The text. -/
def text (t : DateText) : List Byte := assemble t.day t.mon t.year

/-- The date that the text stands for. -/
def date (t : DateText) : Date :=
  ⟨t.monthIndex + 1, digitsValue t.day, digitsValue t.year⟩

end DateText

/-- Every month is found under its own number, and is three letters long. -/
theorem monthNames_spec {i : ℕ} {x : List Byte} (h : monthNames[i]? = some x) :
    monthNum x = i + 1 ∧ x.length = 3 ∧ ∀ c ∈ x, isAlpha c = true := by
  have hall : ∀ i : Fin 12, ∀ x ∈ monthNames[i.val]?, monthNum x = i.val + 1 ∧ x.length = 3 ∧
      x.all isAlpha = true := by decide
  have hi : i < 12 := (List.getElem?_eq_some_iff.mp h).1
  obtain ⟨hnum, hlen, halpha⟩ := hall ⟨i, hi⟩ x h
  exact ⟨hnum, hlen, List.all_eq_true.mp halpha⟩

namespace DateText

variable (t : DateText)

/-- What the regular expression sees of the text. -/
theorem pieces : Pieces t.day t.mon (t.year.take 2) := by
  obtain ⟨-, hlen, halpha⟩ := monthNames_spec t.mon_name
  rw [List.length_map] at hlen
  refine ⟨t.day_length, t.day_digits, hlen, fun c hc => ?_, ?_, fun c hc => ?_⟩
  · exact isAlpha_of_toUpper (halpha _ (List.mem_map_of_mem hc))
  · rw [List.length_take, t.year_length]
    rfl
  · exact t.year_digits c (List.mem_of_mem_take hc)

theorem text_eq : t.text = assemble t.day t.mon (t.year.take 2) ++ t.year.drop 2 := by
  unfold text assemble
  simp only [List.append_assoc, List.cons_append, List.take_append_drop]

/-- The text is short enough to be copied as a whole. -/
theorem zDate_text : zDate t.text = t.text := by
  have hlen : t.text.length ≤ 24 := by
    have hday := t.day_length.2
    have hmon := t.pieces.mon_length
    have hyear := t.year_length
    simp only [text, assemble, List.length_append, List.length_cons]
    omega
  have hnz : ∀ c ∈ t.text, c ≠ 0 := by
    intro c hc
    rw [text_eq] at hc
    rcases List.mem_append.mp hc with hc | hc
    · exact t.pieces.ne_zero c hc
    · exact ne_of_isDigit (t.year_digits c (List.mem_of_mem_drop hc)) rfl
  exact zDate_eq hnz hlen

theorem getDate_text :
    getDate (zDate t.text) = some (assemble t.day t.mon (t.year.take 2)) := by
  rw [zDate_text, text_eq]
  exact getDate_assemble t.pieces _

theorem hasDate_text : HasDate t.text :=
  getDate_isSome_iff.mp (by rw [getDate_text]; rfl)

/-- **The collation reads the first two digits of the year.** -/
theorem dateOf_text : dateOf t.text = { t.date with year := t.date.year / 100 } := by
  have hyear : digitsValue (t.year.take 2) = digitsValue t.year / 100 := by
    have hdiv := digitsValue_append_div (t.year.take 2)
      fun c hc => t.year_digits c (List.mem_of_mem_drop (i := 2) hc)
    rw [List.take_append_drop, List.length_drop, t.year_length] at hdiv
    exact hdiv.symm
  unfold dateOf
  rw [getDate_text, Option.map_some, Option.getD_some, parseDate_assemble t.pieces,
    (monthNames_spec t.mon_name).1, hyear, Int.natCast_ediv]
  rfl

end DateText

/-- The centuries in front of the order of the days, against the years. -/
theorem century_then_iff (x y : ℤ) (o : Ordering) :
    (compare (x / 100) (y / 100)).then o = (compare x y).then o ↔
      x = y ∨ x / 100 ≠ y / 100 ∨ o = compare x y := by
  rcases lt_trichotomy (x / 100) (y / 100) with h | h | h
  · -- an earlier century
    have hlt : x < y := by omega
    rw [compare_lt_iff_lt.mpr h, compare_lt_iff_lt.mpr hlt]
    exact iff_of_true rfl (.inr (.inl h.ne))
  · -- the same century, so it is up to the order of the days
    rw [compare_eq_iff_eq.mpr h, Ordering.then]
    rcases lt_trichotomy x y with hxy | rfl | hxy
    · rw [compare_lt_iff_lt.mpr hxy]
      exact ⟨fun ho => .inr (.inr ho), fun hor => (hor.resolve_left hxy.ne).resolve_left (· h)⟩
    · rw [compare_eq_iff_eq.mpr rfl]
      exact iff_of_true rfl (.inl rfl)
    · rw [compare_gt_iff_gt.mpr hxy]
      exact ⟨fun ho => .inr (.inr ho), fun hor => (hor.resolve_left hxy.ne').resolve_left (· h)⟩
  · -- a later century
    have hgt : y < x := by omega
    rw [compare_gt_iff_gt.mpr h, compare_gt_iff_gt.mpr hgt]
    exact iff_of_true rfl (.inr (.inl h.ne'))

/-- **When the collation is chronological.** For two texts `D-MON-YYYY` its sign is that of
comparing year, month and day if and only if the years are equal, or differ in their
first two digits, or compare as the months and days do. -/
theorem collation_chronological_iff (d1 d2 : Date) (t u : DateText) :
    (oracleDateCollation d1 d2 t.text u.text).sign = result (compare t.date u.date) ↔
      t.date.year = u.date.year ∨ t.date.year / 100 ≠ u.date.year / 100 ∨
        (compare t.date.month u.date.month).then (compare t.date.day u.date.day) =
          compare t.date.year u.date.year := by
  rw [collation_of_hasDate t.hasDate_text u.hasDate_text, compareStructs_eq, sign_result,
    t.dateOf_text, u.dateOf_text, result_injective.eq_iff]
  exact century_then_iff _ _ _

/-- `1-FEB-2004`. -/
def feb2004 : DateText where
  day := bytes ['1']
  mon := bytes ['F', 'E', 'B']
  year := bytes ['2', '0', '0', '4']
  monthIndex := 1
  day_length := by decide
  day_digits := List.all_eq_true.mp (by decide)
  mon_name := by decide
  year_length := by decide
  year_digits := List.all_eq_true.mp (by decide)

/-- `1-jan-2005`. -/
def jan2005 : DateText where
  day := bytes ['1']
  mon := bytes ['j', 'a', 'n']
  year := bytes ['2', '0', '0', '5']
  monthIndex := 0
  day_length := by decide
  day_digits := List.all_eq_true.mp (by decide)
  mon_name := by decide
  year_length := by decide
  year_digits := List.all_eq_true.mp (by decide)

/-- A day of 2004 comes after one of 2005. -/
theorem collation_not_chronological :
    oracleDateCollation ⟨0, 0, 0⟩ ⟨0, 0, 0⟩ feb2004.text jan2005.text = 1 ∧
      result (compare feb2004.date jan2005.date) = -1 := by
  decide

end SqlCode.OracleDate
