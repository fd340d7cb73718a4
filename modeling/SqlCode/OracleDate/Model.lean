import SqlCode.Text.CString
import SqlCode.Text.Pattern
import Mathlib.Tactic.Ring

/-!
# Oracle dates

`get_date`, `oracle_date_str_to_struct` and `month_num` of `capi_ext/oracle_date.c`,
`convert_string` and `uppercase` of `common/util.c`, and `oracle_date_collation` of
`capi_ext/collate.c`.

PCRE is read as the matcher of `Text.Pattern`. A local struct has arbitrary contents until
something is assigned to it, so `oracleDateCollation` takes what is in `d1` and `d2` as
arguments. The messages to `stdout` and `stderr` are left out.
-/

namespace SqlCode.OracleDate

open Text

/-- `date`. -/
structure Date where
  /-- `month`. -/
  month : ℤ
  /-- `day`. -/
  day : ℤ
  /-- `year`. -/
  year : ℤ
  deriving DecidableEq, Repr

/-- `'-'`. -/
abbrev dash : Byte := 45

/-- `ORACLE_DATE_REGEX`, `[0-9]{1,2}-[a-zA-Z]{3,3}-[0-9]{2,2}`. -/
def oracleDateRegex : List (Atom Byte) :=
  [⟨isDigit, 1, 2⟩, .one (· == dash), ⟨isAlpha, 3, 3⟩, .one (· == dash), ⟨isDigit, 2, 2⟩]

/-- `get_date`. -/
def getDate (value : List Byte) : Option (List Byte) :=
  (search oracleDateRegex value).map fun (start, stop) =>
    strncpy (value.drop start) (stop - start)

/-- `convert_string`, which applies `toupper` whatever function it is given. -/
def convertString (value : List Byte) (_fn : Byte → Byte) : List Byte := value.map toUpper

/-- `uppercase`. -/
def uppercase (value : List Byte) : List Byte := convertString value toUpper

/-- The names that `month_num` compares with, in their order. -/
def monthNames : List (List Byte) :=
  [['J', 'A', 'N'], ['F', 'E', 'B'], ['M', 'A', 'R'], ['A', 'P', 'R'],
    ['M', 'A', 'Y'], ['J', 'U', 'N'], ['J', 'U', 'L'], ['A', 'U', 'G'],
    ['S', 'E', 'P'], ['O', 'C', 'T'], ['N', 'O', 'V'], ['D', 'E', 'C']].map bytes

/-- `month_num`. -/
def monthNum (x : List Byte) : ℤ :=
  match monthNames.idxOf? (x.take 3) with
  | some i => i + 1
  | none => -1

/-- What `oracle_date_str_to_struct` assigns to the struct for a date that was found. -/
def parseDate (date : List Byte) : Date :=
  let start := strchr date dash
  let stop := strchr start.tail dash
  -- the pieces have fixed widths, whatever stands between the dashes
  let zDay := strncpy date 2
  let zMonth := strncpy start.tail 3
  let zYear := strncpy stop.tail 2
  ⟨monthNum (uppercase zMonth), atoi zDay, atoi zYear⟩

/-- `oracle_date_str_to_struct`: its return value, and the struct after it. -/
def oracleDateStrToStruct (value : List Byte) (d : Date) : ℤ × Date :=
  match getDate value with
  -- the struct is not assigned
  | none => (-1, d)
  | some date => (0, parseDate date)

/-- `zDate1` and `zDate2`: at most 24 bytes of the argument. -/
def zDate (arg : List Byte) : List Byte :=
  strncpy arg (if arg.length > 24 then 24 else arg.length)

/-- A string of at most 24 bytes is copied as a whole. -/
theorem zDate_eq {arg : List Byte} (hnz : ∀ c ∈ arg, c ≠ 0) (hlen : arg.length ≤ 24) :
    zDate arg = arg := by
  rw [zDate, if_neg (by omega), strncpy_length hnz]

/-- The comparisons at the end of `oracle_date_collation`. -/
def compareStructs (d1 d2 : Date) : ℤ :=
  if d1.year < d2.year then -1 else if d1.year > d2.year then 1
  else if d1.month < d2.month then -1 else if d1.month > d2.month then 1
  else if d1.day < d2.day then -1 else if d1.day > d2.day then 1
  else 0

/-- `oracle_date_collation`, which ignores what `oracle_date_str_to_struct` returns. -/
def oracleDateCollation (d1 d2 : Date) (arg1 arg2 : List Byte) : ℤ :=
  let (_, d1) := oracleDateStrToStruct (zDate arg1) d1
  let (_, d2) := oracleDateStrToStruct (zDate arg2) d2
  compareStructs d1 d2

/-! ### Dates in a text -/

/-- **The text has a date** within its first 24 bytes and before its first zero byte. -/
def HasDate (arg : List Byte) : Prop :=
  ∃ pre t suf, zDate arg = pre ++ t ++ suf ∧ Matches oracleDateRegex t

/-- What the collation makes of an argument with a date. -/
def dateOf (arg : List Byte) : Date :=
  ((getDate (zDate arg)).map parseDate).getD ⟨0, 0, 0⟩

theorem getDate_isSome_iff {value : List Byte} :
    (getDate value).isSome ↔ ∃ pre t suf, value = pre ++ t ++ suf ∧ Matches oracleDateRegex t := by
  unfold getDate
  rw [Option.isSome_map]
  exact search_isSome_iff

/-- The error return, which the caller ignores, leaves the struct as it was. -/
theorem strToStruct_of_not_hasDate {arg : List Byte} (h : ¬ HasDate arg) (d : Date) :
    oracleDateStrToStruct (zDate arg) d = (-1, d) := by
  unfold oracleDateStrToStruct
  cases hd : getDate (zDate arg) with
  | none => rfl
  | some date => exact absurd (getDate_isSome_iff.mp (by rw [hd]; rfl)) h

theorem strToStruct_of_hasDate {arg : List Byte} (h : HasDate arg) (d : Date) :
    oracleDateStrToStruct (zDate arg) d = (0, dateOf arg) := by
  obtain ⟨date, hd⟩ := Option.isSome_iff_exists.mp (getDate_isSome_iff.mpr h)
  unfold oracleDateStrToStruct dateOf
  rw [hd]
  rfl

theorem collation_of_hasDate {a b : List Byte} (ha : HasDate a) (hb : HasDate b) (d1 d2 : Date) :
    oracleDateCollation d1 d2 a b = compareStructs (dateOf a) (dateOf b) := by
  unfold oracleDateCollation
  rw [strToStruct_of_hasDate ha, strToStruct_of_hasDate hb]

/-! ### The pieces of a date -/

/-- The three parts of what the regular expression matches. -/
structure Pieces (day mon year : List Byte) : Prop where
  /-- The day has one or two digits. -/
  day_length : 1 ≤ day.length ∧ day.length ≤ 2
  /-- The day consists of digits. -/
  day_digits : ∀ c ∈ day, isDigit c = true
  /-- The month has three letters. -/
  mon_length : mon.length = 3
  /-- The month consists of letters. -/
  mon_alpha : ∀ c ∈ mon, isAlpha c = true
  /-- The year has two digits. -/
  year_length : year.length = 2
  /-- The year consists of digits. -/
  year_digits : ∀ c ∈ year, isDigit c = true

/-- The pieces with the dashes between them. -/
def assemble (day mon year : List Byte) : List Byte := day ++ dash :: (mon ++ dash :: year)

variable {day mon year : List Byte}

/-- The engine takes the whole day, although it would be content with one digit. -/
theorem matchAt_assemble (h : Pieces day mon year) (suf : List Byte) :
    matchAt oracleDateRegex (assemble day mon year ++ suf) =
      some (assemble day mon year).length := by
  -- from the last piece of the pattern to the first
  have hyear : matchAt [⟨isDigit, 2, 2⟩] (year ++ suf) = some (year.length + 0) :=
    matchAt_greedy ⟨h.year_length.ge, h.year_length.le, h.year_digits⟩
      (counts_le_of_full h.year_length) rfl
  have hmon : matchAt [⟨isAlpha, 3, 3⟩, .one (· == dash), ⟨isDigit, 2, 2⟩]
      (mon ++ dash :: (year ++ suf)) = some (mon.length + (1 + (year.length + 0))) :=
    matchAt_greedy ⟨h.mon_length.ge, h.mon_length.le, h.mon_alpha⟩
      (counts_le_of_full h.mon_length) (matchAt_one rfl hyear)
  have hday : matchAt oracleDateRegex (day ++ dash :: (mon ++ dash :: (year ++ suf))) =
      some (day.length + (1 + (mon.length + (1 + (year.length + 0))))) :=
    matchAt_greedy ⟨h.day_length.1, h.day_length.2, h.day_digits⟩
      (counts_le_of_stop h.day_digits rfl) (matchAt_one rfl hmon)
  unfold assemble
  simp only [List.append_assoc, List.cons_append]
  rw [hday]
  simp only [List.length_append, List.length_cons]
  congr 1
  ring

theorem Pieces.ne_zero (h : Pieces day mon year) : ∀ c ∈ assemble day mon year, c ≠ 0 := by
  intro c hc
  unfold assemble at hc
  simp only [List.mem_append, List.mem_cons] at hc
  rcases hc with hc | rfl | hc | rfl | hc
  · exact ne_of_isDigit (h.day_digits c hc) rfl
  · decide
  · rintro rfl
    exact absurd (h.mon_alpha 0 hc) (by decide)
  · decide
  · exact ne_of_isDigit (h.year_digits c hc) rfl

/-- **A text that starts with a date**: the date is what the search finds. -/
theorem getDate_assemble (h : Pieces day mon year) (suf : List Byte) :
    getDate (assemble day mon year ++ suf) = some (assemble day mon year) := by
  unfold getDate
  rw [search_of_matchAt (matchAt_assemble h suf), Option.map_some]
  dsimp only
  rw [List.drop_zero, Nat.sub_zero, strncpy_append h.ne_zero]

/-- `zDay` may have the first dash behind the day. -/
theorem strncpy_day (h : Pieces day mon year) (rest : List Byte) :
    ∃ t, strncpy (day ++ dash :: rest) 2 = day ++ t ∧ t.takeWhile isDigit = [] := by
  have hday : ∀ c ∈ day, c ≠ 0 := fun c hc => ne_of_isDigit (h.day_digits c hc) rfl
  by_cases hlen : day.length = 2
  · refine ⟨[], ?_, rfl⟩
    rw [← hlen, strncpy_append hday, List.append_nil]
  · -- one digit and the dash
    have hlen1 : (day ++ [dash]).length = 2 := by
      have hlo := h.day_length.1
      have hhi := h.day_length.2
      rw [List.length_append, List.length_singleton]
      omega
    refine ⟨[dash], ?_, rfl⟩
    rw [← hlen1, List.append_cons]
    refine strncpy_append (fun c hc => ?_) rest
    rcases List.mem_append.mp hc with hc | hc
    · exact hday c hc
    · rw [List.mem_singleton.mp hc]
      decide

/-- **The fields of a date.** -/
theorem parseDate_assemble (h : Pieces day mon year) : parseDate (assemble day mon year) =
    ⟨monthNum (mon.map toUpper), digitsValue day, digitsValue year⟩ := by
  have hday : dash ∉ day := fun hd => absurd (h.day_digits _ hd) (by decide)
  have hmon : dash ∉ mon := fun hd => absurd (h.mon_alpha _ hd) (by decide)
  -- the two dashes
  have hstart : strchr (assemble day mon year) dash = dash :: (mon ++ dash :: year) :=
    strchr_append hday _
  have hstop : strchr (mon ++ dash :: year) dash = dash :: year := strchr_append hmon _
  -- the three copies
  obtain ⟨t, hzDay, ht⟩ := strncpy_day h (mon ++ dash :: year)
  have hzMonth : strncpy (mon ++ dash :: year) 3 = mon := by
    rw [← h.mon_length]
    refine strncpy_append (fun c hc => ?_) _
    rintro rfl
    exact absurd (h.mon_alpha 0 hc) (by decide)
  have hzYear : strncpy year 2 = year := by
    have hcopy := strncpy_length fun c hc => ne_of_isDigit (h.year_digits c hc) rfl
    rwa [h.year_length] at hcopy
  have hday0 : day ≠ [] := List.ne_nil_of_length_pos h.day_length.1
  have hyear0 : year ≠ [] := List.ne_nil_of_length_pos (by rw [h.year_length]; decide)
  have hatoiYear : atoi year = digitsValue year := by
    have hatoi := atoi_digits h.year_digits hyear0 (t := []) rfl
    rwa [List.append_nil] at hatoi
  unfold parseDate
  dsimp only
  rw [hstart, List.tail_cons, hstop, List.tail_cons, hzMonth, hzYear, hatoiYear, assemble, hzDay,
    atoi_digits h.day_digits hday0 ht]
  rfl

end SqlCode.OracleDate
