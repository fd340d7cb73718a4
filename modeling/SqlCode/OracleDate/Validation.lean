import SqlCode.OracleDate.Collation

/-!
# The Oracle date validator and the ISO dates

`is_valid_oracle_date` and `iso_from_oracle_date` of `capi_ext/oracle_date.c`. Both look at
the first date in their argument (`FirstDate`, `getDate_eq_some_iff`), wherever it stands and
whatever comes before and after it.

* The validator accepts a text if its first date has one of the twelve months
  (`isValidOracleDate_eq_one_iff`). That is the grammar of a date for the texts that consist
  of their first date, and no other (`validation_exact_iff`).
* The ISO date is a text of fixed width, so comparing two of them byte by byte compares year,
  month and day, as `oracle_date_collation` does (`strcmp_isoText`, `collation_agrees_iso`).
-/

namespace SqlCode.OracleDate

open Text

/-- `is_valid_oracle_date`, with the contents of its local struct. -/
def isValidOracleDate (value : List Byte) (d : Date) : ℤ :=
  match getDate value with
  | none => 0
  | some x =>
    let (_, d) := oracleDateStrToStruct x d
    if d.month = -1 then 0 else 1

/-- `iso_from_oracle_date`. -/
def isoFromOracleDate (value : List Byte) : Option (List Byte) :=
  match getDate value with
  | none => none
  | some date =>
    let start := strchr date dash
    let stop := strchr start.tail dash
    let zDay := strncpy date 2
    let day := atoi zDay
    let zMonth := strncpy start.tail 3
    let month := monthNum (uppercase zMonth)
    let zYear := strncpy stop.tail 2
    let year := atoi zYear
    some (bytes ['2', '0'] ++ format02 year ++ dash :: (format02 month ++ dash :: format02 day))

/-! ### The first date in a text -/

/-- The first date in a text, with what comes before and after it. -/
structure FirstDate (s pre day mon year suf : List Byte) : Prop where
  /-- It is a date. -/
  pieces : Pieces day mon year
  /-- It is in the text. -/
  text : s = pre ++ (assemble day mon year ++ suf)
  /-- There is none further left. -/
  first : ∀ u v, s = u ++ v → u.length < pre.length →
    ¬ ∃ t w, v = t ++ w ∧ Matches oracleDateRegex t

/-- What the regular expression matches. -/
theorem matches_iff_pieces {t : List Byte} : Matches oracleDateRegex t ↔
    ∃ day mon year, Pieces day mon year ∧ t = assemble day mon year := by
  constructor
  · rintro ⟨day, _, rfl, hday, d, _, rfl, hd, mon, _, rfl, hmon, d', _, rfl, hd', year, _, rfl,
      hyear, rfl⟩
    obtain ⟨c, rfl, hc⟩ := hd.eq_singleton
    obtain ⟨c', rfl, hc'⟩ := hd'.eq_singleton
    obtain rfl := beq_iff_eq.mp hc
    obtain rfl := beq_iff_eq.mp hc'
    refine ⟨day, mon, year, ⟨⟨hday.min_le, hday.le_max⟩, hday.cls,
      Nat.le_antisymm hmon.le_max hmon.min_le, hmon.cls,
      Nat.le_antisymm hyear.le_max hyear.min_le, hyear.cls⟩, ?_⟩
    rw [List.append_nil]
    rfl
  · rintro ⟨day, mon, year, h, rfl⟩
    refine ⟨day, _, rfl, ⟨h.day_length.1, h.day_length.2, h.day_digits⟩, [dash], _, rfl,
      Atom.accepts_one rfl, mon, _, rfl, ⟨h.mon_length.ge, h.mon_length.le, h.mon_alpha⟩,
      [dash], _, rfl, Atom.accepts_one rfl, year, [], (List.append_nil year).symm,
      ⟨h.year_length.ge, h.year_length.le, h.year_digits⟩, rfl⟩

/-- **What `get_date` finds** is the first date. -/
theorem getDate_eq_some_iff {s date : List Byte} : getDate s = some date ↔
    ∃ pre day mon year suf, FirstDate s pre day mon year suf ∧ date = assemble day mon year := by
  constructor
  · intro h
    obtain ⟨⟨i, j⟩, hij, rfl⟩ := Option.map_eq_some_iff.mp h
    obtain ⟨pre, t, suf, rfl, rfl, rfl, ht⟩ := search_matches hij
    obtain ⟨day, mon, year, hp, rfl⟩ := matches_iff_pieces.mp ht
    refine ⟨pre, day, mon, year, suf, ⟨hp, List.append_assoc .., fun u v huv hu => ?_⟩, ?_⟩
    · exact matchAt_eq_none_iff.mp (search_leftmost hij huv hu)
    · dsimp only
      rw [List.append_assoc, List.drop_left, Nat.add_sub_cancel_left, strncpy_append hp.ne_zero]
  · rintro ⟨pre, day, mon, year, suf, ⟨hp, rfl, hfirst⟩, rfl⟩
    have hsearch := search_append (fun u v huv hu => matchAt_eq_none_iff.mpr (hfirst u v huv hu))
      (matchAt_assemble hp suf)
    rw [getDate, hsearch, Option.map_some]
    dsimp only
    rw [List.drop_left, Nat.add_sub_cancel_left, strncpy_append hp.ne_zero]

/-- A text that starts with a date. -/
theorem firstDate_of_assemble {day mon year : List Byte} (h : Pieces day mon year)
    (suf : List Byte) : FirstDate (assemble day mon year ++ suf) [] day mon year suf :=
  ⟨h, rfl, fun _ _ _ hu => absurd hu (Nat.not_lt_zero _)⟩

section FirstDate

variable {s pre day mon year suf pre' day' mon' year' suf' : List Byte}

/-- The dashes separate the pieces. -/
theorem assemble_inj (h : Pieces day mon year) (h' : Pieces day' mon' year')
    (heq : assemble day mon year = assemble day' mon' year') : mon = mon' := by
  have hday : dash ∉ day := fun hd => absurd (h.day_digits _ hd) (by decide)
  have hday' : dash ∉ day' := fun hd => absurd (h'.day_digits _ hd) (by decide)
  have hrest : dash :: (mon ++ dash :: year) = dash :: (mon' ++ dash :: year') := by
    calc dash :: (mon ++ dash :: year) = strchr (assemble day mon year) dash :=
          (strchr_append hday _).symm
      _ = strchr (assemble day' mon' year') dash := by rw [heq]
      _ = dash :: (mon' ++ dash :: year') := strchr_append hday' _
  exact (List.append_inj (List.cons.inj hrest).2 (h.mon_length.trans h'.mon_length.symm)).1

/-- There is only one first date. -/
theorem FirstDate.unique (h : FirstDate s pre day mon year suf)
    (h' : FirstDate s pre' day' mon' year' suf') : pre = pre' ∧ mon = mon' ∧ suf = suf' := by
  have hle : pre'.length ≤ pre.length := by
    by_contra hlt
    exact h'.first pre _ h.text (Nat.lt_of_not_le hlt)
      ⟨_, _, rfl, matches_iff_pieces.mpr ⟨_, _, _, h.pieces, rfl⟩⟩
  have hge : pre.length ≤ pre'.length := by
    by_contra hlt
    exact h.first pre' _ h'.text (Nat.lt_of_not_le hlt)
      ⟨_, _, rfl, matches_iff_pieces.mpr ⟨_, _, _, h'.pieces, rfl⟩⟩
  obtain ⟨hpre, hrest⟩ := List.append_inj (h.text.symm.trans h'.text) (hge.antisymm hle)
  -- the engine takes one length from there
  have hmatch := matchAt_assemble h.pieces suf
  rw [hrest, matchAt_assemble h'.pieces suf'] at hmatch
  obtain ⟨hdate, hsuf⟩ := List.append_inj hrest (Option.some.inj hmatch).symm
  exact ⟨hpre, assemble_inj h.pieces h'.pieces hdate, hsuf⟩

/-! ### What the validator accepts -/

theorem monthNum_eq_neg_one_iff {x : List Byte} (hx : x.length = 3) :
    monthNum x = -1 ↔ x ∉ monthNames := by
  rw [monthNum, List.take_of_length_le hx.le, ← List.idxOf?_eq_none_iff]
  cases monthNames.idxOf? x with
  | none => simp
  | some i =>
    simp only [reduceCtorEq, iff_false]
    omega

/-- The validator looks at the month of the first date. -/
theorem FirstDate.isValid (h : FirstDate s pre day mon year suf) (d : Date) :
    isValidOracleDate s d = if mon.map toUpper ∈ monthNames then 1 else 0 := by
  have hfirst : getDate s = some (assemble day mon year) :=
    getDate_eq_some_iff.mpr ⟨_, _, _, _, _, h, rfl⟩
  -- the second search finds the whole of what the first one has found
  have hsecond : getDate (assemble day mon year) = some (assemble day mon year) := by
    have hsearch := getDate_assemble h.pieces []
    rwa [List.append_nil] at hsearch
  have hlen : (mon.map toUpper).length = 3 := by rw [List.length_map, h.pieces.mon_length]
  have hmonth : (parseDate (assemble day mon year)).month = -1 ↔ mon.map toUpper ∉ monthNames := by
    rw [parseDate_assemble h.pieces]
    exact monthNum_eq_neg_one_iff hlen
  unfold isValidOracleDate oracleDateStrToStruct
  rw [hfirst]
  dsimp only
  rw [hsecond]
  exact (if_congr hmonth rfl rfl).trans (ite_not ..)

/-- **What the validator accepts**: the texts whose first date has one of the twelve months. -/
theorem isValidOracleDate_eq_one_iff (s : List Byte) (d : Date) : isValidOracleDate s d = 1 ↔
    ∃ pre day mon year suf, FirstDate s pre day mon year suf ∧
      mon.map toUpper ∈ monthNames := by
  constructor
  · intro h
    cases hdate : getDate s with
    | none =>
      rw [isValidOracleDate, hdate] at h
      cases h
    | some date =>
      obtain ⟨pre, day, mon, year, suf, hfirst, rfl⟩ := getDate_eq_some_iff.mp hdate
      rw [hfirst.isValid] at h
      refine ⟨pre, day, mon, year, suf, hfirst, ?_⟩
      by_contra hmon
      rw [if_neg hmon] at h
      cases h
  · rintro ⟨pre, day, mon, year, suf, hfirst, hmon⟩
    rw [hfirst.isValid, if_pos hmon]

/-! ### The grammar -/

/-- **The grammar of a date**: the whole text is a day of one or two digits, one of the twelve
months in any letter case, and a year of two or four digits. -/
def IsOracleDate (s : List Byte) : Prop :=
  ∃ day mon year, s = assemble day mon year ∧ (day.length = 1 ∨ day.length = 2) ∧
    (∀ c ∈ day, isDigit c = true) ∧ mon.map toUpper ∈ monthNames ∧
    (year.length = 2 ∨ year.length = 4) ∧ ∀ c ∈ year, isDigit c = true

/-- Nothing follows the date, or the rest of a year of four digits. -/
def YearRest (suf : List Byte) : Prop :=
  suf = [] ∨ suf.length = 2 ∧ ∀ c ∈ suf, isDigit c = true

theorem assemble_take (day mon year : List Byte) (n : ℕ) :
    assemble day mon year = assemble day mon (year.take n) ++ year.drop n := by
  unfold assemble
  simp only [List.append_assoc, List.cons_append, List.take_append_drop]

/-- The texts of the grammar start with a date. -/
theorem IsOracleDate.firstDate (h : IsOracleDate s) :
    ∃ day mon year suf, FirstDate s [] day mon year suf ∧ mon.map toUpper ∈ monthNames ∧
      YearRest suf := by
  obtain ⟨day, mon, year, rfl, hday, hdigits, hmon, hyear, hyears⟩ := h
  obtain ⟨i, hi⟩ := List.getElem?_of_mem hmon
  obtain ⟨-, hlen, halpha⟩ := monthNames_spec hi
  rw [List.length_map] at hlen
  -- the first date ends after two digits of the year, also where there are four
  have hp : Pieces day mon (year.take 2) := by
    refine ⟨by omega, hdigits, hlen, fun c hc => ?_, ?_, fun c hc => ?_⟩
    · exact isAlpha_of_toUpper (halpha _ (List.mem_map_of_mem hc))
    · rw [List.length_take]
      omega
    · exact hyears c (List.mem_of_mem_take hc)
  have hfirst := firstDate_of_assemble hp (year.drop 2)
  rw [← assemble_take] at hfirst
  refine ⟨day, mon, year.take 2, year.drop 2, hfirst, hmon, ?_⟩
  rcases hyear with hyear | hyear
  · exact .inl (List.drop_of_length_le hyear.le)
  · refine .inr ⟨?_, fun c hc => hyears c (List.mem_of_mem_drop hc)⟩
    rw [List.length_drop, hyear]

/-- They consist of it and the rest of the year. -/
theorem FirstDate.isOracleDate_iff (h : FirstDate s pre day mon year suf) :
    IsOracleDate s ↔ pre = [] ∧ mon.map toUpper ∈ monthNames ∧ YearRest suf := by
  constructor
  · intro hdate
    -- a text has at most one first date, so the one of the grammar is the one given
    obtain ⟨day', mon', year', suf', hfirst, hmon, hsuf⟩ := hdate.firstDate
    obtain ⟨rfl, rfl, rfl⟩ := h.unique hfirst
    exact ⟨rfl, hmon, hsuf⟩
  · rintro ⟨rfl, hmon, hsuf⟩
    have hlen := h.pieces.day_length
    have hyear := h.pieces.year_length
    refine ⟨day, mon, year ++ suf, ?_, by omega, h.pieces.day_digits, hmon, ?_, ?_⟩
    · rw [h.text]
      simp [assemble]
    · rw [List.length_append]
      rcases hsuf with rfl | ⟨hsuf, -⟩
      · exact .inl (by rw [hyear, List.length_nil])
      · exact .inr (by rw [hyear, hsuf])
    · intro c hc
      rcases List.mem_append.mp hc with hc | hc
      · exact h.pieces.year_digits c hc
      · rcases hsuf with rfl | ⟨-, hsuf⟩
        · exact absurd hc List.not_mem_nil
        · exact hsuf c hc

end FirstDate

/-- **When validation is exact.** The validator's verdict on a text is that of the grammar if
and only if the text does not have, around a first date with one of the twelve months, anything
but the rest of a year of four digits. -/
theorem validation_exact_iff (s : List Byte) (d : Date) :
    (isValidOracleDate s d = 1 ↔ IsOracleDate s) ↔
      ¬ ∃ pre day mon year suf, FirstDate s pre day mon year suf ∧
        mon.map toUpper ∈ monthNames ∧ ¬ (pre = [] ∧ YearRest suf) := by
  rw [isValidOracleDate_eq_one_iff]
  constructor
  · rintro h ⟨pre, day, mon, year, suf, hfirst, hmon, hextra⟩
    have hdate := h.mp ⟨pre, day, mon, year, suf, hfirst, hmon⟩
    obtain ⟨hpre, -, hsuf⟩ := hfirst.isOracleDate_iff.mp hdate
    exact hextra ⟨hpre, hsuf⟩
  · intro h
    constructor
    · rintro ⟨pre, day, mon, year, suf, hfirst, hmon⟩
      by_contra hdate
      refine h ⟨pre, day, mon, year, suf, hfirst, hmon, fun hextra => hdate ?_⟩
      exact hfirst.isOracleDate_iff.mpr ⟨hextra.1, hmon, hextra.2⟩
    · intro hdate
      obtain ⟨day, mon, year, suf, hfirst, hmon, -⟩ := hdate.firstDate
      exact ⟨[], day, mon, year, suf, hfirst, hmon⟩

/-- A text with something before its date. -/
theorem validation_not_exact :
    isValidOracleDate (bytes ['x', '1', '-', 'J', 'A', 'N', '-', '0', '5']) ⟨0, 0, 0⟩ = 1 ∧
      ¬ IsOracleDate (bytes ['x', '1', '-', 'J', 'A', 'N', '-', '0', '5']) := by
  refine ⟨by decide, fun h => ?_⟩
  obtain ⟨day, mon, year, suf, hfirst, -⟩ := h.firstDate
  -- the first byte would be a digit
  obtain ⟨c, day, rfl⟩ := List.exists_cons_of_length_pos hfirst.pieces.day_length.1
  have hc := hfirst.pieces.day_digits c List.mem_cons_self
  have hx : bytes ['x', '1', '-', 'J', 'A', 'N', '-', '0', '5'] = c :: _ := hfirst.text
  obtain ⟨rfl, -⟩ := List.cons.inj hx
  exact absurd hc (by decide)

/-! ### The ISO dates -/

/-- The text `20YY-MM-DD`. -/
def isoText (d : Date) : List Byte :=
  bytes ['2', '0'] ++ format02 d.year ++ dash :: (format02 d.month ++ dash :: format02 d.day)

theorem isoFromOracleDate_eq (value : List Byte) :
    isoFromOracleDate value = (getDate value).map fun date => isoText (parseDate date) := by
  unfold isoFromOracleDate
  cases getDate value <;> rfl

/-- Every number of the date has at most two digits. -/
structure Date.TwoDigits (d : Date) : Prop where
  /-- The year. -/
  year : 0 ≤ d.year ∧ d.year < 100
  /-- The month. -/
  month : 0 ≤ d.month ∧ d.month < 100
  /-- The day. -/
  day : 0 ≤ d.day ∧ d.day < 100

/-- **Byte by byte is year, month and day.** -/
theorem strcmp_isoText {d e : Date} (hd : d.TwoDigits) (he : e.TwoDigits) :
    strcmp (isoText d) (isoText e) = compareStructs d e := by
  have hdash (s t : List Byte) : strcmp (dash :: s) (dash :: t) = strcmp s t :=
    strcmp_append [dash] s t
  have hday := strcmp_format02 hd.day he.day [] []
  rw [List.append_nil, List.append_nil] at hday
  unfold isoText compareStructs
  rw [List.append_assoc, List.append_assoc, strcmp_append, strcmp_format02 hd.year he.year, hdash,
    strcmp_format02 hd.month he.month, hdash, hday]
  rfl

/-- The dates with one of the twelve months have at most two digits everywhere. -/
theorem twoDigits_parseDate {day mon year : List Byte} (h : Pieces day mon year)
    (hmon : mon.map toUpper ∈ monthNames) : (parseDate (assemble day mon year)).TwoDigits := by
  obtain ⟨i, hi⟩ := List.getElem?_of_mem hmon
  have hi12 : i < 12 := (List.getElem?_eq_some_iff.mp hi).1
  have hlt {s : List Byte} (hs : ∀ c ∈ s, isDigit c = true) (hlen : s.length ≤ 2) :
      (0 : ℤ) ≤ digitsValue s ∧ (digitsValue s : ℤ) < 100 := by
    have hval : digitsValue s < 10 ^ 2 :=
      (digitsValue_lt hs).trans_le (Nat.pow_le_pow_right (by omega) hlen)
    omega
  rw [parseDate_assemble h, (monthNames_spec hi).1]
  refine ⟨hlt h.year_digits h.year_length.le, ?_, hlt h.day_digits h.day_length.2⟩
  dsimp only
  omega

/-- What the validator accepts has an ISO date, and both functions see the same date. -/
theorem isoFromOracleDate_of_valid {s : List Byte} {d : Date} (h : isValidOracleDate s d = 1)
    (hnz : ∀ c ∈ s, c ≠ 0) (hlen : s.length ≤ 24) :
    HasDate s ∧ (dateOf s).TwoDigits ∧ isoFromOracleDate s = some (isoText (dateOf s)) := by
  obtain ⟨pre, day, mon, year, suf, hfirst, hmon⟩ := (isValidOracleDate_eq_one_iff s d).mp h
  have hdate : getDate s = some (assemble day mon year) :=
    getDate_eq_some_iff.mpr ⟨_, _, _, _, _, hfirst, rfl⟩
  have hz : zDate s = s := zDate_eq hnz hlen
  have hof : dateOf s = parseDate (assemble day mon year) := by
    rw [dateOf, hz, hdate]
    rfl
  refine ⟨getDate_isSome_iff.mp (by rw [hz, hdate]; rfl), ?_, ?_⟩
  · rw [hof]
    exact twoDigits_parseDate hfirst.pieces hmon
  · rw [isoFromOracleDate_eq, hdate, hof]
    rfl

/-- **The two paths agree.** For two texts of at most 24 bytes that the validator accepts, the
collation has the sign of comparing the ISO dates byte by byte. -/
theorem collation_agrees_iso {a b : List Byte} {d e : Date} (ha : ∀ c ∈ a, c ≠ 0)
    (hb : ∀ c ∈ b, c ≠ 0) (hla : a.length ≤ 24) (hlb : b.length ≤ 24)
    (hva : isValidOracleDate a d = 1) (hvb : isValidOracleDate b e = 1) (d1 d2 : Date) :
    ∃ x y, isoFromOracleDate a = some x ∧ isoFromOracleDate b = some y ∧
      (oracleDateCollation d1 d2 a b).sign = (strcmp x y).sign := by
  obtain ⟨hasA, htwoA, hisoA⟩ := isoFromOracleDate_of_valid hva ha hla
  obtain ⟨hasB, htwoB, hisoB⟩ := isoFromOracleDate_of_valid hvb hb hlb
  refine ⟨_, _, hisoA, hisoB, ?_⟩
  rw [collation_of_hasDate hasA hasB, strcmp_isoText htwoA htwoB]

/-- A date with one digit for the day, and one with text around it. -/
theorem collation_agrees_iso_pair :
    let a := bytes ['9', '-', 'j', 'a', 'n', '-', '0', '5']
    let b := bytes ['x', '9', '9', '-', 'J', 'A', 'N', '-', '0', '5', 'y']
    ∃ x y, isoFromOracleDate a = some x ∧ isoFromOracleDate b = some y ∧
      (oracleDateCollation ⟨0, 0, 0⟩ ⟨0, 0, 0⟩ a b).sign = (strcmp x y).sign := by
  have hnz (s : List Byte) (hs : s.all (· != 0) = true) : ∀ c ∈ s, c ≠ 0 :=
    fun c hc => bne_iff_ne.mp (List.all_eq_true.mp hs c hc)
  exact collation_agrees_iso (d := ⟨0, 0, 0⟩) (e := ⟨0, 0, 0⟩) (hnz _ (by decide))
    (hnz _ (by decide)) (by decide) (by decide) (by decide) (by decide) _ _

end SqlCode.OracleDate
