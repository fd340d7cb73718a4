import SqlCode.FftSerial.Main
import SqlCode.Text.Numeral
import Mathlib.Data.Rat.Cast.CharZero

/-!
# What the load loop reads

The load loop of `fft_main` prints a row into `buf`, of ten bytes, and reads a number back with
`sscanf`. The variable `r` that it reads into is declared before the loop, has no value at
first, and is not touched by a `sscanf` that fails. So what it stores for a row is the
last number read up to there (`loadLoop_carries`).

Of the text of a value the buffer keeps the first eight characters (`scanNumber_row`), and of a
`NULL`, which prints as `(null)`, nothing can be read (`scanNumber_null`). From this follows for
which values the loop stores what is written in the rows (`loadsExactly_iff`).
-/

namespace SqlCode.FftSerial

open Exec Dft Text

variable {R : Type} [Field R] {vs : List (Option (List Char))} {v : Option (List Char)}

/-! ### The carried variable -/

/-- What is in `r` after rows of one column. -/
def carried (scan : List Char → Option R) (r : R) (vs : List (Option (List Char))) : R :=
  vs.foldl (fun r v => (scan (rowText [] [v])).getD r) r

omit [Field R] in
theorem carried_concat (scan : List Char → Option R) (r : R) (vs : List (Option (List Char)))
    (v : Option (List Char)) :
    carried scan r (vs ++ [v]) = (scan (rowText [] [v])).getD (carried scan r vs) :=
  List.foldl_append

/-- One row: its entry is what `r` is set to, and the others stay. -/
theorem loadRow_ends (scan : List Char → Option R) {j : ℕ} (hj : j < sampleNodes)
    (s : LoadState R) : Ends (loadRow scan [v] j s) fun s' =>
      s'.r = (scan (rowText [] [v])).getD s.r ∧ (cell s'.x j).real = s'.r ∧
        ∀ k, k ≠ j → cell s'.x k = cell s.x k := by
  rw [loadRow, wrReal_eq _ hj, pure_bind, wrImag_eq _ hj, pure_bind]
  refine ends_pure ⟨rfl, ?_, fun k hk => ?_⟩
  · simp [cell_set_self]
  · dsimp only
    rw [cell_set_ne _ hj _ hk, cell_set_ne _ hj _ hk]

/-- The invariant of the loop after `n` rows: what is in `r`, and in the entries. -/
structure Loaded (scan : List Char → Option R) (r : R) (vs : List (Option (List Char))) (n : ℕ)
    (s : LoadState R) : Prop where
  /-- The last number that was read. -/
  r_eq : s.r = carried scan r (vs.take n)
  /-- In each entry the last number up to its row. -/
  real_eq : ∀ j, j < n → (cell s.x j).real = carried scan r (vs.take (j + 1))

/-- **What the load loop stores** for a row: the last number that was read up to it, or what was
in `r` before the loop. -/
theorem loadLoop_carries (scan : List Char → Option R) (h : vs.length ≤ sampleNodes)
    (s : LoadState R) :
    Ends (loadLoop scan (vs.map fun v => [v]) s) (Loaded scan s.r vs vs.length) := by
  unfold loadLoop
  rw [List.length_map]
  have h0 : Loaded scan s.r vs 0 s := ⟨rfl, fun j hj => absurd hj (Nat.not_lt_zero j)⟩
  refine ends_forRange (Nat.zero_le _) (Loaded scan s.r vs) h0 fun n t _ hn ht => ?_
  have hrow : (vs.map fun v => [v]).getD n [] = [vs[n]] := by
    simp [List.getD_eq_getElem?_getD, hn]
  have htake : vs.take (n + 1) = vs.take n ++ [vs[n]] := (List.take_append_getElem hn).symm
  rw [hrow]
  refine (loadRow_ends scan (by omega) t).mono fun s' ⟨hr, hcell, hother⟩ => ?_
  rw [ht.r_eq, ← carried_concat, ← htake] at hr
  refine ⟨hr, fun j hj => ?_⟩
  by_cases hjn : j = n
  · rw [hjn, hcell, hr]
  · rw [hother j hjn, ht.real_eq j (by omega)]

/-! ### What `sscanf` reads -/

/-- The number that a text stands for: a decimal one, or what `other` makes of hexadecimal
numbers, infinities and `nan`. -/
def number (other : List Byte → R) (s : List Byte) : R :=
  if Decimal s then (decimalValue s : R) else other s

/-- The number that `sscanf (buf, "%f", &r)` reads, if any. -/
def scanNumber (other : List Byte → R) (buf : List Char) : Option R :=
  (scanfFloat (bytes buf)).map (number other)

/-- What the buffer keeps of the text of a value, behind the space. -/
def kept (s : List Char) : List Byte := bytes (s.take 8)

/-- A `NULL` is no number. -/
theorem scanNumber_null (other : List Byte → R) : scanNumber other (rowText [] [none]) = none := by
  have hnull : scanfFloat (bytes (rowText [] [none])) = none := by decide +kernel
  unfold scanNumber
  rw [hnull]
  rfl

/-- **Of a number eight characters are read**, or nothing if they are not one. -/
theorem scanNumber_row (other : List Byte → R) {s : List Char} (hs : Decimal (bytes s)) :
    scanNumber other (rowText [] [some s]) =
      if Decimal (kept s) then some (decimalValue (kept s) : R) else none := by
  have hbuf : bytes (rowText [] [some s]) =
      32 :: (kept s ++ bytes ([' '].take (8 - s.length))) := by
    have hrow : rowText [] [some s] = ' ' :: (s ++ [' ']).take 8 := rfl
    unfold kept bytes
    rw [hrow, List.take_append, List.map_cons, List.map_append]
    rfl
  have hsplit : bytes s = kept s ++ bytes (s.drop 8) := by
    unfold kept bytes
    rw [← List.map_append, List.take_append_drop]
  have hviable : ∃ u, kept s ++ u ∈ floatLiteral.matches' :=
    ⟨bytes (s.drop 8), hsplit ▸ float_of_decimal hs⟩
  have hne : kept s ≠ [] := by
    have hs : s ≠ [] := fun h => hs.ne_nil (congrArg bytes h)
    simp [kept, bytes, hs]
  -- behind the text there is a space or the end of the buffer
  have hspace : ∀ c ∈ (bytes ([' '].take (8 - s.length))).head?, isSpace c = true := by
    cases 8 - s.length with
    | zero => simp [bytes]
    | succ n =>
      intro c hc
      obtain rfl := Option.some.inj hc
      rfl
  have hdec : kept s ∈ floatLiteral.matches' ↔ Decimal (kept s) := by
    refine ⟨fun h => decimal_of_float h fun c hc => ?_, float_of_decimal⟩
    exact mem_letters hs (hsplit ▸ List.mem_append_left _ hc)
  unfold scanNumber
  rw [hbuf, scanfFloat_prefix hne hviable hspace, apply_ite (Option.map (number other))]
  refine if_ctx_congr hdec (fun h => ?_) fun _ => rfl
  rw [Option.map_some, number, if_pos h]

/-! ### When the rows are loaded -/

/-- The value is `NULL` or the text of a decimal number. -/
def Numeric (v : Option (List Char)) : Prop := ∀ s ∈ v, Decimal (bytes s)

/-- For rows with values in `V`, what the load loop stores for a row is `f` of its number and
its value. -/
def ByRow (other : List Byte → R) (V : Set (Option (List Char)))
    (f : ℕ → Option (List Char) → R) : Prop :=
  ∀ vs : List (Option (List Char)), vs.length ≤ sampleNodes → (∀ v ∈ vs, v ∈ V) →
    ∀ s : LoadState R, Ends (loadLoop (scanNumber other) (vs.map fun v => [v]) s) fun s' =>
      ∀ j (h : j < vs.length), (cell s'.x j).real = f j vs[j]

/-- For rows with values in `V`, each entry is determined by its row, and is the number written
there if it is not `NULL`. -/
def LoadsExactly (other : List Byte → R) (V : Set (Option (List Char))) : Prop :=
  ∃ f, ByRow other V f ∧ ∀ j s, some s ∈ V → f j (some s) = decimalValue (bytes s)

variable {other : List Byte → R} {V : Set (Option (List Char))} {f : ℕ → Option (List Char) → R}

/-- What is stored for a single row, whatever was in `r`. -/
theorem ByRow.first (hf : ByRow other V f) (hv : v ∈ V) (r : R) :
    f 0 v = (scanNumber other (rowText [] [v])).getD r := by
  let s : LoadState R := ⟨Vector.replicate sampleNodes 0, r, []⟩
  have hlen : [v].length ≤ sampleNodes := Nat.succ_le_of_lt (by decide)
  have hmem : ∀ w ∈ [v], w ∈ V := fun w hw => List.mem_singleton.mp hw ▸ hv
  obtain ⟨s', hs', hload⟩ := loadLoop_carries (scanNumber other) hlen s
  have hentry := (hf [v] hlen hmem s).of_unique hs' 0 Nat.one_pos
  calc f 0 v = (cell s'.x 0).real := hentry.symm
    _ = carried (scanNumber other) r [v] := hload.real_eq 0 Nat.one_pos
    _ = (scanNumber other (rowText [] [v])).getD r := rfl

/-- If nothing is read from a value, its entry depends on what was in `r`. -/
theorem ByRow.isSome (hf : ByRow other V f) (hv : v ∈ V) :
    scanNumber other (rowText [] [v]) ≠ none := by
  intro hnone
  have hstore (r : R) : f 0 v = r := by rw [hf.first hv r, hnone, Option.getD_none]
  exact zero_ne_one ((hstore 0).symm.trans (hstore 1))

/-- If something is read from each value, it is what is stored. -/
theorem byRow_of_reads (h : ∀ v ∈ V, ∀ j, scanNumber other (rowText [] [v]) = some (f j v)) :
    ByRow other V f := by
  intro vs hlen hvs s
  refine (loadLoop_carries _ hlen s).mono fun s' hs' j hj => ?_
  have htake : vs.take (j + 1) = vs.take j ++ [vs[j]] := (List.take_append_getElem hj).symm
  rw [hs'.real_eq j hj, htake, carried_concat, h _ (hvs _ (List.getElem_mem hj)) j,
    Option.getD_some]

/-- **Which values are loaded as they are.** There is no `NULL` among them, and the first eight
characters of each are a number, the one that the whole text stands for. -/
theorem loadsExactly_iff [CharZero R] (other : List Byte → R) (V : Set (Option (List Char)))
    (hV : ∀ v ∈ V, Numeric v) : LoadsExactly other V ↔
      ∀ v ∈ V, ∃ s, v = some s ∧ Decimal (kept s) ∧
        decimalValue (kept s) = decimalValue (bytes s) := by
  constructor
  · rintro ⟨f, hf, hnumber⟩ v hv
    have hsome := hf.isSome hv
    cases v with
    | none => exact absurd (scanNumber_null other) hsome
    | some s =>
      have hread := scanNumber_row other (hV _ hv s rfl)
      by_cases hkept : Decimal (kept s)
      · -- the entry is the number that was read, and the one of the text
        rw [if_pos hkept] at hread
        have hentry := hf.first hv 0
        rw [hread, Option.getD_some, hnumber 0 s hv] at hentry
        exact ⟨s, rfl, hkept, Rat.cast_injective hentry.symm⟩
      · rw [if_neg hkept] at hread
        exact absurd hread hsome
  · intro h
    refine ⟨fun _ v => v.elim 0 fun s => (decimalValue (bytes s) : R), ?_, fun _ _ _ => rfl⟩
    refine byRow_of_reads fun v hv j => ?_
    obtain ⟨s, rfl, hkept, hvalue⟩ := h v hv
    rw [scanNumber_row other (hV _ hv s rfl), if_pos hkept, hvalue]
    rfl

/-- A short number, and one whose ninth character is a zero behind the point. -/
theorem loadsExactly_pair : LoadsExactly (fun _ => (0 : ℚ))
    {some ['-', '1', '2', '.', '5'], some ['1', '2', '3', '.', '4', '5', '6', '0', '0']} := by
  refine (loadsExactly_iff _ _ ?_).mpr ?_
  · rintro v (rfl | rfl) s hs
    · obtain rfl := Option.some.inj hs
      decide +kernel
    · obtain rfl := Option.some.inj hs
      decide +kernel
  · rintro v (rfl | rfl)
    · exact ⟨_, rfl, by decide +kernel, by decide +kernel⟩
    · exact ⟨_, rfl, by decide +kernel, by decide +kernel⟩

/-- A `NULL` is not loaded, and of nine digits the last is lost. -/
theorem not_loadsExactly : ¬ LoadsExactly (fun _ => (0 : ℚ)) {none} ∧
    ¬ LoadsExactly (fun _ => (0 : ℚ)) {some ['1', '2', '3', '4', '5', '6', '7', '8', '9']} := by
  constructor
  · rintro ⟨f, hf, -⟩
    exact hf.isSome (Set.mem_singleton none) (scanNumber_null _)
  · rintro ⟨f, hf, hnumber⟩
    have hv := Set.mem_singleton (some ['1', '2', '3', '4', '5', '6', '7', '8', '9'])
    have hread := (hnumber 0 _ hv).symm.trans (hf.first hv 0)
    rw [scanNumber_row _ (by decide +kernel), if_pos (by decide +kernel)] at hread
    revert hread
    decide +kernel

end SqlCode.FftSerial
