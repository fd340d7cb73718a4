import SqlCode.Exec.Int32
import SqlCode.SqliteCore.Record
import SqlCode.Order.Lexicographic

/-!
# The order of records

`sqlite3MemCompare` of `vdbemem.c`, `sqlite3VdbeRecordCompare` and `sqlite3VdbeIdxRowidLen` of
`vdbeaux.c`: how the keys of an index are ordered, with the collations of its columns. All strings
are UTF-8, so none is translated for a collation.

The comparison reads two records side by side and stops at the first difference. Its result is
`compareFields` of the values that were stored (`recordCompare_record`). When one record has
no more fields, what is left of the *data* of the other decides, so that fields without
data do not count.

In a `DESC` column the result is negated as an `int`. So a collation must not return the least
`int` there, which has no negative (`KeyInfo.Negatable`). The lengths of strings are less than
`2^31` apart.
-/

namespace SqlCode.SqliteCore

open Exec Text Comparator

/-! ### The programs -/

/-- What the machine does with numbers of type `double`, given by their bits. -/
structure Doubles where
  /-- `<`. -/
  lt : UInt64 → UInt64 → Bool
  /-- The conversion from `i64`. -/
  ofInt : Int64 → UInt64

/-- `memcmp`, up to the end of the shorter string. -/
def memcmp : List Byte → List Byte → ℤ
  | c :: s, d :: t => if c < d then -1 else if d < c then 1 else memcmp s t
  | _, _ => 0

/-- The end of `sqlite3MemCompare`. -/
def compareBlobs (z1 z2 : List Byte) : ℤ :=
  let rc := memcmp z1 z2
  if rc = 0 then z1.length - z2.length else rc

/-- Two numbers of type `double`. -/
def compareReals (D : Doubles) (r1 r2 : UInt64) : ℤ :=
  if D.lt r1 r2 then -1 else if D.lt r2 r1 then 1 else 0

/-- `xCmp` of a collation. -/
abbrev Collation := List Byte → List Byte → ℤ

/-- `sqlite3MemCompare`. -/
def memCompare (D : Doubles) (pColl : Option Collation) : Mem → Mem → ℤ
  | .null, .null => 0
  | .null, _ => -1
  | _, .null => 1
  | .int i1, .int i2 => if i1 < i2 then -1 else if i2 < i1 then 1 else 0
  | .int i1, .real r2 => compareReals D (D.ofInt i1) r2
  | .real r1, .int i2 => compareReals D r1 (D.ofInt i2)
  | .real r1, .real r2 => compareReals D r1 r2
  | .int _, _ | .real _, _ => -1
  | _, .int _ | _, .real _ => 1
  | .str z1, .str z2 =>
    match pColl with
    | some xCmp => xCmp z1 z2
    | none => compareBlobs z1 z2
  | .str _, .blob _ => -1
  | .blob _, .str _ => 1
  | .blob z1, .blob z2 => compareBlobs z1 z2

/-- `KeyInfo`. The collations are `aColl`, one for each of the `nField` columns. -/
structure KeyInfo where
  /-- `aColl`. -/
  aColl : List (Option Collation)
  /-- `aSortOrder`, with `true` for `DESC`. -/
  aSortOrder : Option (List Bool)
  /-- `incrKey`. -/
  incrKey : Bool

/-- The comparison of the column `i`. -/
def KeyInfo.columnCompare (D : Doubles) (k : KeyInfo) (i : ℕ) (m1 m2 : Mem) : ℤ :=
  memCompare D (if i < k.aColl.length then k.aColl.getD i none else none) m1 m2

/-- `pKeyInfo->aSortOrder && i<pKeyInfo->nField && pKeyInfo->aSortOrder[i]`. -/
def KeyInfo.descending (k : KeyInfo) (i : ℕ) : Bool :=
  match k.aSortOrder with
  | some order => i < k.aColl.length && order.getD i false
  | none => false

/-- The first `n` bytes of `z`, as a key. -/
structure Key where
  /-- `pKey`. -/
  z : List Byte
  /-- `nKey`. -/
  n : ℕ

/-- The loop of `sqlite3VdbeRecordCompare`: `rc`, `i`, `d1` and `d2` behind it. -/
def compareLoop (D : Doubles) (k : KeyInfo) (key1 key2 : Key) (szHdr1 szHdr2 : ℕ)
    (idx1 idx2 d1 d2 i : ℕ) : Option (ℤ × ℕ × ℕ × ℕ) :=
  if idx1 < szHdr1 ∧ idx2 < szHdr2 then
    match _h : getVarintMacro (key1.z.drop idx1) with
    | none => none
    | some (type1, n1) =>
      if key1.n ≤ d1 ∧ 0 < serialTypeLen type1 then some (0, i, d1, d2)
      else
        match getVarintMacro (key2.z.drop idx2) with
        | none => none
        | some (type2, n2) =>
          if key2.n ≤ d2 ∧ 0 < serialTypeLen type2 then some (0, i, d1, d2)
          else
            match serialGet (key1.z.drop d1) type1, serialGet (key2.z.drop d2) type2 with
            | some (mem1, len1), some (mem2, len2) =>
              let rc := k.columnCompare D i mem1 mem2
              if rc ≠ 0 then some (rc, i, d1 + len1, d2 + len2)
              else
                compareLoop D k key1 key2 szHdr1 szHdr2 (idx1 + n1) (idx2 + n2) (d1 + len1)
                  (d2 + len2) (i + 1)
            | _, _ => none
  else some (0, i, d1, d2)
termination_by szHdr1 - idx1
decreasing_by
  have hpos := getVarintMacro_pos _h
  omega

/-- What follows the loop. -/
def compareEnd (k : KeyInfo) (key1 key2 : Key) (rc : ℤ) (i d1 d2 : ℕ) : ℤ :=
  if rc = 0 then
    if k.incrKey then -1 else if d1 < key1.n then 1 else if d2 < key2.n then -1 else 0
  else if k.descending i then toInt (-rc)
  else rc

/-- `sqlite3VdbeRecordCompare`. -/
def recordCompare (D : Doubles) (k : KeyInfo) (key1 key2 : Key) : Option ℤ := do
  let (szHdr1, idx1) ← getVarintMacro key1.z
  let (szHdr2, idx2) ← getVarintMacro key2.z
  let (rc, i, d1, d2) ←
    compareLoop D k key1 key2 szHdr1.toNat szHdr2.toNat idx1 idx2 szHdr1.toNat szHdr2.toNat 0
  pure (compareEnd k key1 key2 rc i d1 d2)

/-- `sqlite3VdbeIdxRowidLen`. -/
def idxRowidLen (aKey : List Byte) : Option ℕ := do
  let (szHdr, _) ← getVarint32 aKey
  let (typeRowid, _) ← getVarint32 (aKey.drop (szHdr.toNat - 1))
  pure (serialTypeLen typeRowid)

/-- The comparison of `sqlite3VdbeIdxKeyCompare`: the entry of an index without its rowid, and a
key. -/
def idxKeyCompare (D : Doubles) (k : KeyInfo) (m : List Byte) (pKey : Key) : Option ℤ := do
  let lenRowid ← idxRowidLen m
  recordCompare D k ⟨m, m.length - lenRowid⟩ pKey

/-! ### Results that can be negated -/

/-- An `int` other than the least. -/
def Negatable (z : ℤ) : Prop := -2 ^ 31 < z ∧ z < 2 ^ 31

theorem Negatable.toInt_neg {z : ℤ} (h : Negatable z) : toInt (-z) = -z := by
  obtain ⟨hlo, hhi⟩ := h
  exact toInt_eq (by omega) (by omega)

/-- The collations of the `DESC` columns do not return the least `int`. -/
def KeyInfo.Negatable (k : KeyInfo) : Prop :=
  ∀ i xCmp, k.descending i = true → k.aColl[i]? = some (some xCmp) → ∀ z1 z2 : List Byte,
    z1.length < 2 ^ 31 → z2.length < 2 ^ 31 → SqliteCore.Negatable (xCmp z1 z2)

theorem memcmp_bounds (z1 z2 : List Byte) : -1 ≤ memcmp z1 z2 ∧ memcmp z1 z2 ≤ 1 := by
  induction z1 generalizing z2 with
  | nil => simp [memcmp]
  | cons c s ih =>
    cases z2 with
    | nil => simp [memcmp]
    | cons d t =>
      have hst := ih t
      unfold memcmp
      split_ifs <;> omega

theorem negatable_compareBlobs {z1 z2 : List Byte} (h1 : z1.length < 2 ^ 31)
    (h2 : z2.length < 2 ^ 31) : Negatable (compareBlobs z1 z2) := by
  have hbytes := memcmp_bounds z1 z2
  unfold Negatable compareBlobs
  dsimp only
  split_ifs <;> omega

theorem negatable_compareReals (D : Doubles) (r1 r2 : UInt64) :
    Negatable (compareReals D r1 r2) := by
  unfold Negatable compareReals
  split_ifs <;> decide

/-- Values shorter than `2^31` bytes. -/
theorem negatable_memCompare (D : Doubles) {pColl : Option Collation} {a b : Mem}
    (ha : a.n < 2 ^ 31) (hb : b.n < 2 ^ 31)
    (hcoll : ∀ xCmp ∈ pColl, ∀ z1 z2 : List Byte, z1.length < 2 ^ 31 → z2.length < 2 ^ 31 →
      Negatable (xCmp z1 z2)) : Negatable (memCompare D pColl a b) := by
  have hsmall : ∀ z : ℤ, z = -1 ∨ z = 0 ∨ z = 1 → Negatable z := by
    rintro _ (rfl | rfl | rfl) <;> exact ⟨by decide, by decide⟩
  cases a <;> cases b
  case int.int i j =>
    refine hsmall _ ?_
    simp only [memCompare]
    split_ifs <;> simp
  case int.real | real.int | real.real => exact negatable_compareReals D _ _
  case str.str z1 z2 =>
    cases pColl with
    | none => exact negatable_compareBlobs ha hb
    | some xCmp => exact hcoll xCmp rfl z1 z2 ha hb
  case blob.blob z1 z2 => exact negatable_compareBlobs ha hb
  -- values of different types
  all_goals exact hsmall _ (by simp [memCompare])

/-- The collation of a column is one of `aColl`. -/
theorem KeyInfo.getElem?_aColl {k : KeyInfo} {i : ℕ} {xCmp : Collation}
    (hx : xCmp ∈ if i < k.aColl.length then k.aColl.getD i none else none) :
    k.aColl[i]? = some (some xCmp) := by
  by_cases hi : i < k.aColl.length
  · rw [if_pos hi, List.getD_eq_getElem?_getD] at hx
    rw [List.getElem?_eq_getElem hi] at hx ⊢
    exact congrArg some hx
  · rw [if_neg hi] at hx
    cases hx

/-- The comparison of a column that is negated. -/
theorem KeyInfo.Negatable.columnCompare {k : KeyInfo} (hk : k.Negatable) (D : Doubles) {i : ℕ}
    (hi : k.descending i = true) {a b : Mem} (ha : a.n < 2 ^ 31) (hb : b.n < 2 ^ 31) :
    SqliteCore.Negatable (k.columnCompare D i a b) :=
  negatable_memCompare D ha hb fun xCmp hx => hk i xCmp hi (KeyInfo.getElem?_aColl hx)

/-! ### What the comparison of records computes -/

/-- The comparison of the values in the fields from the column `i` on. When one record has no
more of them, the data that is left of the other decides. -/
def compareFields (D : Doubles) (k : KeyInfo) : ℕ → List Cell → List Cell → ℤ
  | i, c1 :: cells1, c2 :: cells2 =>
    let rc := k.columnCompare D i c1.value c2.value
    if rc = 0 then compareFields D k (i + 1) cells1 cells2
    else if k.descending i then -rc
    else rc
  | _, cells1, cells2 =>
    if k.incrKey then -1
    else if 0 < (dataBytes cells1).length then 1
    else if 0 < (dataBytes cells2).length then -1
    else 0

/-- From `idx` and `d` on, a key has the types of `cells` and `cut`, and the data of `cells`. -/
structure Reads (key : Key) (szHdr idx d : ℕ) (cells cut : List Cell) : Prop where
  types : ∃ rest, key.z.drop idx = typeBytes (cells ++ cut) ++ rest
  data : ∃ rest, key.z.drop d = dataBytes cells ++ rest
  szHdr_eq : szHdr = idx + (typeBytes (cells ++ cut)).length
  n_eq : key.n = d + (dataBytes cells).length
  /-- The data that was cut off cannot be missed. -/
  pos : ∀ c ∈ cut, 0 < c.data.length

section Loop

variable {D : Doubles} {k : KeyInfo} {key key1 key2 : Key} {szHdr idx d i : ℕ}
  {szHdr1 szHdr2 idx1 idx2 d1 d2 : ℕ} {c c1 c2 : Cell} {cells cells1 cells2 cut cut1 cut2 : List Cell}

/-- The type of the next field. -/
theorem Reads.type (h : Reads key szHdr idx d (c :: cells) cut) :
    getVarintMacro (key.z.drop idx) = some (c.type, (putVarint c.type.toUInt64).length) := by
  obtain ⟨rest, hrest⟩ := h.types
  rw [hrest, List.cons_append, typeBytes_cons, List.append_assoc]
  exact getVarintMacro_type c _

/-- The value of the next field. -/
theorem Reads.value (h : Reads key szHdr idx d (c :: cells) cut) :
    serialGet (key.z.drop d) c.type = some (c.value, c.data.length) := by
  obtain ⟨rest, hrest⟩ := h.data
  rw [hrest, dataBytes_cons, List.append_assoc]
  exact c.get _

/-- The fields behind it. -/
theorem Reads.next (h : Reads key szHdr idx d (c :: cells) cut) :
    Reads key szHdr (idx + (putVarint c.type.toUInt64).length) (d + c.data.length) cells cut := by
  obtain ⟨⟨rest, hrest⟩, ⟨rest', hrest'⟩, hsz, hn, hpos⟩ := h
  rw [List.cons_append, typeBytes_cons] at hrest hsz
  rw [dataBytes_cons] at hrest' hn
  rw [List.length_append] at hsz hn
  refine ⟨⟨rest, ?_⟩, ⟨rest', ?_⟩, by omega, by omega, hpos⟩
  · rw [← List.drop_drop, hrest, List.append_assoc, List.drop_left]
  · rw [← List.drop_drop, hrest', List.append_assoc, List.drop_left]

/-- The data of a field is not missing. -/
theorem Reads.present (h : Reads key szHdr idx d (c :: cells) cut) :
    ¬ (key.n ≤ d ∧ 0 < serialTypeLen c.type) := by
  have hn := h.n_eq
  rw [dataBytes_cons, List.length_append] at hn
  rw [← c.length_data]
  omega

theorem Reads.idx_lt (h : Reads key szHdr idx d (c :: cells) cut) : idx < szHdr := by
  have hpos := putVarint_length_pos c.type.toUInt64
  rw [h.szHdr_eq, List.cons_append, typeBytes_cons, List.length_append]
  omega

/-- Without more fields the header has ended, or the data of the next type is missing. -/
theorem Reads.ended (h : Reads key szHdr idx d [] cut) : szHdr ≤ idx ∨
    ∃ t n, getVarintMacro (key.z.drop idx) = some (t, n) ∧ key.n ≤ d ∧ 0 < serialTypeLen t := by
  cases cut with
  | nil =>
    left
    rw [h.szHdr_eq]
    exact le_rfl
  | cons c cut =>
    obtain ⟨rest, hrest⟩ := h.types
    refine .inr ⟨c.type, (putVarint c.type.toUInt64).length, ?_, h.n_eq.le, ?_⟩
    · rw [hrest, List.nil_append, typeBytes_cons, List.append_assoc]
      exact getVarintMacro_type c _
    · rw [← c.length_data]
      exact h.pos c List.mem_cons_self

/-- One round, up to the second of the types. -/
theorem compareLoop_round {t1 : UInt32} {n1 : ℕ} (hidx : idx1 < szHdr1 ∧ idx2 < szHdr2)
    (h1 : getVarintMacro (key1.z.drop idx1) = some (t1, n1)) :
    compareLoop D k key1 key2 szHdr1 szHdr2 idx1 idx2 d1 d2 i =
      if key1.n ≤ d1 ∧ 0 < serialTypeLen t1 then some (0, i, d1, d2)
      else
        match getVarintMacro (key2.z.drop idx2) with
        | none => none
        | some (t2, n2) =>
          if key2.n ≤ d2 ∧ 0 < serialTypeLen t2 then some (0, i, d1, d2)
          else
            match serialGet (key1.z.drop d1) t1, serialGet (key2.z.drop d2) t2 with
            | some (mem1, len1), some (mem2, len2) =>
              let rc := k.columnCompare D i mem1 mem2
              if rc ≠ 0 then some (rc, i, d1 + len1, d2 + len2)
              else
                compareLoop D k key1 key2 szHdr1 szHdr2 (idx1 + n1) (idx2 + n2) (d1 + len1)
                  (d2 + len2) (i + 1)
            | _, _ => none := by
  rw [compareLoop, if_pos hidx]
  split
  · next h => exact absurd (h1.symm.trans h) (by simp)
  · next h =>
    cases h1.symm.trans h
    rfl

/-- The loop ends where one of the records has no more fields. -/
theorem compareLoop_ended (h1 : Reads key1 szHdr1 idx1 d1 cells1 cut1)
    (h2 : Reads key2 szHdr2 idx2 d2 cells2 cut2) (hnil : cells1 = [] ∨ cells2 = []) :
    compareLoop D k key1 key2 szHdr1 szHdr2 idx1 idx2 d1 d2 i = some (0, i, d1, d2) := by
  by_cases hidx : idx1 < szHdr1 ∧ idx2 < szHdr2
  · have hfirst : cells1 = [] → ∃ t n, getVarintMacro (key1.z.drop idx1) = some (t, n) ∧
        key1.n ≤ d1 ∧ 0 < serialTypeLen t := by
      rintro rfl
      exact h1.ended.resolve_left (by omega)
    cases cells1 with
    -- the first record is tested before a type of the second is read
    | nil =>
      obtain ⟨t, n, ht, hmissing⟩ := hfirst rfl
      rw [compareLoop_round hidx ht, if_pos hmissing]
    | cons c1 cells1 =>
      obtain rfl : cells2 = [] := hnil.resolve_left (List.cons_ne_nil _ _)
      obtain ⟨t, n, ht, hmissing⟩ := h2.ended.resolve_left (by omega)
      rw [compareLoop_round hidx h1.type, if_neg h1.present, ht]
      exact if_pos hmissing
  · rw [compareLoop, if_neg hidx]

/-- What is left of the data decides. -/
theorem compareEnd_zero (h1 : Reads key1 szHdr1 idx1 d1 cells1 cut1)
    (h2 : Reads key2 szHdr2 idx2 d2 cells2 cut2) (hnil : cells1 = [] ∨ cells2 = []) :
    compareEnd k key1 key2 0 i d1 d2 = compareFields D k i cells1 cells2 := by
  have hn1 := h1.n_eq
  have hn2 := h2.n_eq
  have hlt1 : d1 < key1.n ↔ 0 < (dataBytes cells1).length := by omega
  have hlt2 : d2 < key2.n ↔ 0 < (dataBytes cells2).length := by omega
  unfold compareEnd
  rw [if_pos rfl]
  simp only [hlt1, hlt2]
  rcases hnil with rfl | rfl
  · cases cells2 <;> rfl
  · cases cells1 <;> rfl

/-- **The loop** compares the fields. -/
theorem compareLoop_spec (hk : k.Negatable) (hshort1 : ∀ c ∈ cells1, c.value.n < 2 ^ 31)
    (hshort2 : ∀ c ∈ cells2, c.value.n < 2 ^ 31) (h1 : Reads key1 szHdr1 idx1 d1 cells1 cut1)
    (h2 : Reads key2 szHdr2 idx2 d2 cells2 cut2) :
    ∃ rc j d1' d2',
      compareLoop D k key1 key2 szHdr1 szHdr2 idx1 idx2 d1 d2 i = some (rc, j, d1', d2') ∧
        compareEnd k key1 key2 rc j d1' d2' = compareFields D k i cells1 cells2 := by
  induction cells1 generalizing cells2 idx1 idx2 d1 d2 i with
  | nil =>
    exact ⟨_, _, _, _, compareLoop_ended h1 h2 (.inl rfl), compareEnd_zero h1 h2 (.inl rfl)⟩
  | cons c1 cells1 ih =>
    cases cells2 with
    | nil =>
      exact ⟨_, _, _, _, compareLoop_ended h1 h2 (.inr rfl), compareEnd_zero h1 h2 (.inr rfl)⟩
    | cons c2 cells2 =>
      rw [compareLoop_round ⟨h1.idx_lt, h2.idx_lt⟩ h1.type, if_neg h1.present, h2.type]
      simp only [if_neg h2.present, h1.value, h2.value]
      -- equal fields: the loop goes on behind them
      by_cases hrc : k.columnCompare D i c1.value c2.value = 0
      · obtain ⟨rc, j, d1', d2', hloop, hend⟩ :=
          ih (fun c hc => hshort1 c (List.mem_cons_of_mem _ hc))
            (fun c hc => hshort2 c (List.mem_cons_of_mem _ hc)) h1.next h2.next (i := i + 1)
        refine ⟨rc, j, d1', d2', ?_, ?_⟩
        · rw [if_neg (not_not.mpr hrc), hloop]
        · rw [hend, compareFields]
          simp only [hrc, if_true]
      · refine ⟨_, _, _, _, if_pos hrc, ?_⟩
        unfold compareEnd
        rw [if_neg hrc, compareFields]
        simp only [hrc, if_false]
        by_cases hi : k.descending i = true
        · rw [if_pos hi, if_pos hi]
          exact (hk.columnCompare D hi (hshort1 c1 List.mem_cons_self)
            (hshort2 c2 List.mem_cons_self)).toInt_neg
        · rw [if_neg hi, if_neg hi]

end Loop

/-! ### Records and keys -/

/-- The key that is all of a record. -/
def Key.all (z : List Byte) : Key := ⟨z, z.length⟩

section Records

variable {D : Doubles} {k : KeyInfo} {cells cells1 cells2 cut : List Cell}

/-- What the comparison finds in a record whose last fields may be cut off. -/
theorem reads_record (h : (record (cells ++ cut)).length < 2 ^ 31)
    (hcut : ∀ c ∈ cut, 0 < c.data.length) :
    ∃ szHdr idx, getVarintMacro (record (cells ++ cut)) = some (szHdr, idx) ∧
      Reads ⟨record (cells ++ cut), (record (cells ++ cut)).length - (dataBytes cut).length⟩
        szHdr.toNat idx szHdr.toNat cells cut := by
  obtain ⟨szHdr, idx, hread, -, hend, htypes, hdata, htotal⟩ := record_header h
  have hsplit : dataBytes (cells ++ cut) = dataBytes cells ++ dataBytes cut :=
    List.flatMap_append
  rw [hsplit] at hdata htotal
  rw [List.length_append] at htotal
  refine ⟨szHdr, idx, hread, ⟨_, htypes⟩, ⟨_, hdata⟩, hend, ?_, hcut⟩
  change (record (cells ++ cut)).length - (dataBytes cut).length = _
  omega

/-- The values in a record of less than `2^31` bytes are shorter than that. -/
theorem n_value_lt (h : (record (cells ++ cut)).length < 2 ^ 31) :
    ∀ c ∈ cells, c.value.n < 2 ^ 31 := by
  intro c hc
  have hdata : c.data.length ≤ (dataBytes (cells ++ cut)).length := by
    unfold dataBytes
    rw [List.flatMap_def]
    exact (List.sublist_flatten_of_mem
      (List.mem_map_of_mem (List.mem_append_left cut hc))).length_le
  have htotal : (record (cells ++ cut)).length =
      (header (cells ++ cut)).length + (dataBytes (cells ++ cut)).length := List.length_append
  have hvalue := c.n_value_le
  omega

/-- **Records are compared by their fields**, also when the last fields of the first are cut
off. -/
theorem recordCompare_record (hk : k.Negatable)
    (hcells1 : (record (cells1 ++ cut)).length < 2 ^ 31)
    (hcells2 : (record cells2).length < 2 ^ 31) (hcut : ∀ c ∈ cut, 0 < c.data.length) :
    recordCompare D k
      ⟨record (cells1 ++ cut), (record (cells1 ++ cut)).length - (dataBytes cut).length⟩
      (.all (record cells2)) = some (compareFields D k 0 cells1 cells2) := by
  have hnil : cells2 ++ [] = cells2 := List.append_nil cells2
  obtain ⟨szHdr1, idx1, hread1, h1⟩ := reads_record hcells1 hcut
  have hnone : ∀ c ∈ ([] : List Cell), 0 < c.data.length := fun c hc => nomatch hc
  obtain ⟨szHdr2, idx2, hread2, h2⟩ := reads_record (hnil.symm ▸ hcells2) hnone
  rw [hnil] at hread2 h2
  obtain ⟨rc, j, d1, d2, hloop, hend⟩ := compareLoop_spec (D := D) (i := 0) hk
    (n_value_lt hcells1) (n_value_lt (hnil.symm ▸ hcells2)) h1 h2
  unfold recordCompare
  simp only [Key.all, hread1, hread2, bind, Option.bind, pure]
  have hloop' : compareLoop D k ⟨record (cells1 ++ cut), _⟩
      ⟨record cells2, (record cells2).length⟩ szHdr1.toNat szHdr2.toNat idx1 idx2 szHdr1.toNat
      szHdr2.toNat 0 = some (rc, j, d1, d2) := hloop
  rw [hloop']
  exact congrArg some hend

/-- Two whole records. -/
theorem recordCompare_all (hk : k.Negatable) (hcells1 : (record cells1).length < 2 ^ 31)
    (hcells2 : (record cells2).length < 2 ^ 31) :
    recordCompare D k (.all (record cells1)) (.all (record cells2)) =
      some (compareFields D k 0 cells1 cells2) := by
  rw [← List.append_nil cells1] at hcells1
  have hnone : ∀ c ∈ ([] : List Cell), 0 < c.data.length := fun c hc => nomatch hc
  have h := recordCompare_record (D := D) hk hcells1 hcells2 hnone
  rwa [List.append_nil] at h

/-- **The rowid of an entry** is read from the last byte of the header: its type is one byte. -/
theorem idxRowidLen_record {c : Cell} (h : (record (cells ++ [c])).length < 2 ^ 31)
    (hc : c.type.toNat < 128) : idxRowidLen (record (cells ++ [c])) = some c.data.length := by
  obtain ⟨szHdr, len, hread, -, hend, htypes, -, -⟩ := record_header h
  have hlast : typeBytes (cells ++ [c]) = typeBytes cells ++ putVarint c.type.toUInt64 := by
    unfold typeBytes
    rw [List.flatMap_append, List.flatMap_singleton]
  have hone : (putVarint c.type.toUInt64).length = 1 := by
    rw [length_putVarint]
    exact lenLoop_eq (show 0 < 9 by decide) (fun h => absurd rfl h) fun _ => hc
  have hdrop : (record (cells ++ [c])).drop (szHdr.toNat - 1) =
      putVarint c.type.toUInt64 ++ dataBytes (cells ++ [c]) := by
    have hpos : szHdr.toNat - 1 = len + (typeBytes cells).length := by
      rw [hend, hlast, List.length_append, hone]
      omega
    rw [hpos, ← List.drop_drop, htypes, hlast, List.append_assoc, List.drop_left]
  rw [getVarintMacro_eq] at hread
  have htype := getVarintMacro_type c (dataBytes (cells ++ [c]))
  rw [getVarintMacro_eq] at htype
  unfold idxRowidLen
  simp only [hread, hdrop, htype, bind, Option.bind, pure, c.length_data]

/-- In format 0 an integer has data. -/
theorem serialType_rowid (i : Int64) :
    (serialType 0 (.int i)).toNat < 128 ∧ 0 < (serialPut 0 (.int i)).length := by
  have htype := serialType_int (fun h => absurd h.1 (by decide) : ¬ (4 ≤ 0 ∧ i &&& 1 = i))
  obtain ⟨t, n, ht, hn, hcase, -⟩ := intType_cases (if i < 0 then -i else i).toUInt64
  rw [length_serialPut 0 (sized_int i), htype, ht, hn]
  rcases hcase with ⟨rfl, rfl⟩ | ⟨rfl, rfl⟩ | ⟨rfl, rfl⟩ | ⟨rfl, rfl⟩ | ⟨rfl, rfl⟩ | ⟨rfl, rfl⟩ <;>
    decide

/-- **The entry of an index and a key** are compared by the fields, without the rowid. -/
theorem idxKeyCompare_makeRecord (hk : k.Negatable) {fileFormat fileFormat' : ℕ}
    {fields fields' : List Mem} (hf : ∀ m ∈ fields, m.Sized) (hf' : ∀ m ∈ fields', m.Sized) (rowid : Int64)
    (h : recordByte fileFormat fields (some rowid) < 2 ^ 31)
    (h' : recordByte fileFormat' fields' none < 2 ^ 31) :
    idxKeyCompare D k (makeRecord fileFormat fields (some rowid))
        (.all (makeRecord fileFormat' fields' none)) =
      some (compareFields D k 0 (recordCells fileFormat fields hf none)
        (recordCells fileFormat' fields' hf' none)) := by
  -- the rowid is the last cell of the entry, which the shorter key cuts off
  set cell := cellOf 0 (.int rowid) (sized_int rowid) with hcell
  obtain ⟨htype, hdata⟩ := serialType_rowid rowid
  have hentry : recordCells fileFormat fields hf (some rowid) =
      recordCells fileFormat fields hf none ++ [cell] := by
    simp [recordCells, hcell]
  have hlen := length_record_recordCells hf h
  have hlen' := length_record_recordCells hf' h'
  rw [hentry] at hlen
  rw [makeRecord_eq hf, makeRecord_eq hf', hentry]
  have hrowid := idxRowidLen_record (hlen.trans_lt h) htype
  have hcut : (dataBytes [cell]).length = cell.data.length := by
    simp [dataBytes]
  have hpos : ∀ c ∈ [cell], 0 < c.data.length := fun c hc => List.mem_singleton.mp hc ▸ hdata
  have hcompare := recordCompare_record (D := D) hk (hlen.trans_lt h) (hlen'.trans_lt h') hpos
  rw [hcut] at hcompare
  unfold idxKeyCompare
  rw [hrowid]
  exact hcompare

end Records

end SqlCode.SqliteCore
