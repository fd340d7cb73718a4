import SqlCode.SqliteCore.Serial
import Mathlib.Algebra.BigOperators.Group.List.Basic

/-!
# Records

`OP_MakeRecord`, `OP_MakeIdxRec` and `OP_Column` of `vdbe.c`, for a record that is in memory. A
record is the size of its header, the serial types of its fields and their data. The header's
size counts the varint that it is stored in, whose length depends on it.

* `addHeaderSize_spec` — the size of the header is right, also where the varint grows by a
  byte because the header counts it;
* `length_makeRecord` — so `zCsr==(zNewRecord+nByte)`, as `OP_MakeRecord` asserts;
* `opColumn_makeRecord` — `OP_Column` finds every field, and the default where the record has
  no more fields.

Between the two programs a record is a list of `Cell`s, each a type and data that are known to
be read back.
-/

namespace SqlCode.SqliteCore

open Text

/-! ### The programs -/

/-- From the space for the serial types to the size of the header, with its own varint. -/
def addHeaderSize (nHdr : ℕ) : ℕ :=
  let nVarint := varintLen (UInt64.ofNat nHdr)
  let nHdr := nHdr + nVarint
  if nVarint < varintLen (UInt64.ofNat nHdr) then nHdr + 1 else nHdr

/-- The serial types, with that of the rowid that `OP_MakeIdxRec` appends. -/
def recordTypes (fileFormat : ℕ) (fields : List Mem) (rowid : Option Int64) : List UInt32 :=
  fields.map (serialType fileFormat) ++ rowid.toList.map fun i => serialType 0 (.int i)

/-- `nHdr`. -/
def recordHdr (fileFormat : ℕ) (fields : List Mem) (rowid : Option Int64) : ℕ :=
  addHeaderSize ((recordTypes fileFormat fields rowid).map fun t => varintLen t.toUInt64).sum

/-- `nByte`. -/
def recordByte (fileFormat : ℕ) (fields : List Mem) (rowid : Option Int64) : ℕ :=
  recordHdr fileFormat fields rowid +
    ((recordTypes fileFormat fields rowid).map serialTypeLen).sum

/-- `OP_MakeRecord`, and `OP_MakeIdxRec` with a rowid: the bytes that they write, after the
affinities have been applied. -/
def makeRecord (fileFormat : ℕ) (fields : List Mem) (rowid : Option Int64) : List Byte :=
  putVarint (UInt64.ofNat (recordHdr fileFormat fields rowid)) ++
    (fields.flatMap (fun m => putVarint (serialType fileFormat m).toUInt64) ++
      rowid.toList.flatMap fun i => putVarint (serialType 0 (.int i)).toUInt64) ++
    (fields.flatMap (serialPut fileFormat) ++ rowid.toList.flatMap fun i => serialPut 0 (.int i))

/-- Why a column is not read. -/
inductive RecordError
  /-- `SQLITE_CORRUPT`. -/
  | corrupt
  /-- An access beyond the record. -/
  | outOfBounds
  deriving DecidableEq

/-- An access that may go beyond the record. -/
def checked {α : Type} : Option α → Except RecordError α
  | some a => .ok a
  | none => .error .outOfBounds

/-- The loop over `i` in `OP_Column`: `aOffset[i]` and `aType[i]` for the columns that are
left, then `zIdx` and `offset`. -/
def scanHeader (zRec : List Byte) (zEndHdr : ℕ) :
    ℕ → ℕ → ℕ → Except RecordError (List (ℕ × UInt32) × ℕ × ℕ)
  | 0, zIdx, offset => .ok ([], zIdx, offset)
  | nField + 1, zIdx, offset =>
    if zIdx < zEndHdr then do
      let (type, n) ← checked (getVarintMacro (zRec.drop zIdx))
      let (columns, r) ← scanHeader zRec zEndHdr nField (zIdx + n) (offset + serialTypeLen type)
      pure ((offset, type) :: columns, r)
    else do
      let (columns, r) ← scanHeader zRec zEndHdr nField zIdx offset
      pure ((0, 0) :: columns, r)

/-- `OP_Column` for the column `p2` of `nField`, with the value `p3` for a column that the
record does not have. -/
def opColumn (zRec : List Byte) (nField p2 : ℕ) (p3 : Mem) : Except RecordError Mem :=
  if zRec.length = 0 then .ok .null
  else do
    let (offset, szHdrSz) ← checked (getVarintMacro zRec)
    let zEndHdr := offset.toNat
    let (columns, zIdx, offset) ← scanHeader zRec zEndHdr nField szHdrSz zEndHdr
    if zEndHdr < zIdx ∨ zRec.length < offset then throw .corrupt
    let (aOffset, aType) := columns.getD p2 (0, 0)
    if aOffset ≠ 0 then do
      let (m, _) ← checked (serialGet (zRec.drop aOffset) aType)
      pure m
    else pure p3

/-! ### The size of the header -/

theorem varintLen_ofNat {n j : ℕ} (hj : j ≤ 7) (hle : j ≠ 0 → 128 ^ j ≤ n)
    (hlt : n < 128 ^ (j + 1)) : varintLen (UInt64.ofNat n) = j + 1 := by
  have hn : n < 2 ^ 64 := hlt.trans_le (by
    calc 128 ^ (j + 1) ≤ 128 ^ 8 := Nat.pow_le_pow_right (by decide) (by omega)
      _ ≤ 2 ^ 64 := by decide)
  have hval : (UInt64.ofNat n).toNat = n := UInt64.toNat_ofNat_of_lt' hn
  refine lenLoop_eq (by omega) ?_ fun _ => ?_
  · rw [hval]
    exact hle
  · rw [hval]
    exact hlt

/-- The number of groups of a number of up to 56 bits. -/
theorem exists_groups {n : ℕ} (hn : n < 2 ^ 56) :
    ∃ j, j ≤ 7 ∧ (j ≠ 0 → 128 ^ j ≤ n) ∧ n < 128 ^ (j + 1) := by
  have hval : (UInt64.ofNat n).toNat = n := UInt64.toNat_ofNat_of_lt' (hn.trans (by decide))
  rcases putVarint_cases (UInt64.ofNat n) with ⟨h, -⟩ | ⟨j, hj, hlt, hle, -⟩
  · omega
  · rw [hval] at hlt hle
    exact ⟨j, hj, hle, hlt⟩

/-- **The header counts its own size right.** -/
theorem addHeaderSize_spec {n : ℕ} (hn : n < 2 ^ 48) :
    varintLen (UInt64.ofNat (addHeaderSize n)) + n = addHeaderSize n ∧
      addHeaderSize n < 2 ^ 49 := by
  obtain ⟨j, -, hle, hlt⟩ := exists_groups (hn.trans (by decide))
  -- the types take less than 48 bits to count
  have hj : j ≤ 6 := by
    by_contra hj
    have hpow : 128 ^ 7 ≤ 128 ^ j := Nat.pow_le_pow_right (by decide) (by omega)
    have := hle (by omega)
    omega
  have hlen := varintLen_ofNat (hj.trans (by decide)) hle hlt
  have hone : 1 ≤ 128 ^ j := Nat.one_le_pow _ _ (by decide)
  unfold addHeaderSize
  rw [hlen]
  by_cases hfit : n + (j + 1) < 128 ^ (j + 1)
  · -- the varint of the header is as long as that of the types
    have hsame : varintLen (UInt64.ofNat (n + (j + 1))) = j + 1 :=
      varintLen_ofNat (by omega) (fun h => (hle h).trans (by omega)) hfit
    simp only [hsame, lt_irrefl, if_false]
    omega
  · -- it is longer, and no more than one byte longer
    have hstep : ∀ k, k ≤ j + 2 → j + 1 ≤ k → varintLen (UInt64.ofNat (n + k)) = j + 1 + 1 := by
      intro k hk hk'
      rw [pow_succ'] at hlt
      exact varintLen_ofNat (by omega) (fun _ => by omega) (by rw [pow_succ', pow_succ']; omega)
    have hnext := hstep (j + 1) (by omega) le_rfl
    have hlast := hstep (j + 2) le_rfl (by omega)
    simp only [hnext, if_pos (Nat.lt_succ_self (j + 1))]
    rw [show n + (j + 1) + 1 = n + (j + 2) by omega, hlast]
    omega

/-! ### Cells -/

/-- A field of a record: its serial type and its data, from which the value is read. -/
structure Cell where
  /-- The serial type. -/
  type : UInt32
  /-- The data. -/
  data : List Byte
  /-- The value. -/
  value : Mem
  /-- The value is read from the data, whatever follows. -/
  get : ∀ p, serialGet (data ++ p) type = some (value, data.length)

theorem Cell.length_data (c : Cell) : c.data.length = serialTypeLen c.type :=
  (serialGet_hasLength _ _ _ (c.get [])).1

/-- A string is no longer than its data. -/
theorem Cell.n_value_le (c : Cell) : c.value.n ≤ c.data.length := by
  rw [c.length_data]
  exact (serialGet_hasLength _ _ _ (c.get [])).2

/-- The cell of a value that fits. -/
def cellOf (fileFormat : ℕ) (m : Mem) (hm : m.Sized) : Cell where
  type := serialType fileFormat m
  data := serialPut fileFormat m
  value := m
  get := serialGet_serialPut fileFormat hm

/-- The varints of the types. -/
def typeBytes (cells : List Cell) : List Byte := cells.flatMap fun c => putVarint c.type.toUInt64

/-- The data. -/
def dataBytes (cells : List Cell) : List Byte := cells.flatMap Cell.data

/-- The size of the header. -/
def headerSize (cells : List Cell) : ℕ := addHeaderSize (typeBytes cells).length

/-- The header. -/
def header (cells : List Cell) : List Byte :=
  putVarint (UInt64.ofNat (headerSize cells)) ++ typeBytes cells

/-- The record. -/
def record (cells : List Cell) : List Byte := header cells ++ dataBytes cells

section Cells

variable {cells : List Cell} {c : Cell} {p : List Byte}

@[simp] theorem typeBytes_cons (c : Cell) (cells : List Cell) :
    typeBytes (c :: cells) = putVarint c.type.toUInt64 ++ typeBytes cells := rfl

@[simp] theorem dataBytes_cons (c : Cell) (cells : List Cell) :
    dataBytes (c :: cells) = c.data ++ dataBytes cells := rfl

/-- The header is as long as it says. -/
theorem length_header (h : (typeBytes cells).length < 2 ^ 48) :
    (header cells).length = headerSize cells := by
  unfold header headerSize
  rw [List.length_append, length_putVarint]
  exact (addHeaderSize_spec h).1

/-- A type is read from its varint. -/
theorem getVarintMacro_type (c : Cell) (p : List Byte) :
    getVarintMacro (putVarint c.type.toUInt64 ++ p) =
      some (c.type, (putVarint c.type.toUInt64).length) := by
  have ht := c.type.toNat_lt
  rw [getVarintMacro_eq, getVarint32_putVarint _ (by rw [UInt32.toNat_toUInt64]; omega),
    UInt32.toUInt32_toUInt64]

/-- The size of the header is read from the record. -/
theorem getVarintMacro_header (h : headerSize cells < 2 ^ 32) (p : List Byte) :
    getVarintMacro (header cells ++ p) =
      some (UInt32.ofNat (headerSize cells),
        (putVarint (UInt64.ofNat (headerSize cells))).length) := by
  have hval : (UInt64.ofNat (headerSize cells)).toNat = headerSize cells :=
    UInt64.toNat_ofNat_of_lt' (h.trans (by decide))
  unfold header
  rw [getVarintMacro_eq, List.append_assoc, getVarint32_putVarint _ (by rw [hval]; omega)]
  congr 2
  rw [← UInt32.toNat_inj, UInt64.toNat_toUInt32, hval, UInt32.toNat_ofNat']

theorem varintLen_pos (v : UInt64) : 0 < varintLen v := by
  unfold varintLen lenLoop
  omega

/-- A varint has a byte. -/
theorem putVarint_length_pos (v : UInt64) : 0 < (putVarint v).length := by
  rw [length_putVarint]
  exact varintLen_pos v

/-- What `aOffset` and `aType` are for the first columns. -/
def columnsOf : List Cell → ℕ → ℕ → List (ℕ × UInt32)
  | _, 0, _ => []
  | c :: cells, nField + 1, offset =>
    (offset, c.type) :: columnsOf cells nField (offset + c.data.length)
  | [], nField + 1, offset => (0, 0) :: columnsOf [] nField offset

/-- **The loop over the header** finds each type, and where its data is. -/
theorem scanHeader_spec {zRec rest : List Byte} (nField : ℕ) {zIdx : ℕ} (offset : ℕ)
    (hrec : zRec.drop zIdx = typeBytes cells ++ rest) :
    ∃ n, n ≤ (typeBytes cells).length ∧
      scanHeader zRec (zIdx + (typeBytes cells).length) nField zIdx offset =
        .ok (columnsOf cells nField offset, zIdx + n,
          offset + (dataBytes (cells.take nField)).length) := by
  induction nField generalizing cells zIdx offset with
  | zero => exact ⟨0, Nat.zero_le _, by simp [scanHeader, columnsOf, dataBytes]⟩
  | succ nField ih =>
    cases cells with
    -- the header is at its end: the columns that are left get offset zero
    | nil =>
      obtain ⟨n, hn, heq⟩ := ih offset hrec
      refine ⟨n, hn, ?_⟩
      have hend : ¬ zIdx < zIdx + (typeBytes []).length := by simp [typeBytes]
      rw [scanHeader, if_neg hend, heq]
      simp [columnsOf, bind, Except.bind, pure, Except.pure]
    | cons c cells =>
      set len := (putVarint c.type.toUInt64).length with hlen
      have hpos : 0 < len := putVarint_length_pos _
      -- one more type has been read, and its data begins where the last ended
      have hnext : zRec.drop (zIdx + len) = typeBytes cells ++ rest := by
        rw [← List.drop_drop, hrec, typeBytes_cons, List.append_assoc, hlen, List.drop_left]
      obtain ⟨n, hn, heq⟩ := ih (offset + serialTypeLen c.type) hnext
      have htotal : (typeBytes (c :: cells)).length = len + (typeBytes cells).length := by
        rw [typeBytes_cons, List.length_append]
      have hread : getVarintMacro (zRec.drop zIdx) = some (c.type, len) := by
        rw [hrec, typeBytes_cons, List.append_assoc]
        exact getVarintMacro_type c _
      refine ⟨len + n, by omega, ?_⟩
      rw [scanHeader, if_pos (by omega), hread, htotal, ← add_assoc]
      simp only [checked, bind, Except.bind, heq, pure, Except.pure]
      simp [columnsOf, c.length_data, add_assoc]

/-- The column `i` in the arrays. -/
theorem getD_columnsOf (cells : List Cell) {nField i : ℕ} (hi : i < nField) (offset : ℕ) :
    (columnsOf cells nField offset).getD i (0, 0) =
      match cells[i]? with
      | some c => (offset + (dataBytes (cells.take i)).length, c.type)
      | none => (0, 0) := by
  induction nField generalizing cells i offset with
  | zero => exact absurd hi (Nat.not_lt_zero i)
  | succ nField ih =>
    cases i with
    | zero => cases cells <;> simp [columnsOf, dataBytes]
    | succ i =>
      have hi' : i < nField := Nat.lt_of_succ_lt_succ hi
      cases cells with
      | nil => simpa [columnsOf] using ih [] hi' offset
      | cons c cells => simpa [columnsOf, add_assoc] using ih cells hi' (offset + c.data.length)

/-- **The data of a field** stands where the lengths of the data before it say. -/
theorem drop_dataBytes {i : ℕ} (hi : cells[i]? = some c) :
    ∃ rest, (dataBytes cells).drop (dataBytes (cells.take i)).length = c.data ++ rest := by
  induction cells generalizing i with
  | nil => cases hi
  | cons d cells ih =>
    cases i with
    | zero =>
      obtain rfl : d = c := by simpa using hi
      exact ⟨dataBytes cells, by simp [dataBytes]⟩
    | succ i =>
      obtain ⟨rest, hrest⟩ := ih (by simpa using hi)
      refine ⟨rest, ?_⟩
      rw [List.take_succ_cons, dataBytes_cons, dataBytes_cons, List.length_append,
        ← List.drop_drop, List.drop_left, hrest]

theorem length_dataBytes_take_le (cells : List Cell) (k : ℕ) :
    (dataBytes (cells.take k)).length ≤ (dataBytes cells).length := by
  conv_rhs => rw [← List.take_append_drop k cells]
  unfold dataBytes
  rw [List.flatMap_append, List.length_append]
  exact Nat.le_add_right _ _

/-- **The header of a record**: its size is where the data begins, and the types are between the
varint of the size and the data. -/
theorem record_header (h : (record cells).length < 2 ^ 31) :
    ∃ szHdr len, getVarintMacro (record cells) = some (szHdr, len) ∧ 0 < len ∧
      szHdr.toNat = len + (typeBytes cells).length ∧
      (record cells).drop len = typeBytes cells ++ dataBytes cells ∧
      (record cells).drop szHdr.toNat = dataBytes cells ∧
      (record cells).length = szHdr.toNat + (dataBytes cells).length := by
  set len := (putVarint (UInt64.ofNat (headerSize cells))).length with hlen
  have hlength : (header cells).length = len + (typeBytes cells).length := List.length_append
  have htotal : (record cells).length = (header cells).length + (dataBytes cells).length :=
    List.length_append
  have hsize : (header cells).length = headerSize cells := length_header (by omega)
  have hnat : (UInt32.ofNat (headerSize cells)).toNat = (header cells).length := by
    rw [UInt32.toNat_ofNat_of_lt' (show headerSize cells < 2 ^ 32 by omega), hsize]
  refine ⟨UInt32.ofNat (headerSize cells), len, getVarintMacro_header (by omega) _,
    putVarint_length_pos _, hnat.trans hlength, ?_, ?_, ?_⟩
  · rw [record, header, List.append_assoc, hlen, List.drop_left]
  · rw [hnat, record, List.drop_left]
  · rw [hnat, htotal]

/-- **Every column of a record** is read, and the default for one that it does not have. -/
theorem opColumn_record (h : (record cells).length < 2 ^ 31) {nField i : ℕ} (hi : i < nField)
    (dflt : Mem) : opColumn (record cells) nField i dflt =
      .ok (match cells[i]? with
        | some c => c.value
        | none => dflt) := by
  obtain ⟨szHdr, len, hread, hpos, hend, htypes, hdata, htotal⟩ := record_header h
  rw [hend] at hdata htotal
  obtain ⟨n, hn, hscan⟩ := scanHeader_spec nField (len + (typeBytes cells).length) htypes
  have htake := length_dataBytes_take_le cells nField
  have hcolumn := getD_columnsOf cells hi (len + (typeBytes cells).length)
  unfold opColumn
  rw [if_neg (by omega), hread]
  simp only [checked, bind, Except.bind, hend, hscan, pure, Except.pure]
  -- the header has not been read beyond its end, nor the data
  rw [if_neg (by omega)]
  cases hc : cells[i]? with
  | none =>
    rw [hc] at hcolumn
    simp only [hcolumn]
    rw [if_neg (by simp)]
  | some c =>
    rw [hc] at hcolumn
    obtain ⟨rest, hfield⟩ := drop_dataBytes hc
    have hdrop : (record cells).drop (len + (typeBytes cells).length +
        (dataBytes (cells.take i)).length) = c.data ++ rest := by
      rw [← List.drop_drop, hdata, hfield]
    simp only [hcolumn, hdrop, c.get rest]
    rw [if_pos (by omega)]

end Cells

/-! ### What `OP_MakeRecord` makes -/

section Made

variable {fileFormat : ℕ} {fields : List Mem} {rowid : Option Int64}

theorem sized_int (i : Int64) : (Mem.int i).Sized := by
  change 0 * 2 + 13 < 2 ^ 31
  decide

/-- The cells of a record. The rowid is stored in format 0. -/
def recordCells (fileFormat : ℕ) (fields : List Mem) (hf : ∀ m ∈ fields, m.Sized)
    (rowid : Option Int64) : List Cell :=
  fields.pmap (cellOf fileFormat) hf ++ rowid.toList.map fun i => cellOf 0 (.int i) (sized_int i)

/-- A list of cells is written as the list of their values is. -/
theorem flatMap_recordCells (hf : ∀ m ∈ fields, m.Sized) {β : Type} (f : Cell → List β)
    (g : ℕ → Mem → List β) (h : ∀ k m hm, f (cellOf k m hm) = g k m) :
    (recordCells fileFormat fields hf rowid).flatMap f =
      fields.flatMap (g fileFormat) ++ rowid.toList.flatMap fun i => g 0 (.int i) := by
  unfold recordCells
  rw [List.flatMap_append, List.flatMap_map]
  congr 1
  · induction fields with
    | nil => rfl
    | cons m fields ih =>
      rw [List.pmap_cons, List.flatMap_cons, List.flatMap_cons, h, ih]
  · exact congrArg (List.flatMap · rowid.toList) (funext fun i => h 0 _ _)

theorem map_type_recordCells (hf : ∀ m ∈ fields, m.Sized) :
    (recordCells fileFormat fields hf rowid).map Cell.type =
      recordTypes fileFormat fields rowid := by
  unfold recordCells recordTypes
  rw [List.map_append, List.map_pmap, List.map_map]
  exact congrArg (· ++ _) (List.pmap_eq_map hf)

theorem map_value_recordCells (hf : ∀ m ∈ fields, m.Sized) :
    (recordCells fileFormat fields hf rowid).map Cell.value = fields ++ rowid.toList.map Mem.int := by
  unfold recordCells
  rw [List.map_append, List.map_pmap, List.map_map]
  exact congrArg (· ++ _) ((List.pmap_eq_map hf).trans (List.map_id fields))

theorem headerSize_recordCells (hf : ∀ m ∈ fields, m.Sized) :
    headerSize (recordCells fileFormat fields hf rowid) = recordHdr fileFormat fields rowid := by
  unfold headerSize recordHdr typeBytes
  rw [← map_type_recordCells hf, List.map_map, List.length_flatMap]
  congr 3
  funext c
  exact length_putVarint _

theorem makeRecord_eq (hf : ∀ m ∈ fields, m.Sized) :
    makeRecord fileFormat fields rowid = record (recordCells fileFormat fields hf rowid) := by
  unfold makeRecord record header
  rw [headerSize_recordCells hf]
  congr 2
  · exact (flatMap_recordCells hf (fun c => putVarint c.type.toUInt64)
      (fun k m => putVarint (serialType k m).toUInt64) fun _ _ _ => rfl).symm
  · exact (flatMap_recordCells hf Cell.data serialPut fun _ _ _ => rfl).symm

/-- `nByte` is the length of the record, if the header is smaller than `2 ^ 48`. -/
theorem length_record_recordCells (hf : ∀ m ∈ fields, m.Sized)
    (h : recordByte fileFormat fields rowid < 2 ^ 31) :
    (record (recordCells fileFormat fields hf rowid)).length =
      recordByte fileFormat fields rowid := by
  set cells := recordCells fileFormat fields hf rowid with hcells
  have hdata : (dataBytes cells).length =
      ((recordTypes fileFormat fields rowid).map serialTypeLen).sum := by
    unfold dataBytes
    rw [← map_type_recordCells hf, List.map_map, List.length_flatMap]
    congr 2
    funext c
    exact c.length_data
  have hhdr : headerSize cells = recordHdr fileFormat fields rowid := headerSize_recordCells hf
  have htypes : (typeBytes cells).length ≤ headerSize cells := by
    unfold headerSize addHeaderSize
    dsimp only
    split_ifs <;> omega
  unfold recordByte at h ⊢
  have hheader : (header cells).length = headerSize cells := length_header (by omega)
  rw [record, List.length_append, hheader, hhdr, hdata]

/-- **`OP_MakeRecord` asserts** `zCsr==(zNewRecord+nByte)`. -/
theorem length_makeRecord (hf : ∀ m ∈ fields, m.Sized)
    (h : recordByte fileFormat fields rowid < 2 ^ 31) :
    (makeRecord fileFormat fields rowid).length = recordByte fileFormat fields rowid := by
  rw [makeRecord_eq hf, length_record_recordCells hf h]

/-- Three bytes of header, two for the integer and two for the text. -/
theorem length_makeRecord_seven :
    (makeRecord 1 [.int 300, .str [97, 98]] none).length = 7 :=
  (length_makeRecord (by simp [Mem.Sized, Mem.n]) (by decide)).trans (by decide)

/-- **`OP_Column` undoes `OP_MakeRecord`.** From every record that fits an `int`, in every
format, it reads the fields and the rowid that were stored, and the default beyond them. -/
theorem opColumn_makeRecord (hf : ∀ m ∈ fields, m.Sized)
    (h : recordByte fileFormat fields rowid < 2 ^ 31) {nField i : ℕ} (hi : i < nField)
    (dflt : Mem) : opColumn (makeRecord fileFormat fields rowid) nField i dflt =
      .ok ((fields ++ rowid.toList.map Mem.int).getD i dflt) := by
  have hlen := length_record_recordCells hf h
  rw [makeRecord_eq hf, opColumn_record (by omega) hi, ← map_value_recordCells hf,
    List.getD_eq_getElem?_getD, List.getElem?_map]
  cases (recordCells fileFormat fields hf rowid)[i]? <;> rfl

/-- The rowid of an entry behind its two fields. -/
theorem opColumn_makeRecord_rowid :
    opColumn (makeRecord 1 [.int 300, .str [97, 98]] (some 7)) 4 2 .null = .ok (.int 7) :=
  opColumn_makeRecord (by simp [Mem.Sized, Mem.n]) (by decide) (by decide) .null

end Made

end SqlCode.SqliteCore
