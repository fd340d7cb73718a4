import SqlCode.SqliteCore.Compare
import SqlCode.Sqlite.LengthFirst
import Mathlib.Data.List.Lex
import Mathlib.Data.Prod.Lex
import Mathlib.Data.Fintype.Order

/-!
# When the comparison of keys is an order

A B-tree is searched by comparison, so the comparison of its keys has to be that of a total
preorder. `sqlite3MemCompare` compares integers exactly, but an integer and a real as numbers of
type `double`. Where two integers are converted to a number that is also stored as a real, the
real is equal to both of them and they are not equal to one another.

* `memCompare_properOn_iff` — this, and the collation of the texts, is all that can go wrong;
* `recordCompare_properOn` — if it goes wrong in no column, the records are ordered.
-/

namespace SqlCode.SqliteCore

open Text Comparator

/-! ### Strings of bytes -/

theorem memcmp_cons (c : Byte) (s t : List Byte) : memcmp (c :: s) (c :: t) = memcmp s t := by
  simp [memcmp]

theorem memcmp_self (s : List Byte) : memcmp s s = 0 := by
  induction s with
  | nil => rfl
  | cons c s ih => rw [memcmp_cons, ih]

/-- The first place where the strings differ decides, or else their lengths. -/
theorem compareBlobs_lt {z1 z2 : List Byte} (h : z1.map UInt8.toNat < z2.map UInt8.toNat) :
    compareBlobs z1 z2 < 0 ∧ 0 < compareBlobs z2 z1 := by
  induction z1 generalizing z2 with
  | nil =>
    cases z2 with
    | nil => exact absurd h (lt_irrefl _)
    | cons d t =>
      change 0 - ((t.length + 1 : ℕ) : ℤ) < 0 ∧ 0 < ((t.length + 1 : ℕ) : ℤ) - 0
      omega
  | cons c s ih =>
    cases z2 with
    | nil => exact absurd h (List.not_lt_nil _)
    | cons d t =>
      rw [List.map_cons, List.map_cons, List.cons_lt_cons_iff] at h
      -- the first bytes decide, or they are equal and the rest does
      rcases h with hcd | ⟨hcd, hst⟩
      · have hlt : memcmp (c :: s) (d :: t) = -1 := if_pos hcd
        have hgt : memcmp (d :: t) (c :: s) = 1 := by
          have hdc : ¬ d < c := fun h => Nat.lt_asymm hcd h
          unfold memcmp
          rw [if_neg hdc]
          exact if_pos hcd
        simp [compareBlobs, hlt, hgt]
      · obtain rfl : c = d := UInt8.toNat_inj.mp hcd
        have hnext := ih hst
        unfold compareBlobs at hnext ⊢
        simpa [memcmp_cons] using hnext

/-- Blobs are in lexicographic order. -/
theorem properOn_compareBlobs (S : Set (List Byte)) :
    ProperOn (fun _ : Unit => compareBlobs) S := by
  apply properOn_of_linearOrder (List.map UInt8.toNat)
  · exact fun _ _ _ _ _ _ => rfl
  · exact fun a _ b _ _ h => compareBlobs_lt h
  · intro a _ b _ _ h
    obtain rfl : a = b := List.map_injective_iff.mpr (fun _ _ => UInt8.toNat_inj.mp) h
    simp [compareBlobs, memcmp_self]

/-! ### Values -/

/-- The order of the types. -/
def Mem.rank : Mem → ℕ
  | .null => 0
  | .int _ | .real _ => 1
  | .str _ => 2
  | .blob _ => 3

/-- The bytes of a text or a blob. -/
def Mem.bytes : Mem → List Byte
  | .str z | .blob z => z
  | _ => []

theorem Mem.rank_spec (a : Mem) : (a.rank = 0 → a = .null) ∧
    (a.rank = 1 → (∃ i, a = .int i) ∨ ∃ r, a = .real r) ∧ (a.rank = 2 → a = .str a.bytes) ∧
      (a.rank = 3 → a = .blob a.bytes) ∧ a.rank ≤ 3 := by
  cases a <;> simp [Mem.rank, Mem.bytes]

section Values

variable {D : Doubles} {κ : Type} [LinearOrder κ] {val : UInt64 → κ} {V : Set Mem}
  {pColl : Option Collation} {a b : Mem}

/-- The number that is compared, when it is not two integers. -/
def Mem.double (D : Doubles) : Mem → Option UInt64
  | .int i => some (D.ofInt i)
  | .real r => some r
  | _ => none

/-- The machine compares the numbers of `V` as elements of a linear order, and converts
integers monotonically. No real of `V` is a NaN. -/
structure OnLine (D : Doubles) (val : UInt64 → κ) (V : Set Mem) : Prop where
  lt_iff : ∀ a ∈ V, ∀ b ∈ V, ∀ r ∈ a.double D, ∀ s ∈ b.double D,
    D.lt r s = true ↔ val r < val s
  mono : ∀ i j, .int i ∈ V → .int j ∈ V → i ≤ j → val (D.ofInt i) ≤ val (D.ofInt j)

/-- Two integers of `V` are converted to one real of `V`. -/
def Ambiguous (D : Doubles) (val : UInt64 → κ) (V : Set Mem) : Prop :=
  ∃ i j r, .int i ∈ V ∧ .int j ∈ V ∧ .real r ∈ V ∧ i < j ∧ val (D.ofInt i) = val r ∧
    val (D.ofInt j) = val r

theorem memCompare_rank_lt (h : a.rank < b.rank) :
    memCompare D pColl a b < 0 ∧ 0 < memCompare D pColl b a := by
  cases a <;> cases b <;> simp_all [Mem.rank, memCompare]

/-- Numbers, when one of them is a real. -/
theorem compareReals_spec {r s : UInt64} (hrs : D.lt r s = true ↔ val r < val s)
    (hsr : D.lt s r = true ↔ val s < val r) :
    (val r < val s → compareReals D r s = -1) ∧ (val r = val s → compareReals D r s = 0) ∧
      (val s < val r → compareReals D r s = 1) := by
  unfold compareReals
  simp only [hrs, hsr]
  refine ⟨fun h => if_pos h, fun h => ?_, fun h => ?_⟩
  · rw [if_neg h.not_lt, if_neg h.not_gt]
  · rw [if_neg h.not_gt, if_pos h]

/-- The integer of `V` that is converted to a number, if there is one. -/
noncomputable def integerOf (D : Doubles) (val : UInt64 → κ) (V : Set Mem) (x : κ) : Int64 :=
  Classical.epsilon fun i => .int i ∈ V ∧ val (D.ofInt i) = x

/-- Numbers are compared by their value as reals, and integers that are equal so, by their value
as integers. -/
noncomputable def numberKey (D : Doubles) (val : UInt64 → κ) (V : Set Mem) : Mem → κ ×ₗ ℤ
  | .int i => toLex (val (D.ofInt i), i.toInt)
  | .real r => toLex (val r, (integerOf D val V (val r)).toInt)
  | _ => toLex (val 0, 0)

omit [LinearOrder κ] in
/-- An integer of `V` that is equal to a real of `V`. -/
theorem integerOf_eq (hV : ¬ Ambiguous D val V) {i : Int64} {r : UInt64} (hi : .int i ∈ V)
    (hr : .real r ∈ V) (h : val (D.ofInt i) = val r) :
    integerOf D val V (val r) = i := by
  obtain ⟨hj, hval⟩ := Classical.epsilon_spec
    (show ∃ j, .int j ∈ V ∧ val (D.ofInt j) = val r from ⟨i, hi, h⟩)
  change .int (integerOf D val V (val r)) ∈ V at hj
  change val (D.ofInt (integerOf D val V (val r))) = val r at hval
  rcases lt_trichotomy (integerOf D val V (val r)).toInt i.toInt with hlt | heq | hgt
  · exact absurd ⟨_, _, _, hj, hi, hr, Int64.lt_iff_toInt_lt.mpr hlt, hval, h⟩ hV
  · exact Int64.toInt_inj.mp heq
  · exact absurd ⟨_, _, _, hi, hj, hr, Int64.lt_iff_toInt_lt.mpr hgt, h, hval⟩ hV

/-- Two integers are compared as keys are. -/
theorem int_key {i j : Int64} (hmono : ∀ i j : Int64, .int i ∈ V → .int j ∈ V → i ≤ j →
      val (D.ofInt i) ≤ val (D.ofInt j)) (hi : .int i ∈ V) (hj : .int j ∈ V)
    (h : numberKey D val V (.int i) < numberKey D val V (.int j)) : i < j := by
  rw [numberKey, numberKey, Prod.Lex.toLex_lt_toLex] at h
  rcases h with hlt | ⟨-, hlt⟩
  · by_contra hji
    have hle : j ≤ i := by
      rw [Int64.le_iff_toInt_le]
      exact not_lt.mp fun h => hji (Int64.lt_iff_toInt_lt.mpr h)
    exact absurd hlt (hmono j i hj hi hle).not_gt
  · exact Int64.lt_iff_toInt_lt.mpr hlt

/-- Two numbers, one of them a real, are compared as keys are. -/
theorem real_key {r s : UInt64} {m n : ℤ} (hrs : D.lt r s = true ↔ val r < val s)
    (hsr : D.lt s r = true ↔ val s < val r) (hmn : val r = val s → m = n) :
    ((toLex (val r, m) : κ ×ₗ ℤ) < toLex (val s, n) →
      compareReals D r s < 0 ∧ 0 < compareReals D s r) ∧
    ((toLex (val r, m) : κ ×ₗ ℤ) = toLex (val s, n) → compareReals D r s = 0) := by
  obtain ⟨hlt, heq, -⟩ := compareReals_spec hrs hsr
  constructor
  · intro h
    rw [Prod.Lex.toLex_lt_toLex] at h
    have hval : val r < val s := h.resolve_right fun ⟨hval, hlt⟩ => hlt.ne (hmn hval)
    rw [hlt hval, (compareReals_spec hsr hrs).2.2 hval]
    decide
  · intro h
    exact heq (congrArg Prod.fst (toLex.injective h))

/-- **Numbers** are compared as their keys are, if no real is equal to two integers. -/
theorem memCompare_number (h : OnLine D val V) (hV : ¬ Ambiguous D val V) (ha : a ∈ V)
    (hb : b ∈ V) (hra : a.rank = 1) (hrb : b.rank = 1) :
    (numberKey D val V a < numberKey D val V b →
      memCompare D pColl a b < 0 ∧ 0 < memCompare D pColl b a) ∧
    (numberKey D val V a = numberKey D val V b → memCompare D pColl a b = 0) := by
  rcases a.rank_spec.2.1 hra with ⟨i, rfl⟩ | ⟨r, rfl⟩ <;>
    rcases b.rank_spec.2.1 hrb with ⟨j, rfl⟩ | ⟨s, rfl⟩
  · constructor
    · intro hlt
      have hij := int_key h.mono ha hb hlt
      have hji : ¬ j < i := Int64.lt_asymm hij
      simp [memCompare, hij, hji]
    · intro heq
      obtain rfl : i = j := Int64.toInt_inj.mp (congrArg Prod.snd (toLex.injective heq))
      simp [memCompare]
  · exact real_key (h.lt_iff _ ha _ hb _ rfl _ rfl) (h.lt_iff _ hb _ ha _ rfl _ rfl) fun hval =>
      congrArg Int64.toInt (integerOf_eq hV ha hb hval).symm
  · exact real_key (h.lt_iff _ ha _ hb _ rfl _ rfl) (h.lt_iff _ hb _ ha _ rfl _ rfl) fun hval =>
      congrArg Int64.toInt (integerOf_eq hV hb ha hval.symm)
  · exact real_key (h.lt_iff _ ha _ hb _ rfl _ rfl) (h.lt_iff _ hb _ ha _ rfl _ rfl) fun hval =>
      congrArg (fun x => (integerOf D val V x).toInt) hval

/-- What the collation has to do. -/
def ProperTexts (pColl : Option Collation) (V : Set Mem) : Prop :=
  ∀ xCmp ∈ pColl, ProperOn (fun _ : Unit => xCmp) {z | .str z ∈ V}

/-- Texts are ordered by the collation, or like blobs. -/
theorem memCompare_properOn_texts (hcoll : ProperTexts pColl V) :
    ProperOn (fun _ : Unit => memCompare D pColl) {a | a ∈ V ∧ a.rank = 2} := by
  have hstr : ∀ a : Mem, a ∈ V ∧ a.rank = 2 → a = .str a.bytes := fun a ha =>
    a.rank_spec.2.2.1 ha.2
  cases pColl with
  | none =>
    apply (properOn_compareBlobs Set.univ).comap Mem.bytes fun _ _ => trivial
    intro a ha b hb _
    rw [hstr a ha, hstr b hb]
    rfl
  | some xCmp =>
    apply (hcoll xCmp rfl).comap Mem.bytes fun a ha => hstr a ha ▸ ha.1
    intro a ha b hb _
    rw [hstr a ha, hstr b hb]
    rfl

/-- Without ambiguous integers the values are ordered, one type after the other. -/
theorem memCompare_properOn (h : OnLine D val V) (hV : ¬ Ambiguous D val V)
    (hcoll : ProperTexts pColl V) : ProperOn (fun _ : Unit => memCompare D pColl) V := by
  apply ProperOn.of_classes Mem.rank
  · exact fun _ _ _ _ _ _ => rfl
  · exact fun a _ b _ _ hab => memCompare_rank_lt hab
  -- NULLs are all equal; numbers, texts and blobs each have an order of their own
  · intro n
    rcases (show n = 0 ∨ n = 1 ∨ n = 2 ∨ n = 3 ∨ 3 < n by omega) with rfl | rfl | rfl | rfl | hn
    · apply properOn_of_linearOrder fun _ => ()
      · exact fun _ _ _ _ _ _ => rfl
      · exact fun _ _ _ _ _ hlt => absurd hlt (lt_irrefl _)
      · rintro a ⟨-, hra⟩ b ⟨-, hrb⟩ - -
        rw [a.rank_spec.1 hra, b.rank_spec.1 hrb]
        rfl
    · apply properOn_of_linearOrder (numberKey D val V)
      · exact fun _ _ _ _ _ _ => rfl
      · exact fun a ha b hb _ => (memCompare_number h hV ha.1 hb.1 ha.2 hb.2).1
      · exact fun a ha b hb _ => (memCompare_number h hV ha.1 hb.1 ha.2 hb.2).2
    · exact memCompare_properOn_texts hcoll
    · apply (properOn_compareBlobs Set.univ).comap Mem.bytes fun _ _ => trivial
      rintro a ⟨-, hra⟩ b ⟨-, hrb⟩ -
      rw [a.rank_spec.2.2.2.1 hra, b.rank_spec.2.2.2.1 hrb]
      rfl
    · have hnone : ∀ a ∈ {a | a ∈ V ∧ a.rank = n}, False := fun a ha => by
        have := a.rank_spec.2.2.2.2
        have := ha.2
        omega
      exact ⟨fun a ha => (hnone a ha).elim, fun a ha => (hnone a ha).elim,
        fun a ha => (hnone a ha).elim, fun a ha => (hnone a ha).elim⟩

/-- **The comparison of values is an order** exactly if the collation is one on the texts and no
real is equal to two integers. -/
theorem memCompare_properOn_iff (h : OnLine D val V) :
    ProperOn (fun _ : Unit => memCompare D pColl) V ↔
      ProperTexts pColl V ∧ ¬ Ambiguous D val V := by
  constructor
  · intro hproper
    refine ⟨fun xCmp hx => ?_, ?_⟩
    · obtain rfl : pColl = some xCmp := hx
      exact hproper.comap Mem.str (fun z hz => hz) fun _ _ _ _ _ => rfl
    · rintro ⟨i, j, r, hi, hj, hr, hij, hir, hjr⟩
      -- the real is equal to both integers
      have hequal : ∀ k, .int k ∈ V → val (D.ofInt k) = val r →
          memCompare D pColl (.int k) (.real r) = 0 := fun k hk hkr =>
        (compareReals_spec (h.lt_iff _ hk _ hr _ rfl _ rfl)
          (h.lt_iff _ hr _ hk _ rfl _ rfl)).2.1 hkr
      have hri := (hproper.eq_zero_iff hi hr () ()).mp (hequal i hi hir)
      have hji := hproper.trans _ hj _ hr _ hi () () () (hequal j hj hjr).le hri.le
      have hji' : memCompare D pColl (.int j) (.int i) = 1 := by
        have hnot : ¬ j < i := Int64.lt_asymm hij
        simp [memCompare, hij, hnot]
      rw [hji'] at hji
      exact absurd hji (by decide)
  · rintro ⟨hcoll, hV⟩
    exact memCompare_properOn h hV hcoll

end Values

/-! ### Records -/

section Records

variable {D : Doubles} {k : KeyInfo} {fileFormat fileFormat' : ℕ} {fields fields' : List Mem}

/-- The comparison of the column `i`, in its direction. -/
def KeyInfo.fieldCompare (k : KeyInfo) (D : Doubles) (i : ℕ) (_ : Unit) (a b : Mem) : ℤ :=
  if k.descending i then -k.columnCompare D i a b else k.columnCompare D i a b

/-- Fields of one number are compared one after the other. -/
theorem compareFields_eq (hk : k.incrKey = false) {cells1 cells2 : List Cell}
    (hlen : cells1.length = cells2.length) (i : ℕ) :
    compareFields D k i cells1 cells2 =
      fieldwise (k.fieldCompare D) () i (cells1.map Cell.value) (cells2.map Cell.value) := by
  induction cells1 generalizing cells2 i with
  | nil =>
    obtain rfl : cells2 = [] := List.length_eq_zero_iff.mp hlen.symm
    simp [compareFields, hk, dataBytes, fieldwise]
  | cons c1 cells1 ih =>
    cases cells2 with
    | nil => cases hlen
    | cons c2 cells2 =>
      rw [compareFields, List.map_cons, List.map_cons, fieldwise_cons, ih (Nat.succ.inj hlen)]
      unfold KeyInfo.fieldCompare
      by_cases hd : k.descending i = true
      · simp only [hd, if_true, neg_eq_zero]
      · simp only [hd]
        rfl

/-- Two records with one number of fields. -/
theorem recordCompare_makeRecord (hk : k.incrKey = false) (hneg : k.Negatable)
    (hlen : fields.length = fields'.length) (hf : ∀ m ∈ fields, m.Sized) (hf' : ∀ m ∈ fields', m.Sized)
    (h : recordByte fileFormat fields none < 2 ^ 31)
    (h' : recordByte fileFormat' fields' none < 2 ^ 31) :
    recordCompare D k (.all (makeRecord fileFormat fields none))
        (.all (makeRecord fileFormat' fields' none)) =
      some (fieldwise (k.fieldCompare D) () 0 fields fields') := by
  have hcells : (recordCells fileFormat fields hf none).length =
      (recordCells fileFormat' fields' hf' none).length := by
    simp [recordCells, hlen]
  rw [makeRecord_eq hf, makeRecord_eq hf',
    recordCompare_all hneg ((length_record_recordCells hf h).trans_lt h)
      ((length_record_recordCells hf' h').trans_lt h'), compareFields_eq hk hcells,
    map_value_recordCells, map_value_recordCells, Option.toList_none, List.map_nil,
    List.append_nil, List.append_nil]

/-- The records of `n` columns, with the values of the column `i` in `V i`. -/
def Records (V : ℕ → Set Mem) (n : ℕ) : Set (List Byte) :=
  {z | ∃ fileFormat fields, fields ∈ Fields V 0 n ∧ (∀ m ∈ fields, m.Sized) ∧
    recordByte fileFormat fields none < 2 ^ 31 ∧ z = makeRecord fileFormat fields none}

/-- **Records are ordered** by `sqlite3VdbeRecordCompare`, whatever the directions of their
columns, if the values of each column are. -/
theorem recordCompare_properOn {κ : Type} [LinearOrder κ] {val : UInt64 → κ} {V : ℕ → Set Mem}
    (hk : k.incrKey = false) (hneg : k.Negatable) (hline : ∀ i, OnLine D val (V i))
    (hV : ∀ i, ¬ Ambiguous D val (V i))
    (hcoll : ∀ i xCmp, k.aColl[i]? = some (some xCmp) →
      ProperOn (fun _ : Unit => xCmp) {z | .str z ∈ V i}) (n : ℕ) :
    ∃ cmp : List Byte → List Byte → ℤ, ProperOn (fun _ : Unit => cmp) (Records V n) ∧
      ∀ z1 ∈ Records V n, ∀ z2 ∈ Records V n,
        recordCompare D k (.all z1) (.all z2) = some (cmp z1 z2) := by
  -- beyond `nField` there is no collation
  have hcolumn : ∀ i, ProperOn (fun _ : Unit => k.columnCompare D i) (V i) := fun i =>
    memCompare_properOn (hline i) (hV i) fun xCmp hx =>
      hcoll i xCmp (KeyInfo.getElem?_aColl hx)
  -- `DESC` turns the order round
  have hfield : ∀ i, ProperOn (k.fieldCompare D i) (V i) := fun i => by
    unfold KeyInfo.fieldCompare
    by_cases hd : k.descending i = true
    · simp only [hd, if_true]
      exact (hcolumn i).neg
    · simp only [hd]
      exact hcolumn i
  -- the fields of a record
  have hread : ∀ z ∈ Records V n, ∃ fields, fields ∈ Fields V 0 n ∧ ∃ fileFormat,
      (∀ m ∈ fields, m.Sized) ∧ recordByte fileFormat fields none < 2 ^ 31 ∧
        z = makeRecord fileFormat fields none := by
    rintro z ⟨fileFormat, fields, hmem, hf, hbyte, rfl⟩
    exact ⟨fields, hmem, fileFormat, hf, hbyte, rfl⟩
  choose! fieldsOf hmem fmt hf hbyte hz using hread
  refine ⟨fun z1 z2 => fieldwise (k.fieldCompare D) () 0 (fieldsOf z1) (fieldsOf z2),
    (ProperOn.fieldwise hfield 0 n).comap fieldsOf hmem fun _ _ _ _ _ => rfl, ?_⟩
  intro z1 h1 z2 h2
  have hlen : (fieldsOf z1).length = (fieldsOf z2).length := (hmem z1 h1).1.trans (hmem z2 h2).1.symm
  have hcompare := recordCompare_makeRecord (D := D) hk hneg hlen (hf z1 h1) (hf z2 h2)
    (hbyte z1 h1) (hbyte z2 h2)
  rwa [← hz z1 h1, ← hz z2 h2] at hcompare

end Records

/-! ### Numbers of type `double` -/

/-- The bits of the number nearest to `m`, and of the even one of two. The exponent counts the
first bit of the significand once more. -/
def nearest (m : ℕ) : ℕ :=
  if m = 0 then 0
  else
    let e := m.log2
    let q := m / 2 ^ (e - 52)
    let r := m % 2 ^ (e - 52)
    if e ≤ 52 then (e + 1022) * 2 ^ 52 + m * 2 ^ (52 - e)
    else if 2 ^ (e - 53) < r ∨ r = 2 ^ (e - 53) ∧ q % 2 = 1 then (e + 1022) * 2 ^ 52 + q + 1
    else (e + 1022) * 2 ^ 52 + q

/-- The place of a number in the order: `-0` is `0`. -/
def place (r : UInt64) : ℤ := if r.toNat < 2 ^ 63 then r.toNat else 2 ^ 63 - r.toNat

/-- No number. -/
def isNaN (r : UInt64) : Bool := 2047 * 2 ^ 52 < (place r).natAbs

/-- The numbers of the standard. -/
def ieee : Doubles where
  lt r s := !isNaN r && !isNaN s && decide (place r < place s)
  ofInt i :=
    if i.toInt < 0 then UInt64.ofNat (2 ^ 63 + nearest i.toInt.natAbs)
    else UInt64.ofNat (nearest i.toInt.natAbs)

/-- The significand has 53 bits, or has been rounded up to the next power of two. -/
theorem nearest_bounds {m : ℕ} (hm : m ≠ 0) :
    (m.log2 + 1023) * 2 ^ 52 ≤ nearest m ∧ nearest m ≤ (m.log2 + 1024) * 2 ^ 52 := by
  have hlo : 2 ^ m.log2 ≤ m := Nat.log2_self_le hm
  have hhi : m < 2 ^ (m.log2 + 1) := Nat.lt_log2_self
  unfold nearest
  rw [if_neg hm]
  dsimp only
  -- up to 53 bits the significand is shifted up, and from there on it is cut
  by_cases he : m.log2 ≤ 52
  · have hlo' : 2 ^ m.log2 * 2 ^ (52 - m.log2) ≤ m * 2 ^ (52 - m.log2) :=
      Nat.mul_le_mul_right _ hlo
    have hhi' : m * 2 ^ (52 - m.log2) ≤ 2 ^ (m.log2 + 1) * 2 ^ (52 - m.log2) :=
      Nat.mul_le_mul_right _ hhi.le
    rw [← pow_add, show m.log2 + (52 - m.log2) = 52 by omega] at hlo'
    rw [← pow_add, show m.log2 + 1 + (52 - m.log2) = 53 by omega] at hhi'
    rw [if_pos he]
    omega
  · have hlo' : 2 ^ 52 ≤ m / 2 ^ (m.log2 - 52) := by
      rw [Nat.le_div_iff_mul_le (by positivity), ← pow_add,
        show 52 + (m.log2 - 52) = m.log2 by omega]
      exact hlo
    have hhi' : m / 2 ^ (m.log2 - 52) < 2 ^ 53 := by
      rw [Nat.div_lt_iff_lt_mul (by positivity), ← pow_add,
        show 53 + (m.log2 - 52) = m.log2 + 1 by omega]
      exact hhi
    rw [if_neg he]
    split_ifs <;> omega

/-- Rounding keeps the order. -/
theorem nearest_mono {m n : ℕ} (h : m ≤ n) : nearest m ≤ nearest n := by
  rcases Nat.eq_zero_or_pos m with rfl | hm
  · exact Nat.zero_le _
  have hlog : m.log2 ≤ n.log2 := by
    rw [Nat.le_log2 (by omega)]
    exact (Nat.log2_self_le (by omega)).trans h
  -- the exponents decide, then what is left of the significands, then the rounding
  rcases hlog.lt_or_eq with hlt | heq
  · have hnext : m.log2 + 1024 ≤ n.log2 + 1023 := by omega
    have hm' := (nearest_bounds hm.ne').2
    have hn' := (nearest_bounds (hm.trans_le h).ne').1
    have hstep := Nat.mul_le_mul_right (2 ^ 52) hnext
    exact hm'.trans (hstep.trans hn')
  · unfold nearest
    rw [if_neg hm.ne', if_neg (hm.trans_le h).ne', ← heq]
    dsimp only
    by_cases he : m.log2 ≤ 52
    · rw [if_pos he, if_pos he]
      exact Nat.add_le_add_left (Nat.mul_le_mul_right _ h) _
    · rw [if_neg he, if_neg he]
      have hq : m / 2 ^ (m.log2 - 52) ≤ n / 2 ^ (m.log2 - 52) := Nat.div_le_div_right h
      rcases hq.lt_or_eq with hq | hq
      · split_ifs <;> omega
      · have hr : m % 2 ^ (m.log2 - 52) ≤ n % 2 ^ (m.log2 - 52) := by
          have hm' := Nat.div_add_mod m (2 ^ (m.log2 - 52))
          have hn' := Nat.div_add_mod n (2 ^ (m.log2 - 52))
          rw [hq] at hm'
          omega
        rw [hq]
        split_ifs <;> omega

/-- An integer of 64 bits is far from the largest number. -/
theorem nearest_lt {m : ℕ} (hm : m ≤ 2 ^ 63) : nearest m ≤ 1087 * 2 ^ 52 := by
  rcases Nat.eq_zero_or_pos m with rfl | hpos
  · exact Nat.zero_le _
  have hlog : m.log2 < 64 := by
    rw [Nat.log2_lt hpos.ne']
    exact hm.trans_lt (by decide)
  have hle : m.log2 + 1024 ≤ 1087 := by omega
  exact (nearest_bounds hpos.ne').2.trans (Nat.mul_le_mul_right (2 ^ 52) hle)

/-- The sign is the first bit. -/
theorem place_ofNat {n : ℕ} (hn : n < 2 ^ 63) :
    place (UInt64.ofNat n) = n ∧ place (UInt64.ofNat (2 ^ 63 + n)) = -n := by
  have hsize : UInt64.size = 2 ^ 64 := rfl
  have hpos : (UInt64.ofNat n).toNat = n := UInt64.toNat_ofNat_of_lt' (by omega)
  have hneg : (UInt64.ofNat (2 ^ 63 + n)).toNat = 2 ^ 63 + n := UInt64.toNat_ofNat_of_lt' (by omega)
  unfold place
  rw [hpos, hneg, if_pos hn, if_neg (by omega)]
  exact ⟨rfl, by omega⟩

/-- The place of an integer. -/
theorem place_ofInt (i : Int64) : place (ieee.ofInt i) =
    if i.toInt < 0 then -(nearest i.toInt.natAbs : ℤ) else nearest i.toInt.natAbs := by
  have hlo := i.le_toInt
  have hhi := i.toInt_lt
  have hn : nearest i.toInt.natAbs ≤ 1087 * 2 ^ 52 := nearest_lt (by omega)
  obtain ⟨hpos, hneg⟩ := place_ofNat (show nearest i.toInt.natAbs < 2 ^ 63 by omega)
  unfold ieee
  dsimp only
  split_ifs
  · exact hneg
  · exact hpos

/-- **The numbers of the standard** are such a line, without NaN. -/
theorem onLine_ieee {V : Set Mem} (hV : ∀ r, .real r ∈ V → isNaN r = false) :
    OnLine ieee place V := by
  -- the number of an integer is below infinity
  have hint : ∀ i : Int64, isNaN (ieee.ofInt i) = false := by
    intro i
    have hlo := i.le_toInt
    have hhi := i.toInt_lt
    have hn : nearest i.toInt.natAbs ≤ 1087 * 2 ^ 52 := nearest_lt (by omega)
    have hplace : (place (ieee.ofInt i)).natAbs = nearest i.toInt.natAbs := by
      rw [place_ofInt]
      split_ifs <;> simp
    unfold isNaN
    rw [hplace]
    exact decide_eq_false (by omega)
  have hnan : ∀ a ∈ V, ∀ r ∈ a.double ieee, isNaN r = false := by
    rintro (_ | i | r | _ | _) ha s hs <;> try cases hs
    · exact hint i
    · exact hV r ha
  constructor
  · intro a ha b hb r hr s hs
    simp [ieee, hnan a ha r hr, hnan b hb s hs]
  · intro i j _ _ hij
    rw [Int64.le_iff_toInt_le] at hij
    rw [place_ofInt, place_ofInt]
    -- of two negative numbers the one with the greater absolute value is less
    by_cases hi : i.toInt < 0 <;> by_cases hj : j.toInt < 0
    · have := nearest_mono (show j.toInt.natAbs ≤ i.toInt.natAbs by omega)
      rw [if_pos hi, if_pos hj]
      omega
    · rw [if_pos hi, if_neg hj]
      omega
    · omega
    · have := nearest_mono (show i.toInt.natAbs ≤ j.toInt.natAbs by omega)
      rw [if_neg hi, if_neg hj]
      omega

/-- Beyond `2 ^ 53` there are integers that are no numbers of type `double`. -/
theorem ambiguous_ieee : Ambiguous ieee place
    {.int 9007199254740992, .int 9007199254740993, .real 0x4340000000000000} := by
  refine ⟨9007199254740992, 9007199254740993, 0x4340000000000000, by simp, by simp, by simp,
    by decide, ?_, ?_⟩
  · rw [place_ofInt]
    decide +kernel
  · rw [place_ofInt]
    decide +kernel

/-- They are not ordered. -/
theorem memCompare_big_integers : ¬ ProperOn (fun _ : Unit => memCompare ieee none)
    {.int 9007199254740992, .int 9007199254740993, .real 0x4340000000000000} := by
  have hline : OnLine ieee place
      {.int 9007199254740992, .int 9007199254740993, .real 0x4340000000000000} :=
    onLine_ieee fun r hr => by
      obtain rfl : r = 0x4340000000000000 := by simpa using hr
      decide +kernel
  intro h
  exact ((memCompare_properOn_iff hline).mp h).2 ambiguous_ieee

/-- Two columns, of which the first is ordered by length and the second is descending. -/
theorem recordCompare_byLength :
    ∃ cmp : List Byte → List Byte → ℤ,
      ProperOn (fun _ : Unit => cmp)
        (Records (fun _ => {.null, .int 2, .real 0x3FF8000000000000, .str [98, 97]}) 2) ∧
      ∀ z1 ∈ Records (fun _ => {.null, .int 2, .real 0x3FF8000000000000, .str [98, 97]}) 2,
        ∀ z2 ∈ Records (fun _ => {.null, .int 2, .real 0x3FF8000000000000, .str [98, 97]}) 2,
          recordCompare ieee ⟨[some Sqlite.byLength, none], some [false, true], false⟩ (.all z1)
            (.all z2) = some (cmp z1 z2) := by
  have hneg : KeyInfo.Negatable ⟨[some Sqlite.byLength, none], some [false, true], false⟩ := by
    rintro (_ | _ | i) xCmp hi hx
    · cases hi
    · cases hx
    · cases hx
  refine recordCompare_properOn rfl hneg (fun _ => onLine_ieee fun r hr => ?_) (fun _ => ?_) ?_ 2
  · obtain rfl : r = 0x3FF8000000000000 := by simpa using hr
    decide +kernel
  · rintro ⟨i, j, r, hi, hj, -, hij, -, -⟩
    obtain rfl : i = 2 := by simpa using hi
    obtain rfl : j = 2 := by simpa using hj
    exact absurd hij (by decide)
  · rintro (_ | _ | i) xCmp hx
    · obtain rfl : Sqlite.byLength = xCmp := by simpa using hx
      exact Sqlite.properOn_byLength _
    · cases hx
    · cases hx

/-- The entry of the row 7 of a descending index is behind a key. -/
theorem idxKeyCompare_seven : idxKeyCompare ieee ⟨[none], some [true], false⟩
    (makeRecord 1 [.int 300] (some 7)) (.all (makeRecord 1 [.int 301] none)) = some 1 := by
  have hneg : KeyInfo.Negatable ⟨[none], some [true], false⟩ := by
    rintro (_ | i) xCmp hi hx
    · cases hx
    · cases hx
  exact (idxKeyCompare_makeRecord hneg (by simp [Mem.Sized, Mem.n]) (by simp [Mem.Sized, Mem.n])
    7 (by decide) (by decide)).trans (by decide)

end SqlCode.SqliteCore
