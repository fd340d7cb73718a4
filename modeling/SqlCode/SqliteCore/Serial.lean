import SqlCode.SqliteCore.Varint

/-!
# Serial types

`sqlite3VdbeSerialType`, `sqlite3VdbeSerialTypeLen`, `sqlite3VdbeSerialPut` and
`sqlite3VdbeSerialGet` of `vdbeaux.c`: how one value is stored.

An integer is stored in the least of six lengths that it is allowed, and `serialGet` extends
its sign again. That is so for every integer, because its absolute value is below half of
what the length can hold (`serialType_int`). From format 4 on the integers 0 and 1 have types of
their own and no bytes.
-/

namespace SqlCode.SqliteCore

open Text

/-! ### Values -/

/-- The value of a `Mem`, by its type flag. A real is given by the bits of the `double`. -/
inductive Mem
  | null
  | int (i : Int64)
  | real (r : UInt64)
  | str (z : List Byte)
  | blob (z : List Byte)
  deriving DecidableEq

/-- `pMem->n`, the number of bytes of a string or a blob. -/
def Mem.n : Mem → ℕ
  | str z | blob z => z.length
  | _ => 0

/-- `MAX_6BYTE`. -/
def MAX_6BYTE : UInt64 := ((0x00001000 : UInt64) <<< 32) - 1

/-- The type of an integer with the absolute value `u`. -/
def intType (u : UInt64) : UInt32 :=
  if u ≤ 127 then 1
  else if u ≤ 32767 then 2
  else if u ≤ 8388607 then 3
  else if u ≤ 2147483647 then 4
  else if u ≤ MAX_6BYTE then 5
  else 6

/-- `sqlite3VdbeSerialType`. -/
def serialType (fileFormat : ℕ) : Mem → UInt32
  | .null => 0
  | .int i =>
    if 4 ≤ fileFormat ∧ i &&& 1 = i then 8 + i.toUInt64.toUInt32
    else intType (if i < 0 then -i else i).toUInt64
  | .real _ => 7
  | .str z => UInt32.ofNat (z.length * 2 + 13)
  | .blob z => UInt32.ofNat (z.length * 2 + 12)

/-- `aSize`. -/
def aSize : List ℕ := [0, 1, 2, 3, 4, 6, 8, 8, 0, 0, 0, 0]

/-- `sqlite3VdbeSerialTypeLen`. -/
def serialTypeLen (serialType : UInt32) : ℕ :=
  if 12 ≤ serialType then ((serialType - 12) / 2).toNat else aSize.getD serialType.toNat 0

/-- `while( i-- ){ buf[i] = (v&0xFF); v >>= 8; }`. -/
def putBigEndian : ℕ → UInt64 → List Byte
  | 0, _ => []
  | i + 1, v => putBigEndian i (v >>> 8) ++ [v.toUInt8]

/-- `sqlite3VdbeSerialPut`: the bytes that it writes. -/
def serialPut (fileFormat : ℕ) (m : Mem) : List Byte :=
  let type := serialType fileFormat m
  match m with
  | .int i =>
    -- nothing for the constants 0 and 1
    if type ≤ 7 then putBigEndian (serialTypeLen type) i.toUInt64 else []
  | .real r => putBigEndian (serialTypeLen type) r
  | .str z | .blob z => z.take (serialTypeLen type)
  | .null => []

/-- `(signed char)b`. -/
def signedChar (b : Byte) : Int32 := b.toInt8.toInt32

/-- `b` as an `int`. -/
def unsignedChar (b : Byte) : Int32 := b.toUInt32.toInt32

/-- `(b0<<24) | (b1<<16) | (b2<<8) | b3`. -/
def word (b0 b1 b2 b3 : Byte) : Int32 :=
  unsignedChar b0 <<< 24 ||| unsignedChar b1 <<< 16 ||| unsignedChar b2 <<< 8 ||| unsignedChar b3

/-- `sqlite3VdbeSerialGet`: the value and the number of its bytes, unless they go beyond
what is at `buf`. -/
def serialGet (buf : List Byte) (serialType : UInt32) : Option (Mem × ℕ) :=
  match serialType.toNat with
  | 0 | 10 | 11 => some (.null, 0)
  | 1 => do
    let b0 ← buf[0]?
    pure (.int (signedChar b0).toInt64, 1)
  | 2 => do
    let b0 ← buf[0]?
    let b1 ← buf[1]?
    pure (.int (signedChar b0 <<< 8 ||| unsignedChar b1).toInt64, 2)
  | 3 => do
    let b0 ← buf[0]?
    let b1 ← buf[1]?
    let b2 ← buf[2]?
    pure (.int (signedChar b0 <<< 16 ||| unsignedChar b1 <<< 8 ||| unsignedChar b2).toInt64, 3)
  | 4 => do
    let b0 ← buf[0]?
    let b1 ← buf[1]?
    let b2 ← buf[2]?
    let b3 ← buf[3]?
    pure (.int (word b0 b1 b2 b3).toInt64, 4)
  | 5 => do
    let b0 ← buf[0]?
    let b1 ← buf[1]?
    let x := (signedChar b0 <<< 8 ||| unsignedChar b1).toInt64.toUInt64
    let b2 ← buf[2]?
    let b3 ← buf[3]?
    let b4 ← buf[4]?
    let b5 ← buf[5]?
    let y := (word b2 b3 b4 b5).toUInt32
    pure (.int (x <<< 32 ||| y.toUInt64).toInt64, 6)
  | 6 | 7 => do
    let b0 ← buf[0]?
    let b1 ← buf[1]?
    let b2 ← buf[2]?
    let b3 ← buf[3]?
    let x := (word b0 b1 b2 b3).toInt64.toUInt64
    let b4 ← buf[4]?
    let b5 ← buf[5]?
    let b6 ← buf[6]?
    let b7 ← buf[7]?
    let y := (word b4 b5 b6 b7).toUInt32
    let x := x <<< 32 ||| y.toUInt64
    pure (if serialType = 6 then .int x.toInt64 else .real x, 8)
  | 8 => some (.int 0, 0)
  | 9 => some (.int 1, 0)
  | _ =>
    let len := ((serialType - 12) / 2).toNat
    if len ≤ buf.length then
      some (if serialType &&& 1 ≠ 0 then .str (buf.take len) else .blob (buf.take len), len)
    else none

/-! ### Machine integers as natural numbers -/

/-- The natural number with the bits of `x`. -/
abbrev bits32 (x : Int32) : ℕ := x.toUInt32.toNat

/-- The natural number with the bits of `x`. -/
abbrev bits64 (x : Int64) : ℕ := x.toUInt64.toNat

theorem or_eq_add {a b k : ℕ} (hb : b < 2 ^ k) (ha : 2 ^ k ∣ a) : a ||| b = a + b := by
  obtain ⟨q, rfl⟩ := ha
  exact (Nat.two_pow_add_eq_or_of_lt hb q).symm

theorem bits32_or (x y : Int32) : bits32 (x ||| y) = bits32 x ||| bits32 y := rfl

theorem bits32_shl_eight (x : Int32) : bits32 (x <<< 8) = bits32 x * 2 ^ 8 % 2 ^ 32 := by
  rw [← Nat.shiftLeft_eq]
  rfl

theorem bits32_shl_sixteen (x : Int32) : bits32 (x <<< 16) = bits32 x * 2 ^ 16 % 2 ^ 32 := by
  rw [← Nat.shiftLeft_eq]
  rfl

theorem bits32_shl_twentyFour (x : Int32) : bits32 (x <<< 24) = bits32 x * 2 ^ 24 % 2 ^ 32 := by
  rw [← Nat.shiftLeft_eq]
  rfl

theorem bits32_unsignedChar (b : Byte) : bits32 (unsignedChar b) = b.toNat := rfl

/-- Sign extension, as natural numbers. -/
theorem toNat_signExtend_eq {w v : ℕ} (hw : w ≤ v) (x : BitVec w) : (x.signExtend v).toNat =
    if x.toNat < 2 ^ (w - 1) then x.toNat else x.toNat + (2 ^ v - 2 ^ w) := by
  have hx : x.toNat < 2 ^ v := x.isLt.trans_le (Nat.pow_le_pow_right (by decide) hw)
  rw [BitVec.toNat_signExtend, BitVec.toNat_setWidth, Nat.mod_eq_of_lt hx, BitVec.msb_eq_decide]
  by_cases h : x.toNat < 2 ^ (w - 1)
  · simp [h]
  · simp [h, not_lt.mp h]

theorem bits32_signedChar (b : Byte) :
    bits32 (signedChar b) = if b.toNat < 2 ^ 7 then b.toNat else b.toNat + (2 ^ 32 - 2 ^ 8) :=
  toNat_signExtend_eq (by decide) b.toBitVec

theorem bits64_toInt64 (x : Int32) : bits64 x.toInt64 =
    if bits32 x < 2 ^ 31 then bits32 x else bits32 x + (2 ^ 64 - 2 ^ 32) :=
  toNat_signExtend_eq (by decide) x.toBitVec

theorem bits32_word (b0 b1 b2 b3 : Byte) : bits32 (word b0 b1 b2 b3) =
    b0.toNat * 2 ^ 24 + b1.toNat * 2 ^ 16 + b2.toNat * 2 ^ 8 + b3.toNat := by
  have h0 := b0.toNat_lt
  have h1 := b1.toNat_lt
  have h2 := b2.toNat_lt
  have h3 := b3.toNat_lt
  unfold word
  simp only [bits32_or, bits32_shl_eight, bits32_shl_sixteen, bits32_shl_twentyFour,
    bits32_unsignedChar]
  rw [Nat.mod_eq_of_lt (by omega), Nat.mod_eq_of_lt (by omega), Nat.mod_eq_of_lt (by omega),
    or_eq_add (b := b1.toNat * 2 ^ 16) (k := 24) (by omega) (by omega),
    or_eq_add (b := b2.toNat * 2 ^ 8) (k := 16) (by omega) (by omega),
    or_eq_add (k := 8) (by omega) (by omega)]

/-- A sign and one more byte. -/
theorem bits32_signedChar_or (b0 b1 : Byte) :
    bits32 (signedChar b0 <<< 8 ||| unsignedChar b1) =
      bits32 (signedChar b0) * 2 ^ 8 % 2 ^ 32 + b1.toNat := by
  have h1 := b1.toNat_lt
  rw [bits32_or, bits32_shl_eight, bits32_unsignedChar, or_eq_add (k := 8) (by omega) (by omega)]

/-- A sign and two more bytes. -/
theorem bits32_signedChar_or_or (b0 b1 b2 : Byte) :
    bits32 (signedChar b0 <<< 16 ||| unsignedChar b1 <<< 8 ||| unsignedChar b2) =
      bits32 (signedChar b0) * 2 ^ 16 % 2 ^ 32 + b1.toNat * 2 ^ 8 + b2.toNat := by
  have h1 := b1.toNat_lt
  have h2 := b2.toNat_lt
  rw [bits32_or, bits32_or, bits32_shl_eight, bits32_shl_sixteen, bits32_unsignedChar,
    bits32_unsignedChar, Nat.mod_eq_of_lt (a := b1.toNat * 2 ^ 8) (by omega),
    or_eq_add (b := b1.toNat * 2 ^ 8) (k := 16) (by omega) (by omega),
    or_eq_add (k := 8) (by omega) (by omega)]

/-- Two words of 32 bits. -/
theorem toNat_shl_or (x : UInt64) (y : UInt32) : (x <<< 32 ||| y.toUInt64).toNat =
    x.toNat % 2 ^ 32 * 2 ^ 32 + y.toNat := by
  have hy := y.toNat_lt
  have hx : (x <<< 32).toNat = x.toNat % 2 ^ 32 * 2 ^ 32 := by
    rw [UInt64.toNat_shiftLeft]
    change x.toNat <<< 32 % 2 ^ 64 = _
    rw [Nat.shiftLeft_eq]
    omega
  rw [UInt64.toNat_or, hx, UInt32.toNat_toUInt64, or_eq_add (k := 32) hy (by omega)]

/-! ### Integers -/

theorem bits64_injective : Function.Injective bits64 := by
  rintro ⟨x⟩ ⟨y⟩ h
  exact congrArg Int64.ofUInt64 (UInt64.toNat_inj.mp h)

@[simp] theorem length_putBigEndian (i : ℕ) (v : UInt64) : (putBigEndian i v).length = i := by
  induction i generalizing v with
  | zero => rfl
  | succ i ih => rw [putBigEndian, List.length_append, ih, List.length_singleton]

theorem toNat_shiftRight_eight (v : UInt64) : (v >>> 8).toNat = v.toNat / 2 ^ 8 := by
  rw [UInt64.toNat_shiftRight]
  exact Nat.shiftRight_eq_div_pow _ _

/-- The byte with `e` bits behind it. -/
theorem getElem?_putBigEndian (p : List Byte) {i j e : ℕ} (h : e + 8 * (j + 1) = 8 * i)
    (v : UInt64) : (putBigEndian i v ++ p)[j]? = some (UInt8.ofNat (v.toNat / 2 ^ e)) := by
  induction i generalizing v p e with
  | zero => omega
  | succ i ih =>
    rw [putBigEndian, List.append_assoc]
    by_cases hlast : j = i
    · obtain rfl : e = 0 := by omega
      rw [hlast, List.getElem?_append_right (by simp)]
      simp
    · rw [ih _ (show e - 8 + 8 * (j + 1) = 8 * i by omega), toNat_shiftRight_eight,
        Nat.div_div_eq_div_mul, ← pow_add]
      congr 4
      omega

/-- The absolute value that the length is chosen by. -/
theorem toNat_abs (i : Int64) : (if i < 0 then -i else i).toUInt64.toNat =
    if bits64 i < 2 ^ 63 then bits64 i else 2 ^ 64 - bits64 i := by
  have hi : bits64 i < 2 ^ 64 := i.toUInt64.toNat_lt
  have hval : i.toInt = if 2 * bits64 i < 2 ^ 64 then (bits64 i : ℤ) else bits64 i - 2 ^ 64 :=
    BitVec.toInt_eq_toNat_cond i.toBitVec
  have hneg : bits64 (-i) = (2 ^ 64 - bits64 i) % 2 ^ 64 := BitVec.toNat_neg i.toBitVec
  by_cases h : bits64 i < 2 ^ 63
  · rw [if_pos (show 2 * bits64 i < 2 ^ 64 by omega)] at hval
    have hlt : ¬ i < 0 := by
      rw [Int64.lt_iff_toInt_lt, hval, Int64.toInt_zero]
      omega
    rw [if_neg hlt, if_pos h]
  · rw [if_neg (show ¬ 2 * bits64 i < 2 ^ 64 by omega)] at hval
    have hlt : i < 0 := by
      rw [Int64.lt_iff_toInt_lt, hval, Int64.toInt_zero]
      omega
    rw [if_pos hlt, if_neg h]
    exact hneg.trans (Nat.mod_eq_of_lt (by omega))

/-- The integer is not lost when it is cut to `k` bytes. -/
def Fits (k : ℕ) (i : Int64) : Prop :=
  bits64 i < 2 ^ (8 * k - 1) ∨ 2 ^ 64 - 2 ^ (8 * k - 1) ≤ bits64 i

/-- The constants 0 and 1. -/
theorem and_one_eq_self_iff (i : Int64) : i &&& 1 = i ↔ bits64 i ≤ 1 := by
  have hand : bits64 (i &&& 1) = bits64 i % 2 := Nat.and_two_pow_sub_one_eq_mod (bits64 i) 1
  rw [← bits64_injective.eq_iff, hand]
  omega

/-- **The length is enough** for an absolute value and either sign. -/
theorem intType_cases (u : UInt64) : ∃ t k, intType u = t ∧ serialTypeLen t = k ∧
    ((t = 1 ∧ k = 1) ∨ (t = 2 ∧ k = 2) ∨ (t = 3 ∧ k = 3) ∨ (t = 4 ∧ k = 4) ∨ (t = 5 ∧ k = 6) ∨
      (t = 6 ∧ k = 8)) ∧ (k < 8 → u.toNat < 2 ^ (8 * k - 1)) := by
  unfold intType MAX_6BYTE
  simp only [UInt64.le_iff_toNat_le]
  split_ifs with h1 h2 h3 h4 h5
  · exact ⟨1, 1, rfl, rfl, by decide, fun _ => Nat.lt_succ_of_le h1⟩
  · exact ⟨2, 2, rfl, rfl, by decide, fun _ => Nat.lt_succ_of_le h2⟩
  · exact ⟨3, 3, rfl, rfl, by decide, fun _ => Nat.lt_succ_of_le h3⟩
  · exact ⟨4, 4, rfl, rfl, by decide, fun _ => Nat.lt_succ_of_le h4⟩
  · exact ⟨5, 6, rfl, rfl, by decide, fun _ => h5.trans_lt (by decide)⟩
  · exact ⟨6, 8, rfl, rfl, by decide, fun h => absurd h (by decide)⟩

theorem fits_of_abs {i : Int64} {k : ℕ} (hk : 0 < k) (hk8 : k ≤ 8)
    (h : k < 8 → (if i < 0 then -i else i).toUInt64.toNat < 2 ^ (8 * k - 1)) : Fits k i := by
  have hi : bits64 i < 2 ^ 64 := i.toUInt64.toNat_lt
  unfold Fits
  rcases Nat.lt_or_eq_of_le hk8 with hlt | rfl
  · have habs := h hlt
    rw [toNat_abs] at habs
    split_ifs at habs
    · exact .inl habs
    · exact .inr (by omega)
  · omega

theorem toNat_byte (i : Int64) (e : ℕ) :
    (UInt8.ofNat (i.toUInt64.toNat / 2 ^ e)).toNat = bits64 i / 2 ^ e % 2 ^ 8 := UInt8.toNat_ofNat'

/-- A word is made of the four bytes at its place. -/
theorem bits32_word_bytes (v : UInt64) (e : ℕ) :
    bits32 (word (UInt8.ofNat (v.toNat / 2 ^ (e + 24))) (UInt8.ofNat (v.toNat / 2 ^ (e + 16)))
      (UInt8.ofNat (v.toNat / 2 ^ (e + 8))) (UInt8.ofNat (v.toNat / 2 ^ e))) =
      v.toNat / 2 ^ e % 2 ^ 32 := by
  have hdiv : ∀ c, v.toNat / 2 ^ (e + c) = v.toNat / 2 ^ e / 2 ^ c := by
    intro c
    rw [pow_add, Nat.div_div_eq_div_mul]
  rw [bits32_word, hdiv, hdiv, hdiv]
  simp only [UInt8.toNat_ofNat']
  omega

/-- A word in front of another one: its sign is shifted out. -/
theorem bits64_word_or (x y : Int32) :
    (x.toInt64.toUInt64 <<< 32 ||| y.toUInt32.toUInt64).toNat = bits32 x * 2 ^ 32 + bits32 y := by
  have hx : bits32 x < 2 ^ 32 := x.toUInt32.toNat_lt
  have hlow : bits64 x.toInt64 % 2 ^ 32 = bits32 x := by
    rw [bits64_toInt64]
    split_ifs <;> omega
  rw [toNat_shl_or]
  exact congrArg (· * 2 ^ 32 + bits32 y) hlow

/-- Eight bytes are the word that they were. -/
theorem word_or_word (v : UInt64) :
    (word (UInt8.ofNat (v.toNat / 2 ^ 56)) (UInt8.ofNat (v.toNat / 2 ^ 48))
        (UInt8.ofNat (v.toNat / 2 ^ 40)) (UInt8.ofNat (v.toNat / 2 ^ 32))).toInt64.toUInt64 <<< 32 |||
      (word (UInt8.ofNat (v.toNat / 2 ^ 24)) (UInt8.ofNat (v.toNat / 2 ^ 16))
        (UInt8.ofNat (v.toNat / 2 ^ 8)) (UInt8.ofNat (v.toNat / 2 ^ 0))).toUInt32.toUInt64 = v := by
  have hv := v.toNat_lt
  rw [← UInt64.toNat_inj, bits64_word_or]
  have hhigh := bits32_word_bytes v 32
  have hlow := bits32_word_bytes v 0
  rw [zero_add, zero_add, zero_add] at hlow
  rw [hlow, hhigh]
  omega

theorem some_int_eq {x i : Int64} {k : ℕ} (h : bits64 x = bits64 i) :
    some (Mem.int x, k) = some (Mem.int i, k) := by
  rw [bits64_injective h]

/-- **Integers are read back** from each of the lengths that they fit. -/
theorem serialGet_putBigEndian (p : List Byte) {i : Int64} {t : UInt32} {k : ℕ}
    (hcase : (t = 1 ∧ k = 1) ∨ (t = 2 ∧ k = 2) ∨ (t = 3 ∧ k = 3) ∨ (t = 4 ∧ k = 4) ∨
      (t = 5 ∧ k = 6) ∨ (t = 6 ∧ k = 8)) (hfits : Fits k i) :
    serialGet (putBigEndian k i.toUInt64 ++ p) t = some (.int i, k) := by
  have hi : bits64 i < 2 ^ 64 := i.toUInt64.toNat_lt
  have hbyte := fun (k j e : ℕ) (h : e + 8 * (j + 1) = 8 * k) =>
    getElem?_putBigEndian p h i.toUInt64
  unfold Fits at hfits
  rcases hcase with ⟨rfl, rfl⟩ | ⟨rfl, rfl⟩ | ⟨rfl, rfl⟩ | ⟨rfl, rfl⟩ | ⟨rfl, rfl⟩ | ⟨rfl, rfl⟩
  -- up to four bytes: the first has the sign, and the bits are compared with those of `i`
  · unfold serialGet
    rw [hbyte 1 0 0 rfl]
    refine some_int_eq ?_
    rw [bits64_toInt64, bits32_signedChar, toNat_byte]
    split_ifs <;> omega
  · unfold serialGet
    rw [hbyte 2 0 8 rfl, hbyte 2 1 0 rfl]
    refine some_int_eq ?_
    rw [bits64_toInt64, bits32_signedChar_or, bits32_signedChar, toNat_byte, toNat_byte]
    split_ifs <;> omega
  · unfold serialGet
    rw [hbyte 3 0 16 rfl, hbyte 3 1 8 rfl, hbyte 3 2 0 rfl]
    refine some_int_eq ?_
    rw [bits64_toInt64, bits32_signedChar_or_or, bits32_signedChar, toNat_byte, toNat_byte,
      toNat_byte]
    split_ifs <;> omega
  · unfold serialGet
    rw [hbyte 4 0 24 rfl, hbyte 4 1 16 rfl, hbyte 4 2 8 rfl, hbyte 4 3 0 rfl]
    refine some_int_eq ?_
    rw [bits64_toInt64, bits32_word, toNat_byte, toNat_byte, toNat_byte, toNat_byte]
    split_ifs <;> omega
  -- six bytes: two for the upper word, of which the first has the sign, and four for the lower
  · unfold serialGet
    rw [hbyte 6 0 40 rfl, hbyte 6 1 32 rfl, hbyte 6 2 24 rfl, hbyte 6 3 16 rfl, hbyte 6 4 8 rfl,
      hbyte 6 5 0 rfl]
    refine some_int_eq ((bits64_word_or _ _).trans ?_)
    have hlow := bits32_word_bytes i.toUInt64 0
    rw [zero_add, zero_add, zero_add] at hlow
    rw [hlow, bits32_signedChar_or, bits32_signedChar, toNat_byte, toNat_byte]
    change _ + bits64 i / 2 ^ 0 % 2 ^ 32 = _
    split_ifs <;> omega
  · unfold serialGet
    rw [hbyte 8 0 56 rfl, hbyte 8 1 48 rfl, hbyte 8 2 40 rfl, hbyte 8 3 32 rfl, hbyte 8 4 24 rfl,
      hbyte 8 5 16 rfl, hbyte 8 6 8 rfl, hbyte 8 7 0 rfl]
    exact congrArg (fun v : UInt64 => some (Mem.int v.toInt64, 8)) (word_or_word i.toUInt64)

/-! ### Values -/

/-- A text or a blob whose length and type fit an `int`. -/
def Mem.Sized (m : Mem) : Prop := m.n * 2 + 13 < 2 ^ 31

/-- The length for the type of a string or a blob. -/
theorem toNat_length_ofNat {N : ℕ} (h12 : 12 ≤ N) (h : N < 2 ^ 32) :
    ((UInt32.ofNat N - 12) / 2).toNat = (N - 12) / 2 := by
  have h12' : (12 : UInt32) ≤ UInt32.ofNat N := by
    rw [UInt32.le_iff_toNat_le, UInt32.toNat_ofNat_of_lt' h]
    exact h12
  rw [UInt32.toNat_div, UInt32.toNat_sub_of_le _ _ h12', UInt32.toNat_ofNat_of_lt' h]
  rfl

theorem serialTypeLen_ofNat {N : ℕ} (h12 : 12 ≤ N) (h : N < 2 ^ 32) :
    serialTypeLen (UInt32.ofNat N) = (N - 12) / 2 := by
  have h12' : (12 : UInt32) ≤ UInt32.ofNat N := by
    rw [UInt32.le_iff_toNat_le, UInt32.toNat_ofNat_of_lt' h]
    exact h12
  unfold serialTypeLen
  rw [if_pos h12', toNat_length_ofNat h12 h]

/-- The last case of `serialGet`. -/
theorem serialGet_ofNat {N : ℕ} (h12 : 12 ≤ N) (h : N < 2 ^ 32) (z p : List Byte)
    (hz : z.length = (N - 12) / 2) : serialGet (z ++ p) (UInt32.ofNat N) =
      some (if N % 2 = 1 then .str z else .blob z, z.length) := by
  have hand : (UInt32.ofNat N &&& 1).toNat = N % 2 := by
    rw [UInt32.toNat_and, UInt32.toNat_ofNat_of_lt' h]
    exact Nat.and_two_pow_sub_one_eq_mod N 1
  have hodd : UInt32.ofNat N &&& 1 ≠ 0 ↔ N % 2 = 1 := by
    rw [Ne, ← UInt32.toNat_inj, hand]
    change ¬ N % 2 = 0 ↔ _
    omega
  have hlen : z.length ≤ (z ++ p).length := by simp
  unfold serialGet
  rw [UInt32.toNat_ofNat_of_lt' h, toNat_length_ofNat h12 h, ← hz]
  split
  all_goals try omega
  rw [if_pos hlen, List.take_left]
  simp only [hodd]

/-- The type of an integer that is not stored in its type. -/
theorem serialType_int {fileFormat : ℕ} {i : Int64} (h : ¬ (4 ≤ fileFormat ∧ i &&& 1 = i)) :
    serialType fileFormat (.int i) = intType (if i < 0 then -i else i).toUInt64 := if_neg h

/-- An integer is read back. -/
theorem serialGet_int (fileFormat : ℕ) (i : Int64) (p : List Byte) :
    serialGet (serialPut fileFormat (.int i) ++ p) (serialType fileFormat (.int i)) =
      some (.int i, (serialPut fileFormat (.int i)).length) := by
  unfold serialPut
  by_cases hc : 4 ≤ fileFormat ∧ i &&& 1 = i
  -- from format 4 on, 0 and 1 are stored in the type
  · have htype : serialType fileFormat (.int i) = 8 + i.toUInt64.toUInt32 := if_pos hc
    have hbits := (and_one_eq_self_iff i).mp hc.2
    rw [htype]
    rcases Nat.le_one_iff_eq_zero_or_eq_one.mp hbits with h0 | h1
    · obtain rfl : i = 0 := bits64_injective h0
      rfl
    · obtain rfl : i = 1 := bits64_injective h1
      rfl
  · have htype := serialType_int hc
    obtain ⟨t, k, ht, hk, hcase, habs⟩ := intType_cases (if i < 0 then -i else i).toUInt64
    have hsmall : t ≤ 7 ∧ 0 < k ∧ k ≤ 8 := by
      rcases hcase with ⟨rfl, rfl⟩ | ⟨rfl, rfl⟩ | ⟨rfl, rfl⟩ | ⟨rfl, rfl⟩ | ⟨rfl, rfl⟩ | ⟨rfl, rfl⟩ <;>
        decide
    rw [htype, ht]
    simp only [hsmall.1, if_true, hk, length_putBigEndian]
    exact serialGet_putBigEndian p hcase (fits_of_abs hsmall.2.1 hsmall.2.2 habs)

/-- **One value is read back**, in every format and whatever follows it. -/
theorem serialGet_serialPut (fileFormat : ℕ) {m : Mem} (hm : m.Sized) (p : List Byte) :
    serialGet (serialPut fileFormat m ++ p) (serialType fileFormat m) =
      some (m, (serialPut fileFormat m).length) := by
  unfold Mem.Sized at hm
  cases m with
  | null => rfl
  | int i => exact serialGet_int fileFormat i p
  -- the bytes of a real are read as two words
  | real r =>
    have hbyte := fun (j e : ℕ) (h : e + 8 * (j + 1) = 8 * 8) => getElem?_putBigEndian p h r
    change serialGet (putBigEndian 8 r ++ p) 7 = some (.real r, (putBigEndian 8 r).length)
    unfold serialGet
    rw [hbyte 0 56 rfl, hbyte 1 48 rfl, hbyte 2 40 rfl, hbyte 3 32 rfl, hbyte 4 24 rfl,
      hbyte 5 16 rfl, hbyte 6 8 rfl, hbyte 7 0 rfl, length_putBigEndian]
    exact congrArg (fun v => some (Mem.real v, 8)) (word_or_word r)
  -- the type of a text is odd and that of a blob even, and both give the length
  | str z =>
    change z.length * 2 + 13 < 2 ^ 31 at hm
    have hput : serialPut fileFormat (.str z) = z := by
      change z.take (serialTypeLen (UInt32.ofNat (z.length * 2 + 13))) = z
      rw [serialTypeLen_ofNat (by omega) (by omega), List.take_of_length_le (by omega)]
    rw [hput]
    exact (serialGet_ofNat (by omega) (by omega) z p (by omega)).trans
      (by rw [if_pos (by omega)])
  | blob z =>
    change z.length * 2 + 13 < 2 ^ 31 at hm
    have hput : serialPut fileFormat (.blob z) = z := by
      change z.take (serialTypeLen (UInt32.ofNat (z.length * 2 + 12))) = z
      rw [serialTypeLen_ofNat (by omega) (by omega), List.take_of_length_le (by omega)]
    rw [hput]
    exact (serialGet_ofNat (by omega) (by omega) z p (by omega)).trans
      (by rw [if_neg (by omega)])

/-- If there is a value, it takes `k` bytes, and as a string it has no more than these. -/
def HasLength (k : ℕ) (o : Option (Mem × ℕ)) : Prop := ∀ r, o = some r → r.2 = k ∧ r.1.n ≤ k

theorem HasLength.some {m : Mem} {k : ℕ} (h : m.n ≤ k) : HasLength k (some (m, k)) := by
  rintro _ ⟨⟩
  exact ⟨rfl, h⟩

theorem HasLength.bind {α : Type} {o : Option α} {f : α → Option (Mem × ℕ)} {k : ℕ}
    (h : ∀ a, HasLength k (f a)) : HasLength k (o.bind f) := by
  cases o with
  | none => exact fun r h => nomatch h
  | some a => exact h a

/-- **What is read is as long as its type says**, for every type. -/
theorem serialGet_hasLength (buf : List Byte) (t : UInt32) :
    HasLength (serialTypeLen t) (serialGet buf t) := by
  have htype : ∀ c : UInt32, t.toNat = c.toNat → t = c := fun c h => UInt32.toNat_inj.mp h
  unfold serialGet
  split <;> rename_i h
  -- `NULL`, and the two types that are not in use
  · obtain rfl := htype 0 h
    exact .some (Nat.zero_le _)
  · obtain rfl := htype 10 h
    exact .some (Nat.zero_le _)
  · obtain rfl := htype 11 h
    exact .some (Nat.zero_le _)
  -- integers and reals: one `bind` for each byte that is read
  · obtain rfl := htype 1 h
    exact .bind fun _ => .some (Nat.zero_le _)
  · obtain rfl := htype 2 h
    exact .bind fun _ => .bind fun _ => .some (Nat.zero_le _)
  · obtain rfl := htype 3 h
    exact .bind fun _ => .bind fun _ => .bind fun _ => .some (Nat.zero_le _)
  · obtain rfl := htype 4 h
    exact .bind fun _ => .bind fun _ => .bind fun _ => .bind fun _ => .some (Nat.zero_le _)
  · obtain rfl := htype 5 h
    exact .bind fun _ => .bind fun _ => .bind fun _ => .bind fun _ => .bind fun _ =>
      .bind fun _ => .some (Nat.zero_le _)
  · obtain rfl := htype 6 h
    exact .bind fun _ => .bind fun _ => .bind fun _ => .bind fun _ => .bind fun _ =>
      .bind fun _ => .bind fun _ => .bind fun _ => .some (Nat.zero_le _)
  · obtain rfl := htype 7 h
    exact .bind fun _ => .bind fun _ => .bind fun _ => .bind fun _ => .bind fun _ =>
      .bind fun _ => .bind fun _ => .bind fun _ => .some (Nat.zero_le _)
  -- the constants 0 and 1
  · obtain rfl := htype 8 h
    exact .some (Nat.zero_le _)
  · obtain rfl := htype 9 h
    exact .some (Nat.zero_le _)
  -- every other type is that of a text or a blob, and says how long it is
  · rename_i h0 h10 h11 h1 h2 h3 h4 h5 h6 h7 h8
    have hne : t.toNat ≠ 0 ∧ t.toNat ≠ 10 ∧ t.toNat ≠ 11 ∧ t.toNat ≠ 1 ∧ t.toNat ≠ 2 ∧ t.toNat ≠ 3 ∧
        t.toNat ≠ 4 ∧ t.toNat ≠ 5 ∧ t.toNat ≠ 6 ∧ t.toNat ≠ 7 ∧ t.toNat ≠ 8 ∧ t.toNat ≠ 9 :=
      ⟨h0, h10, h11, h1, h2, h3, h4, h5, h6, h7, h8, h⟩
    have h12 : (12 : UInt32) ≤ t := by
      rw [UInt32.le_iff_toNat_le]
      change 12 ≤ t.toNat
      omega
    unfold serialTypeLen
    rw [if_pos h12]
    dsimp only
    split_ifs
    · exact .some (List.length_take_le _ _)
    · exact .some (List.length_take_le _ _)
    · exact fun r h => nomatch h

/-- **The length written** is that of the type. -/
theorem length_serialPut (fileFormat : ℕ) {m : Mem} (hm : m.Sized) :
    (serialPut fileFormat m).length = serialTypeLen (serialType fileFormat m) := by
  have hget := serialGet_serialPut fileFormat hm []
  exact (serialGet_hasLength _ _ _ hget).1

end SqlCode.SqliteCore
