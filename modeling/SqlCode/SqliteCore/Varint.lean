import SqlCode.Text.CString

/-!
# Variable-length integers

`sqlite3PutVarint`, `sqlite3GetVarint`, `sqlite3GetVarint32` and `sqlite3VarintLen` of `util.c`, and
the macro `GetVarint` of `vdbeaux.c`.

The bytes of a varint are the groups of seven bits of a number, most significant first, with the
eighth bit set in every byte but the last; the ninth byte has eight bits of the number. Both
readers are compared with `scan`, which reads the same bytes into a natural number:

* `scan_putVarint` — it reads what is written, whatever follows;
* `getVarint_eq_scan` — the reader of 64 bits, with its first bytes unrolled, is `scan`;
* `getVarint32_putVarint` — the reader of 32 bits reads a varint of up to eight bytes modulo
  `2 ^ 32`, but it takes seven bits of the ninth byte.
-/

namespace SqlCode.SqliteCore

open Text

/-! ### The functions -/

/-- `(v & 0x7f) | 0x80`. -/
def moreByte (v : UInt64) : Byte := ((v &&& 0x7f) ||| 0x80).toUInt8

/-- The loop over `p[i]` in `sqlite3PutVarint`, for the `i` bytes at `p`. -/
def putBytes : ℕ → UInt64 → List Byte
  | 0, _ => []
  | i + 1, v => putBytes i (v >>> 7) ++ [moreByte v]

theorem toNat_shiftRight_seven (v : UInt64) : (v >>> 7).toNat = v.toNat / 128 := by
  rw [UInt64.toNat_shiftRight]
  exact Nat.shiftRight_eq_div_pow _ _

/-- What the `do` loop of `sqlite3PutVarint` leaves in `buf`. -/
def putLoop (v : UInt64) : List Byte :=
  moreByte v :: if v >>> 7 ≠ 0 then putLoop (v >>> 7) else []
termination_by v.toNat
decreasing_by
  rename_i h
  have hne : (v >>> 7).toNat ≠ 0 := fun h0 => h (UInt64.toNat_inj.mp h0)
  rw [toNat_shiftRight_seven] at hne ⊢
  omega

/-- `sqlite3PutVarint`: the bytes that it writes. -/
def putVarint (v : UInt64) : List Byte :=
  if v &&& ((0xff000000 : UInt64) <<< 32) ≠ 0 then putBytes 8 (v >>> 8) ++ [v.toUInt8]
  else ((putLoop v).modifyHead (· &&& 0x7f)).reverse

/-- The `do` loop of `sqlite3GetVarint` from `n = 8 - k` on. -/
def getLoop (p : List Byte) : ℕ → UInt64 → Option (UInt64 × ℕ)
  | 0, x64 => do
    let c ← p[8]?
    pure (x64 <<< 8 ||| c.toUInt64, 9)
  | k + 1, x64 => do
    let c ← p[7 - k]?
    let x64 := x64 <<< 7 ||| (c &&& 0x7f).toUInt64
    if c &&& 0x80 ≠ 0 then getLoop p k x64 else pure (x64, 8 - k)

/-- `sqlite3GetVarint`: the value and the number of bytes read. A read past the end of what
is at `p` is `none`. -/
def getVarint (p : List Byte) : Option (UInt64 × ℕ) := do
  let c ← p[0]?
  if c &&& 0x80 = 0 then return (c.toUInt64, 1)
  let x := (c &&& 0x7f).toUInt32
  let c ← p[1]?
  if c &&& 0x80 = 0 then return ((x <<< 7 ||| c.toUInt32).toUInt64, 2)
  let x := x <<< 7 ||| (c &&& 0x7f).toUInt32
  let c ← p[2]?
  if c &&& 0x80 = 0 then return ((x <<< 7 ||| c.toUInt32).toUInt64, 3)
  let x := x <<< 7 ||| (c &&& 0x7f).toUInt32
  let c ← p[3]?
  if c &&& 0x80 = 0 then return ((x <<< 7 ||| c.toUInt32).toUInt64, 4)
  getLoop p 4 (x <<< 7 ||| (c &&& 0x7f).toUInt32).toUInt64

/-- The `do` loop of `sqlite3GetVarint32` from `n = 8 - k` on. -/
def getLoop32 (p : List Byte) : ℕ → UInt32 → Option (UInt32 × ℕ)
  | 0, x => do
    let c ← p[8]?
    pure (x <<< 7 ||| (c &&& 0x7f).toUInt32, 9)
  | k + 1, x => do
    let c ← p[7 - k]?
    let x := x <<< 7 ||| (c &&& 0x7f).toUInt32
    if c &&& 0x80 ≠ 0 then getLoop32 p k x else pure (x, 8 - k)

/-- `sqlite3GetVarint32`. -/
def getVarint32 (p : List Byte) : Option (UInt32 × ℕ) := do
  let c ← p[0]?
  if 0 ≤ c.toInt8 then return (c.toUInt32, 1)
  let x := (c &&& 0x7f).toUInt32
  let c ← p[1]?
  if 0 ≤ c.toInt8 then return (x <<< 7 ||| c.toUInt32, 2)
  let x := x <<< 7 ||| (c &&& 0x7f).toUInt32
  getLoop32 p 6 x

/-- The macro `GetVarint`. -/
def getVarintMacro (p : List Byte) : Option (UInt32 × ℕ) := do
  let B ← p[0]?
  if B ≤ 0x7f then pure (B.toUInt32, 1) else getVarint32 p

/-- The loop of `sqlite3VarintLen`, for at most `k` more rounds. -/
def lenLoop : ℕ → UInt64 → ℕ
  | 0, _ => 0
  | k + 1, v => 1 + if v >>> 7 ≠ 0 then lenLoop k (v >>> 7) else 0

/-- `sqlite3VarintLen`. -/
def varintLen (v : UInt64) : ℕ := lenLoop 9 v

/-! ### Bytes and words as numbers -/

theorem and_128_eq_zero_iff (c : Byte) : c &&& 0x80 = 0 ↔ c.toNat < 128 := by
  have h : ∀ i : Fin 256, i.val &&& 128 = 0 ↔ i.val < 128 := by decide +kernel
  rw [← UInt8.toNat_inj]
  exact h ⟨c.toNat, c.toNat_lt⟩

theorem zero_le_toInt8_iff (c : Byte) : 0 ≤ c.toInt8 ↔ c.toNat < 128 := by
  have hc := c.toNat_lt
  have hval : c.toInt8.toInt = if 2 * c.toNat < 256 then (c.toNat : ℤ) else c.toNat - 256 :=
    BitVec.toInt_eq_toNat_cond c.toBitVec
  rw [Int8.le_iff_toInt_le, hval, Int8.toInt_zero]
  split_ifs <;> omega

theorem toNat_and_127 (c : Byte) : (c &&& 0x7f).toNat = c.toNat % 128 := by
  rw [UInt8.toNat_and]
  exact Nat.and_two_pow_sub_one_eq_mod _ 7

theorem toNat_moreByte (v : UInt64) : (moreByte v).toNat = v.toNat % 128 + 128 := by
  have hlow : (v &&& 0x7f).toNat = v.toNat % 128 := by
    rw [UInt64.toNat_and]
    exact Nat.and_two_pow_sub_one_eq_mod _ 7
  have hor : v.toNat % 128 ||| 128 = v.toNat % 128 + 128 := by
    rw [Nat.or_comm, add_comm]
    exact (Nat.two_pow_add_eq_or_of_lt (i := 7) (Nat.mod_lt _ (by decide)) 1).symm
  rw [moreByte, UInt64.toNat_toUInt8, UInt64.toNat_or, hlow]
  change (v.toNat % 128 ||| 128) % 256 = _
  omega

/-- One more group of seven bits. -/
theorem toNat_shift_or {x : UInt64} {c : Byte} (hx : x.toNat < 2 ^ 57) (hc : c.toNat < 128) :
    (x <<< 7 ||| c.toUInt64).toNat = x.toNat * 128 + c.toNat := by
  rw [UInt64.toNat_or, UInt64.toNat_shiftLeft, UInt8.toNat_toUInt64]
  change x.toNat <<< 7 % 2 ^ 64 ||| c.toNat = _
  rw [Nat.mod_eq_of_lt (by rw [Nat.shiftLeft_eq]; omega),
    ← Nat.shiftLeft_add_eq_or_of_lt (i := 7) hc, Nat.shiftLeft_eq]

/-- The eight bits of the ninth byte. -/
theorem toNat_shift_eight_or {x : UInt64} (hx : x.toNat < 2 ^ 56) (c : Byte) :
    (x <<< 8 ||| c.toUInt64).toNat = x.toNat * 256 + c.toNat := by
  rw [UInt64.toNat_or, UInt64.toNat_shiftLeft, UInt8.toNat_toUInt64]
  change x.toNat <<< 8 % 2 ^ 64 ||| c.toNat = _
  rw [Nat.mod_eq_of_lt (by rw [Nat.shiftLeft_eq]; omega),
    ← Nat.shiftLeft_add_eq_or_of_lt (i := 8) c.toNat_lt, Nat.shiftLeft_eq]

/-- One more group of seven bits in a word of 32 bits, whose upper bits are lost. -/
theorem toNat_shift_or_32 {c : Byte} (x : UInt32) (hc : c.toNat < 128) :
    (x <<< 7 ||| c.toUInt32).toNat = (x.toNat * 128 + c.toNat) % 2 ^ 32 := by
  rw [UInt32.toNat_or, UInt32.toNat_shiftLeft, UInt8.toNat_toUInt32]
  change x.toNat <<< 7 % 2 ^ 32 ||| c.toNat = _
  have hkept : x.toNat <<< 7 % 2 ^ 32 = (x.toNat % 2 ^ 25) <<< 7 := by
    rw [Nat.shiftLeft_eq, Nat.shiftLeft_eq]
    omega
  rw [hkept, ← Nat.shiftLeft_add_eq_or_of_lt (i := 7) hc, Nat.shiftLeft_eq]
  omega

/-! ### Reading into a natural number -/

/-- The value at `p`, when `n` bytes with the value `x` are read, and the bytes read in all. -/
def scan : List Byte → ℕ → ℕ → Option (ℕ × ℕ)
  | [], _, _ => none
  | c :: p, x, n =>
    if n = 8 then some (x * 256 + c.toNat, 9)
    else if c.toNat < 128 then some (x * 128 + c.toNat, n + 1)
    else scan p (x * 128 + c.toNat % 128) (n + 1)

/-- Bytes that have the eighth bit set are read on. -/
theorem scan_putBytes (p : List Byte) (x : ℕ) :
    ∀ (i n : ℕ) (v : UInt64), n + i ≤ 8 →
      scan (putBytes i v ++ p) x n = scan p (x * 128 ^ i + v.toNat % 128 ^ i) (n + i) := by
  intro i
  induction i generalizing p with
  | zero => intro n v _; simp [putBytes, Nat.mod_one]
  | succ i ih =>
    intro n v hn
    have hbyte := toNat_moreByte v
    rw [putBytes, List.append_assoc, ih _ n _ (by omega), List.singleton_append, scan,
      if_neg (by omega), if_neg (by omega), hbyte, toNat_shiftRight_seven]
    have hmod : v.toNat % 128 ^ (i + 1) = v.toNat % 128 + 128 * (v.toNat / 128 % 128 ^ i) := by
      rw [pow_succ', Nat.mod_mul]
    rw [hmod, pow_succ']
    congr 1
    have hlow : (v.toNat % 128 + 128) % 128 = v.toNat % 128 := by omega
    rw [hlow]
    ring

/-- At least one more byte is read. -/
theorem scan_lt {p : List Byte} {x n : ℕ} {r : ℕ × ℕ} (h : scan p x n = some r) (hn : n ≤ 8) :
    n < r.2 := by
  induction p generalizing x n with
  | nil => cases h
  | cons c p ih =>
    rw [scan] at h
    split_ifs at h with h8 hc
    · cases h
      exact Nat.lt_succ_of_le hn
    · cases h
      exact Nat.lt_succ_self n
    · exact (Nat.lt_succ_self n).trans (ih h (by omega))

/-! ### What is written -/

/-- The groups in `buf` are written in reverse. -/
theorem reverse_putLoop (v : UInt64) : ∃ k, v.toNat < 128 ^ (k + 1) ∧ (k ≠ 0 → 128 ^ k ≤ v.toNat) ∧
    putLoop v = moreByte v :: (putBytes k (v >>> 7)).reverse := by
  induction h : v.toNat using Nat.strongRecOn generalizing v with
  | ind n ih =>
    subst h
    rw [putLoop]
    -- the lowest group is written first; the loop ends when nothing is left above it
    by_cases hz : v >>> 7 = 0
    · have hzero : v.toNat / 128 = 0 := by
        rw [← toNat_shiftRight_seven, hz]
        rfl
      exact ⟨0, by omega, fun h => absurd rfl h, by simp [hz, putBytes]⟩
    · have hpos : v.toNat / 128 ≠ 0 := by
        rw [← toNat_shiftRight_seven]
        exact fun h0 => hz (UInt64.toNat_inj.mp h0)
      obtain ⟨k, hlt, hle, heq⟩ := ih _ (by rw [toNat_shiftRight_seven]; omega) (v >>> 7) rfl
      rw [toNat_shiftRight_seven] at hlt hle
      refine ⟨k + 1, ?_, fun _ => ?_, ?_⟩
      · rw [pow_succ]
        omega
      · rcases k.eq_zero_or_pos with rfl | hk
        · omega
        · have := hle hk.ne'
          rw [pow_succ]
          omega
      · rw [if_pos hz, heq, putBytes, List.reverse_append]
        rfl

/-- The test for a number that does not fit 56 bits. -/
theorem and_high_ne_zero_iff (v : UInt64) :
    v &&& ((0xff000000 : UInt64) <<< 32) ≠ 0 ↔ 2 ^ 56 ≤ v.toNat := by
  have hv := v.toNat_lt
  have hmask : ((0xff000000 : UInt64) <<< 32).toNat = 255 * 2 ^ 56 := by decide
  rw [Ne, ← UInt64.toNat_inj, UInt64.toNat_and, hmask]
  change ¬ v.toNat &&& 255 * 2 ^ 56 = 0 ↔ _
  have hhigh : (v.toNat &&& 255 * 2 ^ 56) / 2 ^ 56 = v.toNat / 2 ^ 56 := by
    rw [← Nat.shiftRight_eq_div_pow, Nat.shiftRight_and_distrib, Nat.shiftRight_eq_div_pow,
      Nat.shiftRight_eq_div_pow, Nat.mul_div_cancel _ (by positivity)]
    change v.toNat / 2 ^ 56 &&& 2 ^ 8 - 1 = _
    rw [Nat.and_two_pow_sub_one_eq_mod]
    omega
  have hlow : (v.toNat &&& 255 * 2 ^ 56) % 2 ^ 56 = 0 := by
    rw [Nat.and_mod_two_pow, Nat.mul_mod_left, Nat.and_zero]
  omega

/-- **The form of a varint.** It has nine bytes if the number does not fit 56 bits, and
otherwise as few groups of seven bits as possible. -/
theorem putVarint_cases (v : UInt64) :
    (2 ^ 56 ≤ v.toNat ∧ putVarint v = putBytes 8 (v >>> 8) ++ [v.toUInt8]) ∨
      ∃ k, k ≤ 7 ∧ v.toNat < 128 ^ (k + 1) ∧ (k ≠ 0 → 128 ^ k ≤ v.toNat) ∧
        putVarint v = putBytes k (v >>> 7) ++ [moreByte v &&& 0x7f] := by
  unfold putVarint
  by_cases hbig : 2 ^ 56 ≤ v.toNat
  · rw [if_pos ((and_high_ne_zero_iff v).mpr hbig)]
    exact .inl ⟨hbig, rfl⟩
  · rw [if_neg fun h => hbig ((and_high_ne_zero_iff v).mp h)]
    obtain ⟨k, hlt, hle, heq⟩ := reverse_putLoop v
    refine .inr ⟨k, ?_, hlt, hle, by simp [heq]⟩
    -- nine groups of seven bits would be 56 bits or more
    by_contra hk
    have hpow : 128 ^ 8 ≤ 128 ^ k := Nat.pow_le_pow_right (by norm_num) (by omega)
    have := hle (by omega)
    omega

@[simp] theorem length_putBytes (i : ℕ) (v : UInt64) : (putBytes i v).length = i := by
  induction i generalizing v with
  | zero => rfl
  | succ i ih => rw [putBytes, List.length_append, ih, List.length_singleton]

/-- **Every number is read back**, whatever follows it. -/
theorem scan_putVarint (v : UInt64) (p : List Byte) :
    scan (putVarint v ++ p) 0 0 = some (v.toNat, (putVarint v).length) := by
  have hv := v.toNat_lt
  rcases putVarint_cases v with ⟨-, heq⟩ | ⟨k, hk, hlt, -, heq⟩
  · have hshift : (v >>> 8).toNat = v.toNat / 256 := by
      rw [UInt64.toNat_shiftRight]
      exact Nat.shiftRight_eq_div_pow _ _
    -- eight groups and a whole byte: 64 bits
    have hmod : v.toNat / 256 % 128 ^ 8 = v.toNat / 256 := Nat.mod_eq_of_lt (by omega)
    rw [heq, List.append_assoc, scan_putBytes _ _ _ _ _ (by omega), hshift, hmod,
      List.singleton_append, scan, if_pos rfl, UInt64.toNat_toUInt8, List.length_append,
      length_putBytes]
    congr 2
    omega
  · have hmod : v.toNat / 128 % 128 ^ k = v.toNat / 128 := by
      refine Nat.mod_eq_of_lt (Nat.div_lt_of_lt_mul ?_)
      rwa [← pow_succ']
    have hlast : (moreByte v &&& 0x7f).toNat = v.toNat % 128 := by
      rw [toNat_and_127, toNat_moreByte]
      omega
    rw [heq, List.append_assoc, scan_putBytes _ _ _ _ _ (by omega), toNat_shiftRight_seven, hmod,
      List.singleton_append, scan, hlast, if_neg (by omega), if_pos (by omega),
      List.length_append, length_putBytes, List.length_singleton]
    congr 2
    · omega
    · omega

/-! ### The readers -/

/-- What the reader of 32 bits makes of a value with `n` bytes. -/
def narrow (r : ℕ × ℕ) : ℕ := if r.2 ≤ 8 then r.1 else r.1 / 256 * 128 + r.1 % 128

theorem scan_drop (p : List Byte) (x n : ℕ) :
    scan (p.drop n) x n = p[n]?.bind fun c =>
      if n = 8 then some (x * 256 + c.toNat, 9)
      else if c.toNat < 128 then some (x * 128 + c.toNat, n + 1)
      else scan (p.drop (n + 1)) (x * 128 + c.toNat % 128) (n + 1) := by
  rw [List.drop_eq_getElem?_toList_append]
  cases hc : p[n]? with
  | none =>
    have hlen := List.getElem?_eq_none_iff.mp hc
    rw [List.drop_eq_nil_of_le (by omega)]
    rfl
  | some c => rfl

theorem and_128_ne_zero_iff (c : Byte) : c &&& 0x80 ≠ 0 ↔ ¬ c.toNat < 128 :=
  not_congr (and_128_eq_zero_iff c)

theorem toNat_and_127_lt (c : Byte) : (c &&& 0x7f).toNat < 128 := by
  rw [toNat_and_127]
  exact Nat.mod_lt _ (by decide)

theorem getLoop_eq_scan (p : List Byte) (k : ℕ) (hk : k ≤ 8) (x : UInt64)
    (hx : x.toNat < 128 ^ (8 - k)) :
    getLoop p k x =
      (scan (p.drop (8 - k)) x.toNat (8 - k)).map fun r => (UInt64.ofNat r.1, r.2) := by
  induction k generalizing x with
  | zero =>
    -- the ninth byte counts with all its bits
    rw [scan_drop, getLoop]
    cases p[8]? with
    | none => rfl
    | some c =>
      have hval := toNat_shift_eight_or (x := x) hx c
      change some (x <<< 8 ||| c.toUInt64, 9) = some (UInt64.ofNat (x.toNat * 256 + c.toNat), 9)
      rw [← hval, UInt64.ofNat_toNat]
  | succ k ih =>
    obtain ⟨n, hn⟩ : ∃ n, 8 - (k + 1) = n := ⟨_, rfl⟩
    have hk7 : 7 - k = n := by omega
    have hk8 : 8 - k = n + 1 := by omega
    have hlow := toNat_and_127_lt
    rw [hn] at hx ⊢
    -- no bit is shifted out of the word
    have hx57 : x.toNat < 2 ^ 57 := hx.trans_le (by
      calc 128 ^ n ≤ 128 ^ 8 := Nat.pow_le_pow_right (by norm_num) (by omega)
        _ ≤ 2 ^ 57 := by decide)
    rw [scan_drop, getLoop, hk7, hk8]
    cases p[n]? with
    | none => rfl
    | some c =>
      have hval := toNat_shift_or hx57 (hlow c)
      rw [Option.bind_some, if_neg (by omega)]
      change (if c &&& 0x80 ≠ 0 then getLoop p k (x <<< 7 ||| (c &&& 0x7f).toUInt64)
        else some (x <<< 7 ||| (c &&& 0x7f).toUInt64, n + 1)) = _
      rw [toNat_and_127] at hval
      by_cases hc : c.toNat < 128
      · rw [if_neg fun h => (and_128_ne_zero_iff c).mp h hc, if_pos hc, Option.map_some,
          ← Nat.mod_eq_of_lt hc, ← hval, UInt64.ofNat_toNat]
      · rw [if_pos ((and_128_ne_zero_iff c).mpr hc), if_neg hc, ih (by omega), hval, hk8]
        rw [hval, hk8, pow_succ]
        omega

/-- One of the first bytes, in a word of 32 bits that has room for them. -/
theorem unrolled_eq_scan {p : List Byte} {n : ℕ} (hn : n ≤ 3) {x : UInt32}
    (hx : x.toNat < 128 ^ n) {rest : UInt32 → Option (UInt64 × ℕ)}
    (hrest : ∀ y : UInt32, y.toNat < 128 ^ (n + 1) → rest y =
      (scan (p.drop (n + 1)) y.toNat (n + 1)).map fun r => (UInt64.ofNat r.1, r.2)) :
    (p[n]?.bind fun c =>
      if c &&& 0x80 = 0 then some ((x <<< 7 ||| c.toUInt32).toUInt64, n + 1)
      else rest (x <<< 7 ||| (c &&& 0x7f).toUInt32)) =
      (scan (p.drop n) x.toNat n).map fun r => (UInt64.ofNat r.1, r.2) := by
  have hx21 : x.toNat < 128 ^ 3 :=
    hx.trans_le (Nat.pow_le_pow_right (by decide) hn)
  -- up to four groups fit 32 bits
  have hval : ∀ c : Byte, c.toNat < 128 →
      (x <<< 7 ||| c.toUInt32).toNat = x.toNat * 128 + c.toNat := by
    intro c hc
    rw [toNat_shift_or_32 x hc, Nat.mod_eq_of_lt]
    omega
  rw [scan_drop]
  cases p[n]? with
  | none => rfl
  | some c =>
    have hn8 : ¬ n = 8 := by omega
    rw [Option.bind_some, Option.bind_some, if_neg hn8]
    by_cases hc : c.toNat < 128
    · rw [if_pos ((and_128_eq_zero_iff c).mpr hc), if_pos hc, Option.map_some, ← hval c hc,
        ← UInt32.toNat_toUInt64, UInt64.ofNat_toNat]
    · have hlow := hval _ (toNat_and_127_lt c)
      rw [toNat_and_127] at hlow
      rw [if_neg fun h => hc ((and_128_eq_zero_iff c).mp h), if_neg hc, hrest, hlow]
      rw [hlow, pow_succ]
      omega

/-- **`sqlite3GetVarint`**, whose first bytes are read in words of 32 bits. -/
theorem getVarint_eq_scan (p : List Byte) :
    getVarint p = (scan p 0 0).map fun r => (UInt64.ofNat r.1, r.2) := by
  have hloop : ∀ y : UInt32, y.toNat < 128 ^ 4 → getLoop p 4 y.toUInt64 =
      (scan (p.drop 4) y.toNat 4).map fun r => (UInt64.ofNat r.1, r.2) :=
    fun y hy => getLoop_eq_scan p 4 (by decide) y.toUInt64 hy
  -- the four unrolled bytes and the loop behind them
  have hbytes := unrolled_eq_scan (n := 0) (x := 0) (by decide) (by decide)
    fun _ hy => unrolled_eq_scan (n := 1) (by decide) hy
      fun _ hy => unrolled_eq_scan (n := 2) (by decide) hy
        fun _ hy => unrolled_eq_scan (n := 3) (by decide) hy hloop
  -- before the first byte the word is zero
  have hzero : ∀ w : UInt32, (0 : UInt32) <<< 7 ||| w = w := fun w => by simp
  simp only [hzero, UInt8.toUInt64_toUInt32] at hbytes
  exact hbytes

/-- The loop of the reader of 32 bits. -/
theorem getLoop32_eq_scan (p : List Byte) (k : ℕ) (hk : k ≤ 8) (y : ℕ) :
    getLoop32 p k (UInt32.ofNat y) =
      (scan (p.drop (8 - k)) y (8 - k)).map fun r => (UInt32.ofNat (narrow r), r.2) := by
  have hstep : ∀ (y : ℕ) (c : Byte), UInt32.ofNat y <<< 7 ||| (c &&& 0x7f).toUInt32 =
      UInt32.ofNat (y * 128 + c.toNat % 128) := by
    intro y c
    rw [← UInt32.toNat_inj, toNat_shift_or_32 _ (toNat_and_127_lt c), toNat_and_127,
      UInt32.toNat_ofNat', UInt32.toNat_ofNat']
    omega
  induction k generalizing y with
  | zero =>
    rw [scan_drop, getLoop32]
    cases p[8]? with
    | none => rfl
    | some c =>
      have hc := c.toNat_lt
      change some (UInt32.ofNat y <<< 7 ||| (c &&& 0x7f).toUInt32, 9) =
        some (UInt32.ofNat (narrow (y * 256 + c.toNat, 9)), 9)
      -- the ninth byte is read like the others, so that its high bit is lost
      have hnarrow : narrow (y * 256 + c.toNat, 9) = y * 128 + c.toNat % 128 := by
        unfold narrow
        dsimp only
        rw [if_neg (by decide)]
        omega
      rw [hstep, hnarrow]
  | succ k ih =>
    obtain ⟨n, hn⟩ : ∃ n, 8 - (k + 1) = n := ⟨_, rfl⟩
    have hk7 : 7 - k = n := by omega
    have hk8 : 8 - k = n + 1 := by omega
    have hn8 : ¬ n = 8 := by omega
    rw [hn, scan_drop, getLoop32, hk7, hk8]
    cases p[n]? with
    | none => rfl
    | some c =>
      rw [Option.bind_some, if_neg hn8]
      change (if c &&& 0x80 ≠ 0 then getLoop32 p k (UInt32.ofNat y <<< 7 ||| (c &&& 0x7f).toUInt32)
        else some (UInt32.ofNat y <<< 7 ||| (c &&& 0x7f).toUInt32, n + 1)) = _
      rw [hstep]
      -- a byte without the high bit is the last
      by_cases hc : c.toNat < 128
      · have hnarrow : narrow (y * 128 + c.toNat, n + 1) = y * 128 + c.toNat :=
          if_pos (show n + 1 ≤ 8 by omega)
        rw [if_neg fun h => (and_128_ne_zero_iff c).mp h hc, if_pos hc, Option.map_some, hnarrow,
          Nat.mod_eq_of_lt hc]
      · rw [if_pos ((and_128_ne_zero_iff c).mpr hc), if_neg hc, ih (by omega), hk8]

/-- A round of the loop as the bytes in front of it are read. -/
theorem getLoop32_succ (p : List Byte) (k : ℕ) (x : UInt32) :
    getLoop32 p (k + 1) x = p[7 - k]?.bind fun c =>
      if 0 ≤ c.toInt8 then some (x <<< 7 ||| c.toUInt32, 8 - k)
      else getLoop32 p k (x <<< 7 ||| (c &&& 0x7f).toUInt32) := by
  rw [getLoop32]
  refine Option.bind_congr fun c _ => ?_
  change (if c &&& 0x80 ≠ 0 then _ else some _) = _
  by_cases hc : c.toNat < 128
  · have hmask : c &&& 0x7f = c := by
      rw [← UInt8.toNat_inj, toNat_and_127, Nat.mod_eq_of_lt hc]
    rw [if_neg fun h => (and_128_ne_zero_iff c).mp h hc,
      if_pos ((zero_le_toInt8_iff c).mpr hc), hmask]
  · rw [if_pos ((and_128_ne_zero_iff c).mpr hc), if_neg fun h => hc ((zero_le_toInt8_iff c).mp h)]

/-- **`sqlite3GetVarint32`** takes only seven bits of a ninth byte. -/
theorem getVarint32_eq_scan (p : List Byte) :
    getVarint32 p = (scan p 0 0).map fun r => (UInt32.ofNat (narrow r), r.2) := by
  refine Eq.trans ?_ (getLoop32_eq_scan p 8 le_rfl 0)
  -- the two bytes in front of the loop are two more rounds of it
  have hzero : ∀ w : UInt32, UInt32.ofNat 0 <<< 7 ||| w = w := fun w => by simp
  rw [getLoop32_succ]
  simp only [getLoop32_succ p 6, hzero]
  rfl

theorem getVarint_putVarint (v : UInt64) (p : List Byte) :
    getVarint (putVarint v ++ p) = some (v, (putVarint v).length) := by
  rw [getVarint_eq_scan, scan_putVarint, Option.map_some, UInt64.ofNat_toNat]

theorem length_putVarint_le (v : UInt64) (hv : v.toNat < 2 ^ 56) : (putVarint v).length ≤ 8 := by
  rcases putVarint_cases v with ⟨h, -⟩ | ⟨k, hk, -, -, heq⟩
  · omega
  · rw [heq, List.length_append, length_putBytes, List.length_singleton]
    omega

theorem getVarint32_putVarint (v : UInt64) (hv : v.toNat < 2 ^ 56) (p : List Byte) :
    getVarint32 (putVarint v ++ p) = some (v.toUInt32, (putVarint v).length) := by
  have hnarrow : narrow (v.toNat, (putVarint v).length) = v.toNat :=
    if_pos (length_putVarint_le v hv)
  rw [getVarint32_eq_scan, scan_putVarint, Option.map_some, hnarrow]
  rfl

/-- The macro is the function. -/
theorem getVarintMacro_eq (p : List Byte) : getVarintMacro p = getVarint32 p := by
  unfold getVarintMacro
  cases hB : p[0]? with
  | none =>
    unfold getVarint32
    rw [hB]
    rfl
  | some B =>
    change (if B ≤ 0x7f then some (B.toUInt32, 1) else getVarint32 p) = getVarint32 p
    split_ifs with hle
    · have hpos : 0 ≤ B.toInt8 :=
        (zero_le_toInt8_iff B).mpr (Nat.lt_succ_of_le (UInt8.le_iff_toNat_le.mp hle))
      unfold getVarint32
      rw [hB]
      exact (if_pos hpos).symm
    · rfl

/-- The macro takes a byte at least. -/
theorem getVarintMacro_pos {p : List Byte} {r : UInt32 × ℕ} (h : getVarintMacro p = some r) :
    0 < r.2 := by
  rw [getVarintMacro_eq, getVarint32_eq_scan] at h
  obtain ⟨s, hs, rfl⟩ := Option.map_eq_some_iff.mp h
  exact scan_lt hs (Nat.zero_le 8)

/-- The number of groups of a number with `j + 1` groups, if that many rounds are allowed. -/
theorem lenLoop_eq {k j : ℕ} (hj : j < k) {v : UInt64} (hle : j ≠ 0 → 128 ^ j ≤ v.toNat)
    (hlt : j + 1 < k → v.toNat < 128 ^ (j + 1)) : lenLoop k v = j + 1 := by
  induction k generalizing j v with
  | zero => exact absurd hj (Nat.not_lt_zero j)
  | succ k ih =>
    have hzero : v >>> 7 ≠ 0 ↔ v.toNat / 128 ≠ 0 := by
      rw [Ne, ← UInt64.toNat_inj, toNat_shiftRight_seven]
      rfl
    rw [lenLoop]
    cases j with
    | zero =>
      by_cases hk : k = 0
      · subst hk
        split_ifs <;> rfl
      · have hsmall := hlt (by omega)
        rw [if_neg fun h => hzero.mp h (by omega)]
    | succ j =>
      have hbig := hle (Nat.succ_ne_zero j)
      rw [pow_succ] at hbig
      have hpos : 0 < 128 ^ j := by positivity
      -- one round takes one group off
      have hrest : lenLoop k (v >>> 7) = j + 1 := by
        refine ih (Nat.lt_of_succ_lt_succ hj) (fun _ => ?_) fun h => ?_
        · rw [toNat_shiftRight_seven]
          omega
        · have hsmall := hlt (Nat.succ_lt_succ h)
          rw [pow_succ] at hsmall
          rw [toNat_shiftRight_seven]
          omega
      rw [if_pos (hzero.mpr (by omega)), hrest, add_comm]

/-- **`sqlite3VarintLen`** is the number of bytes that `sqlite3PutVarint` writes. -/
theorem length_putVarint (v : UInt64) : (putVarint v).length = varintLen v := by
  unfold varintLen
  rcases putVarint_cases v with ⟨hbig, heq⟩ | ⟨k, hk, hlt, hle, heq⟩
  · rw [heq, lenLoop_eq (show 8 < 9 by decide) (fun _ => hbig) fun h => absurd h (by decide)]
    simp
  · rw [heq, lenLoop_eq (by omega) hle fun _ => hlt]
    simp

end SqlCode.SqliteCore
