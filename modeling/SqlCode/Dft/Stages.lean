import SqlCode.Dft.RootTower
import SqlCode.Dft.BitRev

/-!
# The stages of a radix-2 transform

Three ways of computing `dft` in `log N` passes over an array, each described by
what one pass does and by an invariant on whole passes.

* **In place, decimation in time.** A pass over `nb` blocks of `2 * h` cells
  does one butterfly for every block `b` and offset `o`. `Butterflies τ h nb D`
  is the state of the array within a pass, when exactly the butterflies
  selected by `D` are done; `Butterflies.step` adds one, in any order. In
  `Butterflied ω h nb D` the twiddle factor is the power of `ω` at the offset.
  `BlockDft ρ nb l` is the state between passes: every block of `2 ^ l` cells
  holds the transform of its bit-reversed original (`BlockDft.succ`).
* **In place, natural order.** The blocks shrink from pass to pass, and the twiddle
  factor belongs to the block. `ColumnDft ρ M l` is the state between passes: the
  cells at one offset of the `2 ^ l` blocks hold the transform of the original column
  there, in bit-reversed order. The exponent of block `c` has to be `bitRev l c`,
  unless the upper half of the block is zero (`ColumnDft.succ`).
* **Self-sorting.** A pass reads one array and writes another
  (`SortingPass`), leaving the output in order. `Sorting ω mj nb` is the state
  between passes (`Sorting.succ`).
-/

namespace Dft

open Finset

variable {K : Type} [CommRing K]

/-- A stage halves the number of blocks. -/
theorem two_pow_sub {l m : ℕ} (h : l < m) : 2 ^ (m - l) = 2 * 2 ^ (m - (l + 1)) := by
  rw [← Nat.sub_sub, mul_pow_sub_one (Nat.sub_ne_zero_of_lt h)]

/-- The blocks of a stage fill the array. -/
theorem two_pow_blocks {l m : ℕ} (h : l < m) : 2 ^ m = 2 ^ (m - (l + 1)) * (2 * 2 ^ l) := by
  rw [← pow_succ', pow_sub_mul_pow 2 h]

/-- Block and offset are determined by the index. -/
theorem block_inj {w b o b' o' : ℕ} (ho : o < w) (ho' : o' < w)
    (h : b * w + o = b' * w + o') : b = b' ∧ o = o' := by
  have hw : 0 < w := by omega
  have hb : b = b' := by
    have h1 : (b * w + o) / w = b := by
      rw [mul_comm, Nat.mul_add_div hw, Nat.div_eq_of_lt ho, add_zero]
    have h2 : (b' * w + o') / w = b' := by
      rw [mul_comm, Nat.mul_add_div hw, Nat.div_eq_of_lt ho', add_zero]
    rw [← h1, h, h2]
  subst hb
  exact ⟨rfl, by omega⟩

/-- An index inside block `b < nb` is inside the array. -/
theorem block_lt {w nb b o : ℕ} (hb : b < nb) (ho : o < w) : b * w + o < nb * w := by
  calc b * w + o < b * w + w := by omega
    _ = (b + 1) * w := by ring
    _ ≤ nb * w := Nat.mul_le_mul_right w hb

/-- A loop from offset `o` on, over the blocks of `2 * h` cells, has one round a block. -/
theorem block_rounds {nb h o : ℕ} (ho : o < h) :
    (nb * (2 * h) - o + (2 * h - 1)) / (2 * h) = nb := by
  rcases Nat.eq_zero_or_pos nb with rfl | hnb
  · rw [zero_mul, Nat.zero_sub, zero_add]
    exact Nat.div_eq_of_lt (by omega)
  · have hN : 2 * h ≤ nb * (2 * h) := Nat.le_mul_of_pos_left _ hnb
    rw [show nb * (2 * h) - o + (2 * h - 1) = 2 * h * nb + (2 * h - 1 - o) by
      rw [mul_comm (2 * h)]; omega]
    rw [Nat.mul_add_div (by omega), Nat.div_eq_of_lt (by omega), add_zero]

/-! ### Within a pass -/

/-- The array `a'` is `a` after the butterflies selected by `D`, among those of
`nb` blocks of two halves of `h` cells; `τ b o` is the twiddle factor of block `b` at
offset `o`. -/
structure Butterflies (τ : ℕ → ℕ → K) (h nb : ℕ) (D : ℕ → ℕ → Prop) (a a' : ℕ → K) : Prop where
  lo_done : ∀ b o, b < nb → o < h → D b o →
    a' (b * (2 * h) + o) = a (b * (2 * h) + o) + τ b o * a (b * (2 * h) + o + h)
  hi_done : ∀ b o, b < nb → o < h → D b o →
    a' (b * (2 * h) + o + h) = a (b * (2 * h) + o) - τ b o * a (b * (2 * h) + o + h)
  lo_todo : ∀ b o, b < nb → o < h → ¬ D b o → a' (b * (2 * h) + o) = a (b * (2 * h) + o)
  hi_todo : ∀ b o, b < nb → o < h → ¬ D b o →
    a' (b * (2 * h) + o + h) = a (b * (2 * h) + o + h)
  frame : ∀ i, nb * (2 * h) ≤ i → a' i = a i

namespace Butterflies

variable {τ : ℕ → ℕ → K} {h nb : ℕ} {D D' : ℕ → ℕ → Prop} {a a' c : ℕ → K}

/-- Nothing is done at the start of a pass. -/
theorem start (τ : ℕ → ℕ → K) (h nb : ℕ) (a : ℕ → K) :
    Butterflies τ h nb (fun _ _ => False) a a where
  lo_done _ _ _ _ hf := hf.elim
  hi_done _ _ _ _ hf := hf.elim
  lo_todo _ _ _ _ _ := rfl
  hi_todo _ _ _ _ _ := rfl
  frame _ _ := rfl

/-- The selection matters only on the butterflies there are. -/
theorem congr (ha : Butterflies τ h nb D a a') (hD : ∀ b o, b < nb → o < h → (D b o ↔ D' b o)) :
    Butterflies τ h nb D' a a' where
  lo_done b o hb ho hd := ha.lo_done b o hb ho ((hD b o hb ho).mpr hd)
  hi_done b o hb ho hd := ha.hi_done b o hb ho ((hD b o hb ho).mpr hd)
  lo_todo b o hb ho hd := ha.lo_todo b o hb ho fun hc => hd ((hD b o hb ho).mp hc)
  hi_todo b o hb ho hd := ha.hi_todo b o hb ho fun hc => hd ((hD b o hb ho).mp hc)
  frame := ha.frame

/-- **One butterfly.** Doing the butterfly at block `b` and offset `o`, not done
before, adds it to the selection. The order in which a pass visits them plays
no role. -/
theorem step (ha : Butterflies τ h nb D a a') {b o : ℕ} (hb : b < nb) (ho : o < h)
    (hD : ¬ D b o)
    (hlo : c (b * (2 * h) + o)
      = a' (b * (2 * h) + o) + τ b o * a' (b * (2 * h) + o + h))
    (hhi : c (b * (2 * h) + o + h)
      = a' (b * (2 * h) + o) - τ b o * a' (b * (2 * h) + o + h))
    (hframe : ∀ i, i ≠ b * (2 * h) + o → i ≠ b * (2 * h) + o + h → c i = a' i) :
    Butterflies τ h nb (fun b' o' => D b' o' ∨ (b' = b ∧ o' = o)) a c := by
  -- a cell of another butterfly keeps its value
  have hother : ∀ b' o', o' < h → ¬ (b' = b ∧ o' = o) →
      c (b' * (2 * h) + o') = a' (b' * (2 * h) + o') ∧
        c (b' * (2 * h) + o' + h) = a' (b' * (2 * h) + o' + h) := by
    intro b' o' ho' hne
    constructor
    · refine hframe _ (fun he => hne (block_inj (by omega) (by omega) he)) fun he => ?_
      rw [add_assoc (b * (2 * h))] at he
      have := (block_inj (w := 2 * h) (by omega) (by omega) he).2
      omega
    · refine hframe _ (fun he => ?_) fun he => hne (block_inj (w := 2 * h) (by omega) (by omega)
        (Nat.add_right_cancel he))
      rw [add_assoc (b' * (2 * h))] at he
      have := (block_inj (w := 2 * h) (by omega) (by omega) he).2
      omega
  -- the two cells of a butterfly that is done, then those of one that is not
  constructor
  · intro b' o' hb' ho' hd
    by_cases he : b' = b ∧ o' = o
    · obtain ⟨rfl, rfl⟩ := he
      rw [hlo, ha.lo_todo _ _ hb ho hD, ha.hi_todo _ _ hb ho hD]
    · rw [(hother b' o' ho' he).1]
      exact ha.lo_done b' o' hb' ho' (hd.resolve_right he)
  · intro b' o' hb' ho' hd
    by_cases he : b' = b ∧ o' = o
    · obtain ⟨rfl, rfl⟩ := he
      rw [hhi, ha.lo_todo _ _ hb ho hD, ha.hi_todo _ _ hb ho hD]
    · rw [(hother b' o' ho' he).2]
      exact ha.hi_done b' o' hb' ho' (hd.resolve_right he)
  · intro b' o' hb' ho' hd
    rw [(hother b' o' ho' fun he => hd (Or.inr he)).1]
    exact ha.lo_todo b' o' hb' ho' fun hc => hd (Or.inl hc)
  · intro b' o' hb' ho' hd
    rw [(hother b' o' ho' fun he => hd (Or.inr he)).2]
    exact ha.hi_todo b' o' hb' ho' fun hc => hd (Or.inl hc)
  · intro i hi
    have h1 := block_lt (w := 2 * h) hb (by omega : o + h < 2 * h)
    rw [hframe i (by omega) (by omega), ha.frame i hi]

/-- The same, for the two writes that do a butterfly in place. -/
theorem step_write (ha : Butterflies τ h nb D a a') {b o : ℕ} (hb : b < nb) (ho : o < h)
    (hD : ¬ D b o)
    (hc : ∀ i, c i =
      if i = b * (2 * h) + o then a' (b * (2 * h) + o) + τ b o * a' (b * (2 * h) + o + h)
      else if i = b * (2 * h) + o + h then
        a' (b * (2 * h) + o) - τ b o * a' (b * (2 * h) + o + h)
      else a' i) :
    Butterflies τ h nb (fun b' o' => D b' o' ∨ (b' = b ∧ o' = o)) a c := by
  apply ha.step hb ho hD
  · rw [hc, if_pos rfl]
  · rw [hc, if_neg (by omega), if_pos rfl]
  · intro i h1 h2
    rw [hc, if_neg h1, if_neg h2]

end Butterflies

/-- Butterflies whose twiddle factor at offset `o` is `ω ^ o`, in every block. -/
abbrev Butterflied (ω : K) (h nb : ℕ) (D : ℕ → ℕ → Prop) (a a' : ℕ → K) : Prop :=
  Butterflies (fun _ o => ω ^ o) h nb D a a'

/-! ### Between passes -/

/-- Each of the `nb` blocks of `2 ^ l` cells of `a` holds the transform of the
same block of `a0`, read in bit-reversed order. -/
def BlockDft (ρ : RootTower K) (nb l : ℕ) (a0 a : ℕ → K) : Prop :=
  ∀ b j, b < nb → j < 2 ^ l →
    a (b * 2 ^ l + j) = dft (ρ.root l) (2 ^ l) (fun t => a0 (b * 2 ^ l + bitRev l t)) j

theorem BlockDft.start (ρ : RootTower K) (nb : ℕ) (a : ℕ → K) : BlockDft ρ nb 0 a a := by
  intro b j _ hj
  obtain rfl : j = 0 := by simpa using hj
  simp [bitRev]

/-- **One pass** doubles the blocks. -/
theorem BlockDft.succ {ρ : RootTower K} {nb l : ℕ} {a0 a a' : ℕ → K}
    (ha : BlockDft ρ (2 * nb) l a0 a)
    (hpass : Butterflied (ρ.root (l + 1)) (2 ^ l) nb (fun _ _ => True) a a') :
    BlockDft ρ nb (l + 1) a0 a' := by
  have hl : (2 : ℕ) ^ (l + 1) = 2 * 2 ^ l := pow_succ' 2 l
  -- the two halves of block `b` are blocks `2 * b` and `2 * b + 1` of the level below
  have heven : ∀ b j, b < nb → j < 2 ^ l → a (b * (2 * 2 ^ l) + j)
      = dft (ρ.root (l + 1) ^ 2) (2 ^ l)
        (fun t => a0 (b * 2 ^ (l + 1) + bitRev (l + 1) (2 * t))) j := by
    intro b j hb hj
    have h := ha (2 * b) j (by omega) hj
    rw [show 2 * b * 2 ^ l = b * (2 * 2 ^ l) by ring] at h
    rw [h, ρ.root_sq, hl]
    simp only [bitRev_two_mul]
  have hodd : ∀ b j, b < nb → j < 2 ^ l → a (b * (2 * 2 ^ l) + j + 2 ^ l)
      = dft (ρ.root (l + 1) ^ 2) (2 ^ l)
        (fun t => a0 (b * 2 ^ (l + 1) + bitRev (l + 1) (2 * t + 1))) j := by
    intro b j hb hj
    have h := ha (2 * b + 1) j (by omega) hj
    rw [show (2 * b + 1) * 2 ^ l = b * (2 * 2 ^ l) + 2 ^ l by ring] at h
    rw [show b * (2 * 2 ^ l) + j + 2 ^ l = b * (2 * 2 ^ l) + 2 ^ l + j by ring, h, ρ.root_sq, hl]
    simp only [bitRev_two_mul_add_one, add_assoc]
  -- the frequencies of the lower half come from the sums, the others from the differences
  intro b j hb hj
  rcases Nat.lt_or_ge j (2 ^ l) with hjl | hjl
  · rw [hl, hpass.lo_done b j hb hjl trivial, heven b j hb hjl, hodd b j hb hjl, dft_two_mul]
    rw [hl]
  · obtain ⟨j, rfl⟩ := Nat.exists_eq_add_of_le' hjl
    have hjl' : j < 2 ^ l := by omega
    rw [hl, ← add_assoc, hpass.hi_done b j hb hjl' trivial, heven b j hb hjl', hodd b j hb hjl',
      dft_two_mul_add (ρ.root_pow_half l)]
    rw [hl]

/-- **All passes.** Run on a bit-reversed array, they leave its transform. -/
theorem BlockDft.top {ρ : RootTower K} {m : ℕ} {x a0 a : ℕ → K} (ha : BlockDft ρ 1 m a0 a)
    (ha0 : ∀ i, i < 2 ^ m → a0 i = x (bitRev m i)) {k : ℕ} (hk : k < 2 ^ m) :
    a k = dft (ρ.root m) (2 ^ m) x k := by
  have h := ha 0 k Nat.one_pos hk
  rw [zero_mul, zero_add] at h
  rw [h]
  refine dft_congr (fun t ht => ?_) k
  rw [zero_add, ha0 _ (bitRev_lt m t), bitRev_bitRev m ht]

/-- **All passes but the last.** The two blocks hold the transforms of the even and of the odd
samples. -/
theorem BlockDft.halves {ρ : RootTower K} {m : ℕ} {x a0 a : ℕ → K} (ha : BlockDft ρ 2 m a0 a)
    (ha0 : ∀ i, i < 2 ^ (m + 1) → a0 i = x (bitRev (m + 1) i)) {b k : ℕ} (hb : b < 2)
    (hk : k < 2 ^ m) :
    a (b * 2 ^ m + k) = dft (ρ.root m) (2 ^ m) (fun t => x (2 * t + b)) k := by
  rw [ha b k hb hk]
  refine dft_congr (fun t ht => ?_) k
  have hlt := block_lt hb (bitRev_lt m t)
  rw [← pow_succ'] at hlt
  rw [ha0 _ hlt, bitRev_add_top m (bitRev_lt m t) hb, bitRev_bitRev m ht]

/-! ### Natural order -/

/-- The cells at offset `o` of the `2 ^ l` blocks of `a` hold the transform of the
same cells of `x`, in bit-reversed order. -/
def ColumnDft (ρ : RootTower K) (M l : ℕ) (x a : ℕ → K) : Prop :=
  ∀ c o, c < 2 ^ l → o < 2 ^ (M - l) → a (c * 2 ^ (M - l) + o)
    = dft (ρ.root l) (2 ^ l) (fun j => x (j * 2 ^ (M - l) + o)) (bitRev l c)

theorem ColumnDft.start (ρ : RootTower K) (M : ℕ) (x : ℕ → K) : ColumnDft ρ M 0 x x := by
  intro c o hc _
  obtain rfl : c = 0 := by simpa using hc
  simp

/-- **One pass** halves the blocks. In a block whose upper half is zero, any twiddle
factor will do. -/
theorem ColumnDft.succ {ρ : RootTower K} {M l : ℕ} {x a a' : ℕ → K} {τ : ℕ → ℕ → K}
    (hl : l < M) (ha : ColumnDft ρ M l x a)
    (hpass : Butterflies τ (2 ^ (M - (l + 1))) (2 ^ l) (fun _ _ => True) a a')
    (hτ : ∀ c o, c < 2 ^ l → o < 2 ^ (M - (l + 1)) → τ c o = ρ.root (l + 1) ^ bitRev l c ∨
      a (c * 2 ^ (M - l) + o + 2 ^ (M - (l + 1))) = 0) :
    ColumnDft ρ M (l + 1) x a' := by
  have hw := two_pow_sub hl
  have hl2 : (2 : ℕ) ^ (l + 1) = 2 * 2 ^ l := pow_succ' 2 l
  unfold ColumnDft
  intro c' o hc' ho
  generalize 2 ^ (M - (l + 1)) = h at hw hpass hτ ho ⊢
  rw [hw] at hτ
  -- the old column at offset `o` has the even samples, the one at `o + h` the odd ones
  have heven : ∀ c o, c < 2 ^ l → o < h → a (c * (2 * h) + o)
      = dft (ρ.root (l + 1) ^ 2) (2 ^ l) (fun j => x (2 * j * h + o)) (bitRev l c) := by
    intro c o hc ho
    have h1 := ha c o hc (by omega)
    rw [hw] at h1
    rw [h1, ρ.root_sq]
    refine dft_congr (fun j _ => ?_) _
    congr 1
    ring
  have hodd : ∀ c o, c < 2 ^ l → o < h → a (c * (2 * h) + o + h)
      = dft (ρ.root (l + 1) ^ 2) (2 ^ l) (fun j => x ((2 * j + 1) * h + o)) (bitRev l c) := by
    intro c o hc ho
    have h1 := ha c (o + h) hc (by omega)
    rw [hw, ← add_assoc] at h1
    rw [h1, ρ.root_sq]
    refine dft_congr (fun j _ => ?_) _
    congr 1
    ring
  -- where the twiddle factor is not the root, it does not matter
  have hterm : ∀ c o, c < 2 ^ l → o < h → τ c o * a (c * (2 * h) + o + h)
      = ρ.root (l + 1) ^ bitRev l c * a (c * (2 * h) + o + h) := by
    intro c o hc ho
    rcases hτ c o hc ho with h1 | h1
    · rw [h1]
    · rw [h1, mul_zero, mul_zero]
  rw [hl2] at hc' ⊢
  -- a new column is the lower or the upper half of an old one
  obtain ⟨c, rfl | rfl⟩ : ∃ c, c' = 2 * c ∨ c' = 2 * c + 1 := ⟨c' / 2, by omega⟩
  · have hc : c < 2 ^ l := by omega
    rw [show 2 * c * h + o = c * (2 * h) + o by ring, hpass.lo_done c o hc ho trivial,
      hterm c o hc ho, heven c o hc ho, hodd c o hc ho, bitRev_two_mul, dft_two_mul]
  · have hc : c < 2 ^ l := by omega
    rw [show (2 * c + 1) * h + o = c * (2 * h) + o + h by ring, hpass.hi_done c o hc ho trivial,
      hterm c o hc ho, heven c o hc ho, hodd c o hc ho, bitRev_two_mul_add_one, add_comm (2 ^ l),
      dft_two_mul_add (ρ.root_pow_half l)]

/-- **All passes** leave the transform in bit-reversed order. -/
theorem ColumnDft.top {ρ : RootTower K} {M : ℕ} {x a : ℕ → K} (ha : ColumnDft ρ M M x a) {c : ℕ}
    (hc : c < 2 ^ M) : a c = dft (ρ.root M) (2 ^ M) x (bitRev M c) := by
  have h := ha c 0 hc (by simp)
  simpa using h

/-! ### Self-sorting passes -/

/-- One self-sorting pass, from `a` to `a'`: `lj` groups of `mj` pairs, a pair
being `half = lj * mj` cells apart. -/
def SortingPass (ω : K) (mj lj : ℕ) (a a' : ℕ → K) : Prop :=
  ∀ j k, j < lj → k < mj →
    a' (j * (2 * mj) + k) = a (j * mj + k) + a (j * mj + k + lj * mj) ∧
    a' (j * (2 * mj) + mj + k)
      = ω ^ (j * mj) * (a (j * mj + k) - a (j * mj + k + lj * mj))

/-- Each of the `nb` groups of `mj` cells holds `mj` frequencies of the samples
of `x` that are congruent to its number modulo `nb`. -/
def Sorting (ω : K) (mj nb : ℕ) (x a : ℕ → K) : Prop :=
  ∀ j k, j < nb → k < mj →
    a (j * mj + k) = ∑ t ∈ range mj, x (j + t * nb) * ω ^ ((j + t * nb) * k)

theorem Sorting.start (ω : K) (nb : ℕ) (x : ℕ → K) : Sorting ω 1 nb x x := by
  intro j k _ hk
  obtain rfl : k = 0 := by omega
  simp

/-- Only the entries of the groups matter. -/
theorem Sorting.congr {ω : K} {mj nb : ℕ} {x a a' : ℕ → K} (ha : Sorting ω mj nb x a)
    (h : ∀ i, i < nb * mj → a' i = a i) : Sorting ω mj nb x a' := by
  intro j k hj hk
  rw [h _ (block_lt hj hk), ha j k hj hk]

/-- **One self-sorting pass** doubles the groups. -/
theorem Sorting.succ {ω : K} {mj lj : ℕ} {x a a' : ℕ → K} (hω : ω ^ (lj * mj) = -1)
    (ha : Sorting ω mj (2 * lj) x a) (hpass : SortingPass ω mj lj a a') :
    Sorting ω (2 * mj) lj x a' := by
  intro j k hj hk
  -- samples with an even and with an odd quotient, as groups `j` and `j + lj`
  have hlo : ∀ k, k < mj → a (j * mj + k)
      = ∑ t ∈ range mj, x (j + 2 * t * lj) * ω ^ ((j + 2 * t * lj) * k) := by
    intro k hk
    rw [ha j k (by omega) hk]
    refine sum_congr rfl fun t _ => ?_
    rw [show j + t * (2 * lj) = j + 2 * t * lj by ring]
  have hhi : ∀ k, k < mj → a (j * mj + k + lj * mj)
      = ∑ t ∈ range mj, x (j + (2 * t + 1) * lj) * ω ^ ((j + (2 * t + 1) * lj) * k) := by
    intro k hk
    rw [show j * mj + k + lj * mj = (j + lj) * mj + k by ring, ha (j + lj) k (by omega) hk]
    refine sum_congr rfl fun t _ => ?_
    rw [show j + lj + t * (2 * lj) = j + (2 * t + 1) * lj by ring]
  rcases Nat.lt_or_ge k mj with hkm | hkm
  · rw [(hpass j k hj hkm).1, hlo k hkm, hhi k hkm, sum_range_two_mul]
  · obtain ⟨k, rfl⟩ := Nat.exists_eq_add_of_le hkm
    have hkm' : k < mj := by omega
    -- half a circle on, the samples with an odd quotient change their sign
    have hshift : ∀ t, ω ^ ((j + t * lj) * (mj + k))
        = ω ^ (j * mj) * ((-1) ^ t * ω ^ ((j + t * lj) * k)) := by
      intro t
      rw [← hω, ← pow_mul, ← pow_add, ← pow_add]
      congr 1
      ring
    rw [← add_assoc, (hpass j k hj hkm').2, hlo k hkm', hhi k hkm']
    simp only [hshift]
    rw [sum_range_two_mul, mul_sub, mul_sum, mul_sum, sub_eq_add_neg, ← sum_neg_distrib]
    congr 1
    · refine sum_congr rfl fun t _ => ?_
      rw [pow_mul (-1 : K) 2 t, neg_one_sq, one_pow]
      ring
    · refine sum_congr rfl fun t _ => ?_
      rw [pow_succ (-1 : K) (2 * t), pow_mul (-1 : K) 2 t, neg_one_sq, one_pow]
      ring

/-- **All self-sorting passes.** -/
theorem Sorting.top {ω : K} {n : ℕ} {x a : ℕ → K} (ha : Sorting ω n 1 x a) {k : ℕ} (hk : k < n) :
    a k = dft ω n x k := by
  have h := ha 0 k Nat.one_pos hk
  rw [zero_mul, zero_add] at h
  rw [h]
  refine sum_congr rfl fun t _ => ?_
  rw [mul_one, zero_add]

end Dft
