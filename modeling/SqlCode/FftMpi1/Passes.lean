import SqlCode.Dft.Stages
import SqlCode.Dft.Circle
import Mathlib.Data.Nat.Factorization.Basic

/-!
# Passes whose exponent is the block

A pass in natural order should turn block `c` by the power `bitRev l c` of the root of
level `l + 1`. The passes here take the power `c` instead (`WrongPasses`). The two agree
on the first two levels, and where the upper half of the block is zero the twiddle
factor does not matter. That is the case in every block but the first when all samples
at odd multiples of `2^i` are equal, for each `i ≤ M - 3` (`OddsAgree`); so on such
samples the passes leave the transform (`WrongPasses.right`).

No other real samples come out right (`WrongPasses.oddsAgree`). A right result makes the
final odd cells those of a real signal's transform, so that opposite cells are conjugates
(`FinalConj`). The passes can be followed backwards from there, since the exponents of
opposite blocks have a constant sum (`ConjBlocks.pass`). At each level the second block is
its own opposite. Its values, which are real, are then also multiples of themselves by a root
other than one; they are zero, the halves of the first block agree, and the odd samples are
constant. The even samples have been through the passes of a length half as large, which is
the induction.
-/

namespace SqlCode.FftMpi1

open Dft Cplx

/-- The arrays before and after each of `M` passes in which block `c` has exponent `c`. -/
def WrongPasses (M : ℕ) (A : ℕ → ℕ → Cplx ℝ) : Prop :=
  ∀ l, l < M → Butterflies (fun c _ => circleTower.root (l + 1) ^ c) (2 ^ (M - (l + 1))) (2 ^ l)
    (fun _ _ => True) (A l) (A (l + 1))

/-- The passes leave the transform, in bit-reversed order. -/
def Right (M : ℕ) (A : ℕ → ℕ → Cplx ℝ) : Prop :=
  ∀ k, k < 2 ^ M → A M (bitRev M k) = dft (circleTower.root M) (2 ^ M) (A 0) k

/-! ### Samples that come out right -/

/-- For each `i ≤ M - 3`, the samples at the odd multiples of `2^i` are equal. -/
def OddsAgree {α : Type} (M : ℕ) (x : ℕ → α) : Prop :=
  ∀ i j, i + 3 ≤ M → (2 * j + 1) * 2 ^ i < 2 ^ M → x ((2 * j + 1) * 2 ^ i) = x (2 ^ i)

/-- A column of samples that starts inside a block of a later level is constant. -/
theorem OddsAgree.column {α : Type} {M l u j : ℕ} {x : ℕ → α} (hx : OddsAgree M x) (hl : 2 ≤ l)
    (hlM : l ≤ M) (hu : 0 < u) (hu' : u < 2 ^ (M - l)) (hj : j < 2 ^ l) :
    x (j * 2 ^ (M - l) + u) = x u := by
  -- `u` is an odd multiple of some `2 ^ i`, and so is every cell of its column
  obtain ⟨i, t, ⟨t, rfl⟩, rfl⟩ := Nat.exists_eq_two_pow_mul_odd (n := u) (by omega)
  have hi : i < M - l := by
    rw [← Nat.pow_lt_pow_iff_right (a := 2) (by decide)]
    exact lt_of_le_of_lt (Nat.le_mul_of_pos_right _ (by omega)) hu'
  have hsplit : 2 ^ (M - l) = 2 ^ i * (2 * 2 ^ (M - l - i - 1)) := by
    rw [mul_pow_sub_one (by omega), pow_mul_pow_sub 2 hi.le]
  have hcol : j * 2 ^ (M - l) + 2 ^ i * (2 * t + 1)
      = (2 * (j * 2 ^ (M - l - i - 1) + t) + 1) * 2 ^ i := by
    rw [hsplit]
    ring
  have hbound : j * 2 ^ (M - l) + 2 ^ i * (2 * t + 1) < 2 ^ M := by
    have h := block_lt hj hu'
    rwa [pow_mul_pow_sub 2 hlM] at h
  have hhead : 2 ^ i * (2 * t + 1) = (2 * t + 1) * 2 ^ i := mul_comm _ _
  rw [hcol, hx i _ (by omega) (by rw [← hcol]; exact hbound), hhead,
    hx i t (by omega) (by rw [← hhead]; omega)]

/-- **One pass**, on such samples. The twiddle factor of block `c` is right on the first
two levels and at `c = 0`, and multiplies zero elsewhere. -/
theorem columnDft_succ {M l : ℕ} (hl : l < M) {x a a' : ℕ → Cplx ℝ} (hx : OddsAgree M x)
    (ha : ColumnDft circleTower M l x a)
    (hpass : Butterflies (fun c _ => circleTower.root (l + 1) ^ c)
      (2 ^ (M - (l + 1))) (2 ^ l) (fun _ _ => True) a a') :
    ColumnDft circleTower M (l + 1) x a' := by
  refine ha.succ hl hpass fun c o hc ho => ?_
  rcases (by omega : l = 0 ∨ l = 1 ∨ 2 ≤ l) with rfl | rfl | hl2
  · obtain rfl : c = 0 := by simpa using hc
    exact Or.inl rfl
  · -- one bit is its own reversal
    rcases (by omega : c = 0 ∨ c = 1) with rfl | rfl <;> exact Or.inl rfl
  · rcases Nat.eq_zero_or_pos c with rfl | hc0
    · exact Or.inl (by rw [bitRev_at_zero])
    · -- the column is constant, and so has no frequency but zero
      apply Or.inr
      have hw := two_pow_sub hl
      have hpos := Nat.two_pow_pos (M - (l + 1))
      have hrev : ¬ 2 ^ l ∣ bitRev l c := by
        intro hdvd
        have hzero := Nat.eq_zero_of_dvd_of_lt hdvd (bitRev_lt l c)
        rw [bitRev_eq_iff l hc (Nat.two_pow_pos l), bitRev_at_zero] at hzero
        omega
      rw [add_assoc, ha c _ hc (by omega)]
      refine (dft_congr (fun j hj => ?_) _).trans
        ((circleTower.fourierRoot l).dft_const (x (o + 2 ^ (M - (l + 1)))) hrev)
      exact hx.column hl2 (by omega) (by omega) (by omega) hj

/-- **All passes**, on such samples. -/
theorem WrongPasses.right {M : ℕ} {A : ℕ → ℕ → Cplx ℝ} (hA : WrongPasses M A)
    (hx : OddsAgree M (A 0)) : Right M A := by
  have hcolumn : ∀ l, l ≤ M → ColumnDft circleTower M l (A 0) (A l) := by
    intro l
    induction l with
    | zero => exact fun _ => ColumnDft.start _ _ _
    | succ l ih => exact fun hl => columnDft_succ hl hx (ih (by omega)) (hA l hl)
  intro k hk
  rw [(hcolumn M le_rfl).top (bitRev_lt M k), bitRev_bitRev M hk]

/-! ### Only these do -/

/-- The even cells, and the odd ones, go through passes of their own. -/
theorem WrongPasses.cells {M e : ℕ} {A : ℕ → ℕ → Cplx ℝ} (hA : WrongPasses (M + 1) A)
    (he : e < 2) : WrongPasses M fun l i => A l (2 * i + e) := by
  intro l hl
  have hpass := hA l (by omega)
  have hw : 2 ^ (M + 1 - (l + 1)) = 2 * 2 ^ (M - (l + 1)) := by
    rw [Nat.add_sub_add_right, two_pow_sub hl]
  -- such a cell has its partner at an even distance
  rw [hw] at hpass
  generalize 2 ^ (M - (l + 1)) = h at hpass
  have hlo : ∀ b o, 2 * (b * (2 * h) + o) + e = b * (2 * (2 * h)) + (2 * o + e) := by
    intro b o
    ring
  have hhi : ∀ b o,
      2 * (b * (2 * h) + o + h) + e = b * (2 * (2 * h)) + (2 * o + e) + 2 * h := by
    intro b o
    ring
  constructor
  · intro b o hb ho _
    beta_reduce
    rw [hlo, hhi, hpass.lo_done b (2 * o + e) hb (by omega) trivial]
  · intro b o hb ho _
    beta_reduce
    rw [hlo, hhi, hpass.hi_done b (2 * o + e) hb (by omega) trivial]
  · exact fun b o _ _ hD => absurd trivial hD
  · exact fun b o _ _ hD => absurd trivial hD
  · intro i hi
    refine hpass.frame _ ?_
    rw [show 2 ^ l * (2 * (2 * h)) = 2 * (2 ^ l * (2 * h)) by ring]
    omega

/-- The last pass of a right result: the two halves before it, up to their powers. -/
theorem Right.halves {m : ℕ} {A : ℕ → ℕ → Cplx ℝ} (hA : WrongPasses (m + 1) A)
    (hright : Right (m + 1) A) {r : ℕ} (hr : r < 2 ^ m) :
    A m (2 * bitRev m r) = dft (circleTower.root m) (2 ^ m) (fun t => A 0 (2 * t)) r ∧
      circleTower.root (m + 1) ^ bitRev m r * A m (2 * bitRev m r + 1)
        = circleTower.root (m + 1) ^ r
          * dft (circleTower.root m) (2 ^ m) (fun t => A 0 (2 * t + 1)) r := by
  have hpass := hA m (by omega)
  rw [Nat.sub_self, pow_zero] at hpass
  have hc := bitRev_lt m r
  have hlo := hpass.lo_done (bitRev m r) 0 hc one_pos trivial
  have hhi := hpass.hi_done (bitRev m r) 0 hc one_pos trivial
  rw [add_zero, mul_one, mul_comm (bitRev m r) 2] at hlo hhi
  -- where the two outputs belong
  have hsize : 2 ^ (m + 1) = 2 * 2 ^ m := pow_succ' 2 m
  have hrevlo : bitRev (m + 1) r = 2 * bitRev m r := by
    have h := bitRev_add_top m (b := 0) hr (by omega)
    rwa [zero_mul, zero_add, add_zero] at h
  have hrevhi : bitRev (m + 1) (r + 2 ^ m) = 2 * bitRev m r + 1 := by
    have h := bitRev_add_top m (b := 1) hr (by omega)
    rwa [one_mul, add_comm (2 ^ m)] at h
  have hlo' := hright r (by omega)
  have hhi' := hright (r + 2 ^ m) (by omega)
  rw [hrevlo, hsize, dft_two_mul, circleTower.root_sq, hlo] at hlo'
  rw [hrevhi, hsize, dft_two_mul_add (circleTower.root_pow_half m), circleTower.root_sq, hhi]
    at hhi'
  exact eq_of_add_sub hlo' hhi'

section Opposite

variable {m r : ℕ} {B : ℕ → ℕ → Cplx ℝ}

/-- At offset `u`, opposite blocks of `w` cells hold conjugate values up to the power `e`. -/
def ConjBlocks (ζ : Cplx ℝ) (r w u e : ℕ) (a : ℕ → Cplx ℝ) : Prop :=
  ∀ c c', Opposite r c c' → conj (a (c * w + u)) = ζ ^ e * a (c' * w + u)

/-- **One pass backwards.** The twiddle factors of opposite blocks have the same product. -/
theorem ConjBlocks.pass {l h o e : ℕ} {a a' : ℕ → Cplx ℝ} (hr : r + 1 ≤ l) (hl : l < m)
    (hpass : Butterflies (fun c _ => circleTower.root (l + 1) ^ c) h (2 ^ l) (fun _ _ => True) a a')
    (ho : o < h) (hconj : ConjBlocks (circleTower.root (m + 1)) (r + 1) h o e a') :
    ConjBlocks (circleTower.root (m + 1)) r (2 * h) o e a ∧
      ConjBlocks (circleTower.root (m + 1)) r (2 * h) (o + h)
        (e + 2 ^ (m - l) * (3 * 2 ^ r - 1) + 2 ^ m) a := by
  have hfit : 2 ^ (r + 1) ≤ 2 ^ l := Nat.pow_le_pow_right Nat.two_pos hr
  -- the sum and the difference in a block, against the difference and the sum in its opposite
  have hhalves : ∀ c c', Opposite r c c' →
      conj (a (c * (2 * h) + o)) = circleTower.root (m + 1) ^ e * a (c' * (2 * h) + o) ∧
        conj (circleTower.root (l + 1) ^ c * a (c * (2 * h) + o + h))
          = -(circleTower.root (m + 1) ^ e
            * (circleTower.root (l + 1) ^ c' * a (c' * (2 * h) + o + h))) := by
    intro c c' hc
    have hlo := hconj _ _ hc.child
    have hhi := hconj _ _ hc.symm.child.symm
    have hc2 : ∀ c, 2 * c * h + o = c * (2 * h) + o := fun c => by ring
    have hc21 : ∀ c, (2 * c + 1) * h + o = c * (2 * h) + o + h := fun c => by ring
    have hlt := lt_of_lt_of_le hc.lt hfit
    have hlt' := lt_of_lt_of_le hc.symm.lt hfit
    rw [hc2, hc21, hpass.lo_done c o hlt ho trivial, hpass.hi_done c' o hlt' ho trivial, map_add,
      mul_sub, sub_eq_add_neg] at hlo
    rw [hc2, hc21, hpass.hi_done c o hlt ho trivial, hpass.lo_done c' o hlt' ho trivial, map_sub,
      mul_add, ← sub_neg_eq_add] at hhi
    exact eq_of_add_sub hlo hhi
  refine ⟨fun c c' hc => (hhalves c c' hc).1, fun c c' hc => ?_⟩
  -- in the upper halves the two factors are left, and their exponents add up
  have hroot := circleTower.root_pow_two_pow (l + 1) (m - l)
  rw [show l + 1 + (m - l) = m + 1 by omega] at hroot
  have hsum : 3 * 2 ^ r - 1 = c + c' := by rw [← hc.2.2, Nat.add_sub_cancel]
  rw [← add_assoc, ← add_assoc, conj_eq_of_conj_mul (circleTower_unitary _) (hhalves c c' hc).2,
    pow_add, pow_add, pow_mul, hroot, circleTower.root_pow_half, hsum, pow_add]
  ring

/-- The final cells at opposite indices, each with its power, are negative conjugates. -/
def FinalConj (m r : ℕ) (B : ℕ → ℕ → Cplx ℝ) : Prop :=
  ∀ b b', Opposite r b b' → conj (circleTower.root (m + 1) ^ b * B m b)
    = -(circleTower.root (m + 1) ^ b' * B m b')

theorem FinalConj.conjBlocks (h : FinalConj m r B) :
    ConjBlocks (circleTower.root (m + 1)) r 1 0 (3 * 2 ^ r - 1 + 2 ^ m) (B m) := by
  intro b b' hb
  have hsum : 3 * 2 ^ r - 1 = b + b' := by rw [← hb.2.2, Nat.add_sub_cancel]
  rw [mul_one, mul_one, add_zero, add_zero,
    conj_eq_of_conj_mul (circleTower_unitary _) (h b b' hb), hsum, pow_add, pow_add,
    circleTower.root_pow_half]
  ring

/-- **Passes backwards.** The power of the root depends on the offset alone, and is odd. -/
theorem WrongPasses.conjBlocks (hB : WrongPasses m B) (hr : 1 ≤ r) (hrm : r < m)
    (hfinal : FinalConj m r B) {l j d u : ℕ} (hl : l + d = m) (hj : j + d = r) (hu : u < 2 ^ d) :
    ∃ e, e % 2 = 1 ∧ ConjBlocks (circleTower.root (m + 1)) j (2 ^ d) u e (B l) := by
  have hm : 2 ^ m = 2 * 2 ^ (m - 1) := (mul_pow_sub_one (by omega) 2).symm
  induction d generalizing l j u with
  | zero =>
    obtain rfl : u = 0 := by simpa using hu
    obtain rfl : l = m := hl
    obtain rfl : j = r := hj
    have hr2 : 2 ^ j = 2 * 2 ^ (j - 1) := (mul_pow_sub_one (by omega) 2).symm
    have hpos := Nat.two_pow_pos (j - 1)
    exact ⟨3 * 2 ^ j - 1 + 2 ^ l, by omega, hfinal.conjBlocks⟩
  | succ d ih =>
    have hpass := hB l (by omega)
    rw [show m - (l + 1) = d by omega] at hpass
    -- the offset is in the lower or the upper half of its block
    have hchild : ∀ o, o < 2 ^ d → ∃ e, e % 2 = 1 ∧
        ConjBlocks (circleTower.root (m + 1)) (j + 1) (2 ^ d) o e (B (l + 1)) :=
      fun o ho => ih (by omega) (by omega) ho
    rw [pow_succ'] at hu ⊢
    rcases Nat.lt_or_ge u (2 ^ d) with ho | ho
    · obtain ⟨e, he, hconj⟩ := hchild u ho
      exact ⟨e, he, (hconj.pass (by omega) (by omega) hpass ho).1⟩
    · obtain ⟨o, rfl⟩ := Nat.exists_eq_add_of_le' ho
      obtain ⟨e, he, hconj⟩ := hchild o (by omega)
      refine ⟨_, ?_, (hconj.pass (by omega) (by omega) hpass (by omega)).2⟩
      -- the exponent grows by even numbers
      rw [show m - l = d + 1 by omega, hm, pow_succ', mul_assoc]
      omega

/-- The first block has no twiddle factor. -/
theorem WrongPasses.first (hB : WrongPasses m B) {l d o : ℕ} (hl : l + (d + 1) = m)
    (ho : o < 2 ^ d) : B (l + 1) o = B l o + B l (o + 2 ^ d) ∧
      B (l + 1) (2 ^ d + o) = B l o - B l (o + 2 ^ d) := by
  have hpass := hB l (by omega)
  rw [show m - (l + 1) = d by omega] at hpass
  have hlo := hpass.lo_done 0 o (Nat.two_pow_pos l) ho trivial
  have hhi := hpass.hi_done 0 o (Nat.two_pow_pos l) ho trivial
  rw [zero_mul, zero_add, pow_zero, one_mul] at hlo hhi
  rw [add_comm (2 ^ d)]
  exact ⟨hlo, hhi⟩

/-- Real samples have real values in the first block of each level. -/
theorem WrongPasses.conj_first (hB : WrongPasses m B) (hreal : ∀ i, conj (B 0 i) = B 0 i)
    {l d u : ℕ} (hl : l + d = m) (hu : u < 2 ^ d) : conj (B l u) = B l u := by
  induction l generalizing d u with
  | zero => exact hreal u
  | succ l ih =>
    have hwidth : 2 ^ (d + 1) = 2 * 2 ^ d := pow_succ' 2 d
    have hlo : conj (B l u) = B l u := ih (d := d + 1) (by omega) (by omega)
    have hhi : conj (B l (u + 2 ^ d)) = B l (u + 2 ^ d) := ih (d := d + 1) (by omega) (by omega)
    rw [(hB.first (by omega) hu).1, map_add, hlo, hhi]

/-- **The halves of the first block agree** at each level. The block of their differences is
its own opposite, and its values are real. -/
theorem WrongPasses.halves_eq (hB : WrongPasses m B) (hm : 2 ≤ m)
    (hreal : ∀ i, conj (B 0 i) = B 0 i) (hfinal : ∀ r, r < m → FinalConj m r B) {l r o : ℕ}
    (hl : l + (r + 1) = m) (ho : o < 2 ^ r) : B l o = B l (o + 2 ^ r) := by
  have hpow : 2 ^ (r + 1) = 2 * 2 ^ r := pow_succ' 2 r
  have hfull := circleTower.root_pow_half m
  have hturn : ∃ e n, (circleTower.root (m + 1) ^ e) ^ n = -1 ∧
      ConjBlocks (circleTower.root (m + 1)) 0 (2 ^ r) o e (B (l + 1)) := by
    rcases Nat.eq_zero_or_pos r with rfl | hr
    · -- one cell, before any pass backwards: here the exponent is even
      obtain rfl : o = 0 := by simpa using ho
      obtain rfl : m = l + 1 := hl.symm
      refine ⟨_, 2 ^ l, ?_, (hfinal 0 (by omega)).conjBlocks⟩
      have heven : Even (2 ^ l) := Nat.even_pow.mpr ⟨even_two, by omega⟩
      rw [pow_zero, mul_one, pow_add, mul_pow, hfull, heven.neg_one_pow, mul_one, ← pow_mul]
      rw [← hfull, pow_succ']
    · obtain ⟨e, he, hconj⟩ := hB.conjBlocks hr (by omega) (hfinal r (by omega))
        (l := l + 1) (j := 0) (d := r) (by omega) (by omega) ho
      refine ⟨e, 2 ^ m, ?_, hconj⟩
      rw [pow_right_comm, hfull, (Nat.odd_iff.mpr he).neg_one_pow]
  obtain ⟨e, n, hn, hconj⟩ := hturn
  -- block one is its own opposite
  have hself := hconj 1 1 ⟨le_rfl, le_rfl, rfl⟩
  obtain ⟨-, hdiff⟩ := hB.first hl ho
  rw [one_mul, hdiff, map_sub, hB.conj_first hreal hl (by omega),
    hB.conj_first hreal hl (by omega)] at hself
  exact sub_eq_zero.mp (eq_zero_of_mul_self hn hself)

/-- **Conjugates at opposite cells** come from constant samples only. The induction is from
the last pass to the first. -/
theorem WrongPasses.constant (hB : WrongPasses m B) (hm : 2 ≤ m)
    (hreal : ∀ i, conj (B 0 i) = B 0 i) (hfinal : ∀ r, r < m → FinalConj m r B) {l d i : ℕ}
    (hl : l + d = m) (hi : i < 2 ^ d) : B l i = B l 0 := by
  induction d generalizing l i with
  | zero =>
    obtain rfl : i = 0 := by simpa using hi
    rfl
  | succ d ih =>
    have heq := fun {o} (ho : o < 2 ^ d) => hB.halves_eq hm hreal hfinal hl ho
    have hlow : ∀ o, o < 2 ^ d → B l o = B l 0 := by
      intro o ho
      -- the next level has twice the values
      have hsum : B l o + B l o = B l 0 + B l 0 := by
        calc B l o + B l o = B (l + 1) o := by rw [(hB.first hl ho).1, ← heq ho]
          _ = B (l + 1) 0 := ih (by omega) ho
          _ = B l 0 + B l 0 := by
            rw [(hB.first hl (Nat.two_pow_pos d)).1, ← heq (Nat.two_pow_pos d)]
      exact (eq_of_add_sub hsum (by rw [sub_self, sub_self])).1
    rw [pow_succ'] at hi
    rcases Nat.lt_or_ge i (2 ^ d) with ho | ho
    · exact hlow i ho
    · obtain ⟨o, rfl⟩ := Nat.exists_eq_add_of_le' ho
      rw [← heq (by omega), hlow o (by omega)]

/-- **What a right result says of the odd cells**: their final values are those of a real
signal's transform, whose negative frequencies are conjugate. -/
theorem Right.finalConj {A : ℕ → ℕ → Cplx ℝ} (hA : WrongPasses (m + 1) A)
    (hreal : ∀ i, conj (A 0 i) = A 0 i) (hright : Right (m + 1) A) (hr : r < m) :
    FinalConj m r fun l i => A l (2 * i + 1) := by
  intro b b' hb
  have hle : 2 ^ (r + 1) ≤ 2 ^ m := Nat.pow_le_pow_right Nat.two_pos hr
  have hsum := hb.bitRev_add hr
  have hk := bitRev_lt m b
  have hk' := bitRev_lt m b'
  have hodd := (Right.halves hA hright hk).2
  have hodd' := (Right.halves hA hright hk').2
  rw [bitRev_bitRev m (lt_of_lt_of_le hb.lt hle)] at hodd
  rw [bitRev_bitRev m (lt_of_lt_of_le hb.symm.lt hle)] at hodd'
  generalize bitRev m b = k at hsum hk hodd
  generalize bitRev m b' = k' at hsum hk' hodd'
  -- the two frequencies are negatives of each other
  have hmirror : mirror (2 ^ m) k = k' := by
    rw [mirror_of_pos (by omega) hk]
    omega
  have hconj : conj (dft (circleTower.root m) (2 ^ m) (fun t => A 0 (2 * t + 1)) k)
      = dft (circleTower.root m) (2 ^ m) (fun t => A 0 (2 * t + 1)) k' := by
    rw [map_dft, ← hmirror,
      dft_mirror_freq (circleTower.root_pow_full m) (circleTower_unitary m) _ hk]
    simp only [hreal]
  have hpow : circleTower.root (m + 1) ^ k * circleTower.root (m + 1) ^ k' = -1 := by
    rw [← pow_add, hsum, circleTower.root_pow_half]
  beta_reduce
  rw [hodd, hodd', map_mul, map_pow, hconj]
  have hunit : (circleTower.root (m + 1) * conj (circleTower.root (m + 1))) ^ k = 1 := by
    rw [circleTower_unitary, one_pow]
  rw [mul_pow] at hunit
  generalize dft (circleTower.root m) (2 ^ m) (fun t => A 0 (2 * t + 1)) k' = v
  linear_combination (conj (circleTower.root (m + 1)) ^ k * v) * hpow
    - (circleTower.root (m + 1) ^ k' * v) * hunit

end Opposite

/-- **Only such samples come out right.** The induction is on the number of passes. -/
theorem WrongPasses.oddsAgree {M : ℕ} {A : ℕ → ℕ → Cplx ℝ} (hA : WrongPasses M A)
    (hreal : ∀ i, conj (A 0 i) = A 0 i) (hright : Right M A) :
    OddsAgree M (A 0) := by
  induction M generalizing A with
  | zero => exact fun i j hi => absurd hi (by omega)
  | succ m ih =>
    have heven : OddsAgree m fun t => A 0 (2 * t) := by
      refine ih (A := fun l i => A l (2 * i)) (hA.cells two_pos) (fun i => hreal (2 * i)) ?_
      intro k hk
      exact (Right.halves hA hright hk).1
    intro i j hi hj
    cases i with
    | succ i =>
      -- an even sample
      rw [pow_succ] at hj
      have h := heven i j (by omega) (by rw [pow_succ', ← mul_assoc] at hj; omega)
      dsimp only at h
      rw [pow_succ', ← mul_assoc, mul_comm _ 2, mul_assoc]
      exact h
    | zero =>
      rw [pow_zero, mul_one, pow_succ'] at hj
      rw [pow_zero, mul_one]
      exact (hA.cells one_lt_two).constant (by omega) (fun i => hreal (2 * i + 1))
        (fun r hr => hright.finalConj hA hreal hr) (zero_add m) (by omega : j < 2 ^ m)

end SqlCode.FftMpi1
