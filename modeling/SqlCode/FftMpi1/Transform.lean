import SqlCode.FftMpi1.Reverse
import SqlCode.FftMpi1.Passes
import Mathlib.Data.Nat.Log

/-!
# What `fft_mpi1` computes with one process

The length is rounded up to a power of two (`calculateM_ends`) and the samples are padded
with zeros (`fillData_ends`). Each round of the loop over `lev` is a pass of butterflies
(`level_ends`), in which block `c` has the exponent `c * dist`; with exact tables that is
the power `c` of the root of the level (`twiddle_root`). So the program prints, in
bit-reversed order, what `M` such passes have made of the padded samples (`main_ends`).

Which of these are their transforms is a matter of the passes alone: those whose samples at
odd multiples agree (`main_transforms`), which for up to four samples all do
(`main_transforms_all`).
-/

namespace SqlCode.FftMpi1

open Exec Dft

/-! ### The length -/

/-- `calculate_M` finds the first power of two that is not below the length. -/
theorem calculateM_ends (n : ℕ) : Ends (calculateM n) fun M => M = Nat.clog 2 n := by
  refine (ends_while (n := Nat.clog 2 n) (fun t (s : ℕ × ℕ) => s = (t, 2 ^ t)) rfl
    ?round ?stop).bind ?_
  case round =>
    rintro t _ ht rfl
    refine ⟨?_, ends_pure ?_⟩
    · have hlt : ¬ n ≤ 2 ^ t := by
        rw [← Nat.clog_le_iff_le_pow (by decide)]
        omega
      simpa using hlt
    · rw [pow_succ]
  case stop =>
    rintro _ rfl
    simpa using Nat.le_pow_clog (by decide : 1 < 2) n
  · rintro _ rfl
    exact ends_pure rfl

section Fill

variable {R : Type} [Field R] {nLen : ℕ}

/-- The samples, followed by zeros. -/
def padded (n : ℕ) (data : ℕ → R) (i : ℕ) : Cplx R :=
  if i < n then Cplx.ofReal (data i) else 0

theorem fillData_ends {n : ℕ} (hn : n ≤ nLen) (data : ℕ → R) (aIn : Vector (Cplx R) nLen) :
    Ends (fillData n data aIn) fun a => cell a = padded n data := by
  refine (ends_forCells (fun i => Cplx.ofReal (data i)) (Nat.zero_le n)
    fun i a _ hi _ => ?_).bind fun a ha => ?_
  · rw [wr_eq a (by omega)]
    exact ends_pure ⟨cell_set_self _ _ _, fun t ht => cell_set_ne _ _ _ ht⟩
  refine (ends_forCells (fun _ => 0) hn fun i b _ hi _ => ?_).mono fun b hb => ?_
  · rw [wr_eq b hi]
    exact ends_pure ⟨cell_set_self _ _ _, fun t ht => cell_set_ne _ _ _ ht⟩
  funext i
  unfold padded
  split
  · next h => rw [hb.2 i (Or.inl h), ha.1 i (Nat.zero_le i) h]
  · next h =>
    by_cases hi : i < nLen
    · exact hb.1 i (by omega) hi
    · rw [cell, dif_neg hi]

end Fill

/-! ### One level -/

section Level

variable {R : Type} [Field R] {m wlen : ℕ}

theorem add_eq (c1 c2 : Cplx R) : add c1 c2 = c1 + c2 := rfl

theorem sub_eq (c1 c2 : Cplx R) : sub c1 c2 = c1 - c2 := rfl

theorem mul_eq (c1 c2 : Cplx R) : mul c1 c2 = c2 * c1 := by
  ext <;> simp [mul] <;> ring

/-- The statements of the loop over `k`. -/
theorem butterfly_ends (L : PowLibm R) {nLen dist s k : ℕ} (pIn : Vector (Cplx R) m)
    (w : Vector (Cplx R) wlen) (hdist : 0 < dist) (hk : k + dist < m) (hs : s < wlen) :
    Ends (butterfly L nLen dist s k pIn w) fun p => ∀ i, cell p.1 i =
      if i = k then cell pIn k + twiddle L nLen s * cell pIn (k + dist)
      else if i = k + dist then cell pIn k - twiddle L nLen s * cell pIn (k + dist)
      else cell pIn i := by
  have hk0 : k < m := by omega
  unfold butterfly
  simp only [wr_eq w hs, rd_eq _ hs, rd_eq pIn hk0, rd_eq pIn hk, wr_eq _ hk0, wr_eq _ hk,
    pure_bind, cell_set_self, add_eq, sub_eq, mul_eq]
  refine ends_pure fun i => ?_
  rw [cell_set, cell_set]

variable {h nb : ℕ}

/-- **The loop over `k`** does the butterflies at offset `t`, block after block. The
exponent of block `c` is `c * h`. -/
private theorem offset_ends (L : PowLibm R) {nLen t : ℕ} {a : ℕ → Cplx R} (ht : t < h)
    (hw : nb * h ≤ wlen) (pIn : Vector (Cplx R) (nb * (2 * h))) (w : Vector (Cplx R) wlen)
    (hx : Butterflies (fun c _ => twiddle L nLen (c * h)) h nb (fun _ o => o < t) a (cell pIn)) :
    Ends (forLoop t (nb * (2 * h)) (2 * h) (pIn, w, 0) fun k (pIn, w, c) => do
        let s := c * h
        let (pIn, w) ← butterfly L nLen h s k pIn w
        pure (pIn, w, c + 1)) fun p =>
      Butterflies (fun c _ => twiddle L nLen (c * h)) h nb (fun _ o => o < t + 1) a (cell p.1) := by
  rw [forLoop, block_rounds ht]
  -- the variable `c` counts the blocks
  refine (ends_forCount (fun c (p : Vector (Cplx R) (nb * (2 * h)) × Vector (Cplx R) wlen × ℕ) =>
    p.2.2 = c ∧ Butterflies (fun c _ => twiddle L nLen (c * h)) h nb
      (fun b o => o < t ∨ o = t ∧ b < c) a (cell p.1)) ⟨rfl, ?_⟩ ?_).mono fun p hp => ?_
  · exact hx.congr fun b o _ _ => by omega
  · rintro c ⟨y, v, c'⟩ hc ⟨hc', hy⟩
    obtain rfl : c' = c := hc'
    have hlt := block_lt (w := 2 * h) hc (by omega : t + h < 2 * h)
    have hs := block_lt (w := h) hc (by omega : 0 < h)
    rw [add_comm t]
    refine (butterfly_ends L y v (by omega) (by omega) (by omega)).bind fun q hq =>
      ends_pure ⟨rfl, ?_⟩
    exact (hy.step_write hc ht (by omega) hq).congr fun b o _ _ => by omega
  · exact hp.2.congr fun b o hb _ => by omega

/-- **One level** is a pass of butterflies. -/
theorem level_ends (L : PowLibm R) {nLen lev : ℕ} (hm : m = nb * (2 * h)) (hw : nb * h ≤ wlen)
    (hown : powInt L (L.log m / L.log (2 : ℕ) - lev) = h)
    (hall : powInt L (L.log nLen / L.log (2 : ℕ) - lev) = h)
    (pIn : Vector (Cplx R) m) (w : Vector (Cplx R) wlen) :
    Ends (ownLevel L nLen lev pIn w) fun p =>
      Butterflies (fun c _ => twiddle L nLen (c * h)) h nb (fun _ _ => True) (cell pIn)
        (cell p.1) := by
  subst hm
  unfold ownLevel
  rw [hown, hall]
  -- before round `t` the butterflies at the offsets below `t` are done
  refine (ends_forRange (Nat.zero_le h)
    (fun t (p : Vector (Cplx R) (nb * (2 * h)) × Vector (Cplx R) wlen) =>
      Butterflies (fun c _ => twiddle L nLen (c * h)) h nb (fun _ o => o < t) (cell pIn)
        (cell p.1)) ?start ?round).mono ?done
  case start => exact (Butterflies.start _ _ _ _).congr fun b o _ _ => by simp
  case done => exact fun p hp => hp.congr fun b o _ ho => by simpa using ho
  case round =>
    rintro t ⟨y, v⟩ - ht hy
    exact (offset_ends L ht hw y v hy).bind fun p hp => ends_pure hp

end Level

/-! ### The copies and the output -/

section Copy

variable {α : Type} [Zero α] {n : ℕ}

theorem copy_ends (src dst : Vector α n) :
    Ends (forRange 0 n dst fun i dst => do wr dst i (← rd src i)) fun y => y = src := by
  refine (ends_forCells (cell src) (Nat.zero_le n) fun i y _ hi _ => ?_).mono fun y hy =>
    ext_cell fun i hi => hy.1 i (Nat.zero_le i) hi
  rw [rd_eq src hi, pure_bind, wr_eq y hi]
  exact ends_pure ⟨cell_set_self _ _ _, fun t ht => cell_set_ne _ _ _ ht⟩

theorem toList_eq_map (x : Vector α n) : x.toList = (List.range n).map (cell x) := by
  apply List.ext_getElem
  · simp
  · intro i h1 h2
    have hi : i < n := by simpa using h2
    simp [cell_eq hi]

end Copy

/-- `printResult` prints the data in bit-reversed order. -/
theorem printResult_ends (junk : ℕ → Cplx ℝ) (junkInt : ℕ → ℕ) {M : ℕ}
    (aIn : Vector (Cplx ℝ) (2 ^ M)) :
    Ends (printResult exactPowLibm junk junkInt M aIn) fun out =>
      out = (List.range (2 ^ M)).map fun k => cell aIn (bitRev M k) := by
  unfold printResult
  refine (reverse_ends junkInt M).bind fun b hb => ?_
  refine (ends_forCells (fun k => cell aIn (bitRev M k)) (Nat.zero_le _)
    fun i y _ hi _ => ?_).bind fun aOut hOut => ends_pure ?_
  · rw [rd_eq b hi, pure_bind, hb i hi, rd_eq aIn (bitRev_lt M i), pure_bind, wr_eq y hi]
    exact ends_pure ⟨cell_set_self _ _ _, fun t ht => cell_set_ne _ _ _ ht⟩
  · rw [toList_eq_map]
    exact List.map_congr_left fun k hk =>
      hOut.1 k (Nat.zero_le k) (List.mem_range.mp hk)

/-! ### All levels -/

theorem log_ratio (M : ℕ) :
    exactPowLibm.log ((2 ^ M : ℕ) : ℝ) / exactPowLibm.log ((2 : ℕ) : ℝ) = M := by
  change Real.log ((2 ^ M : ℕ) : ℝ) / Real.log ((2 : ℕ) : ℝ) = M
  have hlog : Real.log ((2 : ℕ) : ℝ) ≠ 0 := (Real.log_pos (by norm_num)).ne'
  rw [Nat.cast_pow, Real.log_pow, mul_div_cancel_right₀ _ hlog]

/-- The twiddle factors of the level after the first `l`. -/
theorem twiddle_root {M l : ℕ} (hl : l < M) (c : ℕ) :
    twiddle exactPowLibm (2 ^ M) (c * 2 ^ (M - (l + 1))) = circleTower.root (l + 1) ^ c := by
  have hangle : ∀ s : ℕ, twiddle exactPowLibm (2 ^ M) s = circleTower.root M ^ s := by
    intro s
    have h : (s : ℝ) * -(2 * Real.pi / 2 ^ M)
        = -((2 : ℕ) * Real.pi * s / ((2 ^ M : ℕ) : ℝ)) := by
      push_cast
      ring
    rw [circleTower_root, cis_pow, h, ← conj_cis]
    rfl
  have hroot := circleTower.root_pow_two_pow (l + 1) (M - (l + 1))
  rw [show l + 1 + (M - (l + 1)) = M by omega] at hroot
  rw [hangle, mul_comm, pow_mul, hroot]

/-- **All levels** are passes in which block `c` has the exponent `c`. -/
theorem ownLevels_ends {M wlen : ℕ} (pIn : Vector (Cplx ℝ) (2 ^ M)) (w : Vector (Cplx ℝ) wlen)
    (hw : 2 ^ M / 2 ≤ wlen) :
    Ends (ownLevels exactPowLibm (2 ^ M) pIn w) fun s =>
      ∃ A, WrongPasses M A ∧ A 0 = cell pIn ∧ A M = cell s.pIn := by
  unfold ownLevels
  -- after `l` rounds, `A` records the arrays before each of them
  refine (ends_while (n := M) (fun l (s : Levels ℝ (2 ^ M) wlen) => s.lev = l + 1 ∧
    ∃ A : ℕ → ℕ → Cplx ℝ, (∀ t, t < l → Butterflies (fun c _ => circleTower.root (t + 1) ^ c)
      (2 ^ (M - (t + 1))) (2 ^ t) (fun _ _ => True) (A t) (A (t + 1))) ∧
      A 0 = cell pIn ∧ A l = cell s.pIn)
    ⟨rfl, fun _ => cell pIn, fun t ht => absurd ht (by omega), rfl, rfl⟩ ?round ?stop).mono
      fun s hs => hs.2
  case stop =>
    rintro ⟨lev, y, v⟩ ⟨hlev, -⟩
    obtain rfl : lev = M + 1 := hlev
    rw [log_ratio]
    simp
  case round =>
    rintro l ⟨lev, y, v⟩ hl ⟨hlev, A, hA, hA0, hAl⟩
    obtain rfl : lev = l + 1 := hlev
    refine ⟨?_, ?_⟩
    · rw [log_ratio]
      simpa using (by exact_mod_cast hl : ((l + 1 : ℕ) : ℝ) ≤ M)
    -- the distance, computed with logarithms, is half the length of a block
    · have hhalf : 2 ^ M = 2 ^ l * (2 * 2 ^ (M - (l + 1))) := by
        rw [← two_pow_sub hl, pow_mul_pow_sub 2 hl.le]
      have hlen : 2 ^ l * 2 ^ (M - (l + 1)) ≤ wlen := by
        rw [mul_left_comm] at hhalf
        omega
      have hdist : powInt exactPowLibm (exactPowLibm.log ((2 ^ M : ℕ) : ℝ)
          / exactPowLibm.log ((2 : ℕ) : ℝ) - ((l + 1 : ℕ) : ℝ)) = 2 ^ (M - (l + 1)) := by
        rw [log_ratio, powInt_sub hl]
      refine (level_ends exactPowLibm hhalf hlen hdist hdist y v).bind fun p hp =>
        ends_pure ⟨rfl, Function.update A (l + 1) (cell p.1), fun t ht => ?_, ?_, ?_⟩
      -- the round that has been done, or an earlier one
      · rcases (by omega : t = l ∨ t < l) with rfl | ht'
        · rw [Function.update_self, Function.update_of_ne (by omega), hAl]
          simp only [twiddle_root hl] at hp
          exact hp
        · rw [Function.update_of_ne (by omega), Function.update_of_ne (by omega)]
          exact hA t ht'
      · rw [Function.update_of_ne (by omega), hA0]
      · rw [Function.update_self]

/-- With one process, the first loop has done all levels. -/
theorem mixedLevels_eq {M wlen : ℕ} (pIn : Vector (Cplx ℝ) (2 ^ M)) (w : Vector (Cplx ℝ) wlen) :
    mixedLevels exactPowLibm 0 1 (2 ^ M) pIn w = pure (pIn, w) := by
  have hlo : exactPowLibm.toInt ((M : ℝ) + 1) = M + 1 := by
    change ⌊(M : ℝ) + 1⌋₊ = M + 1
    exact_mod_cast Nat.floor_natCast (R := ℝ) (M + 1)
  have hhi : exactPowLibm.toInt (M : ℝ) = M := Nat.floor_natCast M
  unfold mixedLevels
  rw [log_ratio, hlo, hhi, forRange, Nat.sub_self]
  rfl

/-- **The program** prints, in bit-reversed order, what the passes have made of the padded
samples. -/
theorem main_ends (junk : ℕ → Cplx ℝ) (junkInt : ℕ → ℕ) {n M : ℕ} (hM : M = Nat.clog 2 n)
    (data : ℕ → ℝ) :
    Ends (main exactPowLibm junk junkInt n data) fun out =>
      ∃ A, WrongPasses M A ∧ A 0 = padded n data ∧
        out = (List.range (2 ^ M)).map fun k => A M (bitRev M k) := by
  have hn : n ≤ 2 ^ M := by
    rw [hM]
    exact Nat.le_pow_clog (by decide) n
  have hcalc := calculateM_ends n
  rw [← hM] at hcalc
  unfold main
  refine hcalc.bind fun M' hM' => ?_
  subst hM'
  have hlen := powInt_natCast M'
  have hdiv : 2 ^ M' / 1 = 2 ^ M' := Nat.div_one _
  generalize powInt exactPowLibm (M' : ℝ) = nLen at hlen
  subst hlen
  refine (fillData_ends hn data _).bind fun aIn hfill => ?_
  generalize 2 ^ M' / 1 = m at hdiv
  subst hdiv
  simp only [mul_one]
  -- with one process every copy is the whole array
  refine (copy_ends aIn _).bind fun pIn hpIn => ?_
  subst hpIn
  refine (ownLevels_ends pIn _ le_rfl).bind ?_
  rintro s ⟨A, hA, hA0, hAM⟩
  refine (copy_ends s.pIn _).bind fun aIn₁ h₁ => ?_
  subst h₁
  refine (copy_ends s.pIn _).bind fun pIn₁ h₂ => ?_
  subst h₂
  rw [mixedLevels_eq, pure_bind]
  refine (copy_ends s.pIn _).bind fun aIn₂ h₃ => ?_
  subst h₃
  refine (printResult_ends junk junkInt s.pIn).mono fun out hout => ⟨A, hA, ?_, ?_⟩
  · rw [hA0, hfill]
  · rw [hout, hAM]

/-! ### Which inputs it transforms -/

/-- What the program should print at `k`: the transform of the padded samples. -/
noncomputable def spectrum (n : ℕ) (data : ℕ → ℝ) (k : ℕ) : ℂ :=
  ∑ j ∈ Finset.range (2 ^ Nat.clog 2 n), (if j < n then (data j : ℂ) else 0) *
    Complex.exp (-(2 : ℕ) * Real.pi * Complex.I * j * k / (2 ^ Nat.clog 2 n : ℕ))

/-- On this input, the program prints the transform. -/
def Transforms (junk : ℕ → Cplx ℝ) (junkInt : ℕ → ℕ) (n : ℕ) (data : ℕ → ℝ) : Prop :=
  ∃ out, Returns (main exactPowLibm junk junkInt n data) out ∧
    out.map Cplx.toComplex = (List.range (2 ^ Nat.clog 2 n)).map (spectrum n data)

theorem toComplex_dft (n : ℕ) (data : ℕ → ℝ) (k : ℕ) :
    Cplx.toComplex (dft (circleTower.root (Nat.clog 2 n)) (2 ^ Nat.clog 2 n) (padded n data) k)
      = spectrum n data k := by
  rw [map_dft]
  refine Finset.sum_congr rfl fun j _ => ?_
  rw [toComplex_root, ← Complex.exp_nat_mul]
  congr 1
  · dsimp only [padded]
    by_cases hj : j < n
    · rw [if_pos hj, if_pos hj]
      apply Complex.ext <;> simp
    · rw [if_neg hj, if_neg hj, map_zero]
  · congr 1
    push_cast
    ring

/-- The program prints the transform if and only if its passes are right. -/
theorem transforms_iff (junk : ℕ → Cplx ℝ) (junkInt : ℕ → ℕ) (n : ℕ) (data : ℕ → ℝ) :
    ∃ A, WrongPasses (Nat.clog 2 n) A ∧ A 0 = padded n data ∧
      (Transforms junk junkInt n data ↔ Right (Nat.clog 2 n) A) := by
  obtain ⟨out, hout, A, hA, hA0, rfl⟩ := main_ends junk junkInt rfl data
  refine ⟨A, hA, hA0, ?_⟩
  have hlist : ∀ f g : ℕ → ℂ, (List.range (2 ^ Nat.clog 2 n)).map f
      = (List.range (2 ^ Nat.clog 2 n)).map g ↔ ∀ k, k < 2 ^ Nat.clog 2 n → f k = g k := by
    intro f g
    simp [List.map_inj_left]
  constructor
  · -- there is one output only
    rintro ⟨out', hout', heq⟩
    rw [← hout.unique hout', List.map_map, hlist] at heq
    intro k hk
    apply Cplx.toComplex_injective
    rw [hA0, toComplex_dft]
    exact heq k hk
  · intro h
    refine ⟨_, hout, ?_⟩
    rw [List.map_map, hlist]
    intro k hk
    rw [← toComplex_dft, ← hA0, ← h k hk]
    rfl

/-- The samples of a unit impulse. -/
def impulse (d j : ℕ) : ℚ :=
  if j = d then 1 else 0

/-- For more than four samples, the impulse at `2^(M-3)` does not have its odd multiples
agree. -/
theorem impulse_not_oddsAgree {n : ℕ} (hn : 4 < n) :
    ¬ OddsAgree (Nat.clog 2 n)
      (padded n fun j => (impulse (2 ^ (Nat.clog 2 n - 3)) j : ℝ)) := by
  intro h
  have h3 : 2 < Nat.clog 2 n := by
    rw [Nat.lt_clog_iff_pow_lt (by decide)]
    omega
  have hd : 2 ^ (Nat.clog 2 n - 3) < n := by
    rw [← Nat.lt_clog_iff_pow_lt (by decide)]
    omega
  generalize Nat.clog 2 n = M at h h3 hd
  have hM : 2 ^ M = 2 ^ 3 * 2 ^ (M - 3) := (pow_mul_pow_sub 2 h3).symm
  have hpos := Nat.two_pow_pos (M - 3)
  -- it is one at `2^(M-3)` and zero at three times that
  have hodd := h (M - 3) 1 (by omega) (by omega)
  have hne : (2 * 1 + 1) * 2 ^ (M - 3) ≠ 2 ^ (M - 3) := by omega
  dsimp only [padded, impulse] at hodd
  rw [if_pos hd, if_pos rfl, if_neg hne, Rat.cast_zero, map_zero, ite_self] at hodd
  have hreal := congrArg Cplx.real hodd
  norm_num at hreal

theorem transforms_of_oddsAgree {junk : ℕ → Cplx ℝ} {junkInt : ℕ → ℕ} {n : ℕ} {data : ℕ → ℝ}
    (hodd : OddsAgree (Nat.clog 2 n) (padded n data)) : Transforms junk junkInt n data := by
  obtain ⟨A, hA, hA0, hiff⟩ := transforms_iff junk junkInt n data
  rw [← hA0] at hodd
  exact hiff.mpr (hA.right hodd)

theorem oddsAgree_of_transforms {junk : ℕ → Cplx ℝ} {junkInt : ℕ → ℕ} {n : ℕ} {data : ℕ → ℝ}
    (h : Transforms junk junkInt n data) : OddsAgree (Nat.clog 2 n) (padded n data) := by
  obtain ⟨A, hA, hA0, hiff⟩ := transforms_iff junk junkInt n data
  rw [← hA0]
  refine hA.oddsAgree (fun i => ?_) (hiff.mp h)
  rw [hA0]
  dsimp only [padded]
  split
  · exact Cplx.conj_ofReal _
  · exact map_zero _

/-- **Which inputs `fft_mpi1` transforms**: those whose padded samples at the odd multiples
of `2^i` are equal, for each `i ≤ M - 3`. Powers of two are read as exact: for a length above
`2^30` the `int` that `calculate_M` doubles would overflow. -/
theorem main_transforms (junk : ℕ → Cplx ℝ) (junkInt : ℕ → ℕ) (n : ℕ) (data : ℕ → ℝ) :
    Transforms junk junkInt n data ↔ OddsAgree (Nat.clog 2 n) (padded n data) :=
  ⟨oddsAgree_of_transforms, transforms_of_oddsAgree⟩

/-- All inputs of a length come out right if and only if it is at most four. -/
theorem main_transforms_all (junk : ℕ → Cplx ℝ) (junkInt : ℕ → ℕ) (n : ℕ) :
    (∀ data, Transforms junk junkInt n data) ↔ n ≤ 4 := by
  constructor
  · intro hall
    by_contra h4
    exact impulse_not_oddsAgree (by omega) (oddsAgree_of_transforms (hall _))
  · intro h4 data
    apply transforms_of_oddsAgree
    -- up to four samples there is no such `i`
    intro i j hi
    have hle : Nat.clog 2 n ≤ 2 := (Nat.clog_le_iff_le_pow (by decide)).mpr (by omega)
    omega

/-- **Eight samples of an impulse at one** do not come out as their transform. -/
theorem main_wrong_eight :
    ¬ Transforms (fun _ => 0) (fun _ => 0) 8 (fun j => (impulse 1 j : ℝ)) := by
  intro h
  have hone : 2 ^ (Nat.clog 2 8 - 3) = 1 := by decide
  have hbad := impulse_not_oddsAgree (n := 8) (by decide)
  rw [hone] at hbad
  exact hbad (oddsAgree_of_transforms h)

end SqlCode.FftMpi1
