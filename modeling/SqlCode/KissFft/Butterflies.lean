import SqlCode.KissFft.Model
import SqlCode.Dft.MixedRadix
import SqlCode.Process.ThreadRules

/-!
# The butterflies

A round of a butterfly of radix `p` reads and writes one column of the block, the cells
`u`, `u + m`, `u + 2 * m`, …, and reads the table of twiddle factors. So the rounds are
independent, and the block is known from what each round leaves in its column
(`columns_within`, `columns_leaves`).

Every butterfly leaves the outputs of `recombine` in the block (`kfBfly_leaves`). The
four special ones get there with fewer multiplications, from what the short roots of unity
are in terms of conjugates; the general one adds the terms up, and finds its twiddle factors
in the table because `twidx` is kept below the length, which fits an `int` twice over
up to `2^30`.
-/

namespace SqlCode.KissFft

open Exec Dft SharedMemory SharedMemory.Thread

variable {R : Type} [Field R]

/-! ### Blocks and columns -/

/-- The table of twiddle factors. -/
def table (st : KissFftState R) : Set Loc :=
  {l | ∃ i : ℕ, i < st.nfft ∧ l = .twiddle st.addr i}

/-- The first `N` elements behind a pointer. -/
def block (Fout : Ptr) (N : ℕ) : Set Loc := {l | ∃ k, k < N ∧ l = Fout.nth k}

/-- The cells of a column. -/
def cellAt (Fout : Ptr) (m u j : ℕ) : Loc := Fout.nth (u + j * m)

/-- The first `p` cells of a column. -/
def columnOf (Fout : Ptr) (p m u : ℕ) : Set Loc := {l | ∃ j, j < p ∧ l = cellAt Fout m u j}

theorem nth_inj {Fout : Ptr} {i j : ℕ} : Fout.nth i = Fout.nth j ↔ i = j := by
  simp [Ptr.nth]

omit [Field R] in
theorem nth_not_mem_table {st : KissFftState R} {Fout : Ptr} {i : ℕ} :
    Fout.nth i ∉ table st := by
  simp [table, Ptr.nth]

omit [Field R] in
theorem twiddle_mem_table {st : KissFftState R} {i : ℕ} (h : i < st.nfft) :
    Loc.twiddle st.addr (i : ℕ) ∈ table st := ⟨i, h, rfl⟩

theorem cellAt_mem {Fout : Ptr} {p m u j : ℕ} (h : j < p) :
    cellAt Fout m u j ∈ columnOf Fout p m u := ⟨j, h, rfl⟩

section Nth

variable (Fout : Ptr) (m u : ℕ)

theorem nth_cell_zero : Fout.nth u = cellAt Fout m u 0 := by
  rw [cellAt, zero_mul, add_zero]

theorem nth_cell_one : Fout.nth (u + m) = cellAt Fout m u 1 := by
  rw [cellAt, one_mul]

theorem nth_cell (j : ℕ) : Fout.nth (u + j * m) = cellAt Fout m u j := rfl

end Nth

theorem cellAt_inj {Fout : Ptr} {m u i j : ℕ} (hu : u < m) :
    cellAt Fout m u i = cellAt Fout m u j ↔ i = j := by
  rw [cellAt, cellAt, nth_inj, Nat.add_left_cancel_iff, Nat.mul_left_inj (by omega)]

/-- Two columns of a block are apart. -/
theorem cellAt_ne {Fout : Ptr} {m u u' i j : ℕ} (hu : u < m) (hu' : u' < m) (h : u ≠ u') :
    cellAt Fout m u i ≠ cellAt Fout m u' j := by
  intro heq
  have hmod := congrArg (· % m) (nth_inj.mp heq)
  simp only [Nat.add_mul_mod_self_right, Nat.mod_eq_of_lt hu, Nat.mod_eq_of_lt hu'] at hmod
  exact h hmod

theorem columnOf_subset {Fout : Ptr} {p m u : ℕ} (hu : u < m) :
    columnOf Fout p m u ⊆ block Fout (p * m) := by
  rintro l ⟨j, hj, rfl⟩
  refine ⟨u + j * m, ?_, rfl⟩
  calc u + j * m < m + j * m := by omega
    _ = (j + 1) * m := by ring
    _ ≤ p * m := Nat.mul_le_mul_right m hj

section Columns

variable {st : KissFftState R} {Fout : Ptr} {p m : ℕ} {round : ℕ → Thread Loc (Cplx R) Unit}

omit [Field R] in
/-- The rounds are independent. -/
theorem columns_independent (h : ∀ u, u < m → (round u).Within
      (table st ∪ columnOf Fout p m u) (columnOf Fout p m u)) :
    Independent m round (fun u => table st ∪ columnOf Fout p m u) (columnOf Fout p m) where
  within := h
  apart u u' hu hu' hne := by
    rintro l ⟨j, -, rfl⟩
    have hcol : cellAt Fout m u j ∉ columnOf Fout p m u' := by
      rintro ⟨j', -, heq⟩
      exact cellAt_ne hu hu' hne heq
    exact ⟨fun hl => hl.elim nth_not_mem_table hcol, hcol⟩

omit [Field R] in
theorem columns_within (h : ∀ u, u < m → (round u).Within
      (table st ∪ columnOf Fout p m u) (columnOf Fout p m u)) :
    (forRange 0 m () fun u _ => round u).Within
      (table st ∪ block Fout (p * m)) (block Fout (p * m)) :=
  within_forRange fun u _ hu =>
    (h u hu).mono (Set.union_subset_union_right _ (columnOf_subset hu)) (columnOf_subset hu)

omit [Field R] in
/-- **The columns together.** -/
theorem columns_leaves (h : ∀ u, u < m → (round u).Within
      (table st ∪ columnOf Fout p m u) (columnOf Fout p m u)) {mem : Memory Loc (Cplx R)}
    {v : ℕ → Cplx R} (hv : ∀ u j, u < m → j < p →
      ((round u).run mem).2.val (cellAt Fout m u j) = v (u + j * m)) :
    ∀ k, k < p * m → ((forRange 0 m () fun u _ => round u).run mem).2.val (Fout.nth k) = v k := by
  intro k hk
  have hm : 0 < m := Nat.pos_of_mul_pos_left (by omega : 0 < p * m)
  have hdiv : k % m + k / m * m = k := by
    rw [mul_comm]
    exact Nat.mod_add_div k m
  have hj : k / m < p := Nat.div_lt_of_lt_mul (by rwa [mul_comm])
  have hcell := (columns_independent h).val_sequential (Nat.mod_lt k hm) mem
    (cellAt_mem hj)
  rw [hv _ _ (Nat.mod_lt k hm) hj, cellAt, hdiv] at hcell
  rwa [run_forRange]

end Columns

/-! ### The special radices -/

/-- The table holds the powers of `ω`. -/
def TwiddlesAt (ω : Cplx R) (st : KissFftState R) (mem : Memory Loc (Cplx R)) : Prop :=
  ∀ i : ℕ, i < st.nfft → mem.val (.twiddle st.addr i) = ω ^ i

theorem cMul_eq (a b : Cplx R) : cMul a b = a * b := rfl

theorem cAdd_eq (a b : Cplx R) : cAdd a b = a + b := rfl

theorem cSub_eq (a b : Cplx R) : cSub a b = a - b := rfl

/-- The twiddle factor of input `q` of column `u` is in the table. -/
theorem twiddle_lt {n fstride p m u q : ℕ} (hn : fstride * (p * m) = n) (hf : 0 < fstride)
    (hu : u < m) (hq : q < p) : q * u * fstride < n := by
  have hqu : q * u < p * m := Nat.mul_lt_mul_of_lt_of_le hq hu.le (by omega)
  calc q * u * fstride = fstride * (q * u) := mul_comm ..
    _ < fstride * (p * m) := Nat.mul_lt_mul_of_pos_left hqu hf
    _ = n := hn

section Rounds

variable {st : KissFftState R} {ω : Cplx R} {Fout : Ptr} {fstride p m u : ℕ}
  {mem : Memory Loc (Cplx R)}

/-- Column `u` as a butterfly finds it, each cell with its twiddle factor. -/
abbrev input (ω : Cplx R) (mem : Memory Loc (Cplx R)) (Fout : Ptr) (fstride m u q : ℕ) : Cplx R :=
  mem.val (cellAt Fout m u q) * ω ^ (q * u * fstride)

theorem recombine_input (j : ℕ) (hu : u < m) :
    recombine (ω ^ fstride) p m (fun k => mem.val (Fout.nth k)) (u + j * m) =
      dft ((ω ^ fstride) ^ m) p (input ω mem Fout fstride m u) j := by
  rw [recombine_column _ _ hu]
  refine dft_congr (fun q _ => ?_) j
  rw [column, input, cellAt, ← pow_mul, mul_comm fstride]

variable (ω mem Fout fstride m u) in
theorem input_zero : mem.val (cellAt Fout m u 0) = input ω mem Fout fstride m u 0 := by
  rw [input, zero_mul, zero_mul, pow_zero, mul_one]

/-- What a round of radix `p` may assume. -/
structure RoundAt (st : KissFftState R) (fstride p m u : ℕ) : Prop where
  size : fstride * (p * m) = st.nfft
  stride_pos : 0 < fstride
  lt : u < m

namespace RoundAt

variable (h : RoundAt st fstride p m u)
include h

omit [Field R] in
theorem twiddle_mem {q : ℕ} (hq : q < p) (i : ℕ) (hi : i = q * u * fstride) :
    Loc.twiddle st.addr (i : ℕ) ∈ table st :=
  twiddle_mem_table (hi ▸ twiddle_lt h.size h.stride_pos h.lt hq)

omit [Field R] in
theorem cell_lt {j : ℕ} (hj : j < p) : fstride * (u + j * m) < st.nfft := by
  have hcell : u + j * m < p * m :=
    calc u + j * m < m + j * m := Nat.add_lt_add_right h.lt _
      _ = (j + 1) * m := by ring
      _ ≤ p * m := Nat.mul_le_mul_right m hj
  exact h.size ▸ Nat.mul_lt_mul_of_pos_left hcell h.stride_pos

/-- A product with a twiddle factor from the table. -/
theorem input_eq (hmem : TwiddlesAt ω st mem) (Fout : Ptr) {q : ℕ} (hq : q < p) (i : ℕ)
    (hi : i = q * u * fstride) :
    cMul (mem.val (cellAt Fout m u q)) (mem.val (.twiddle st.addr (i : ℕ))) =
      input ω mem Fout fstride m u q := by
  rw [hmem i (hi ▸ twiddle_lt h.size h.stride_pos h.lt hq), hi, cMul_eq]

end RoundAt

theorem bfly2At_within (h : RoundAt st fstride 2 m u) :
    (bfly2At st Fout fstride m u : Thread Loc (Cplx R) Unit).Within
      (table st ∪ columnOf Fout 2 m u) (columnOf Fout 2 m u) := by
  have hc : ∀ j, j < 2 → cellAt Fout m u j ∈ columnOf Fout 2 m u := fun j hj => cellAt_mem hj
  have ht := h.twiddle_mem (by decide : 1 < 2) (u * fstride) (by ring)
  simp only [bfly2At, nth_cell_zero Fout m u, nth_cell_one Fout m u, within_get_bind,
    within_put_bind, within_put_iff, Set.mem_union, ht]
  simp [hc]

theorem bfly2At_run (h : RoundAt st fstride 2 m u) (hω : (ω ^ fstride) ^ m = -1)
    (hmem : TwiddlesAt ω st mem) (j : ℕ) (hj : j < 2) :
    ((bfly2At st Fout fstride m u).run mem).2.val (cellAt Fout m u j) =
      recombine (ω ^ fstride) 2 m (fun k => mem.val (Fout.nth k)) (u + j * m) := by
  have h0 := input_zero ω Fout fstride m u mem
  have h1 := h.input_eq hmem Fout (by decide : 1 < 2) (u * fstride) (by ring)
  rw [recombine_input j h.lt]
  simp only [bfly2At, nth_cell_zero Fout m u, nth_cell_one Fout m u, run_bind, run_get, run_put,
    Memory.val_write, cellAt_inj h.lt, h0, h1]
  -- the round has become a function of its inputs; one case for each output
  generalize input ω mem Fout fstride m u = z
  obtain rfl | rfl : j = 0 ∨ j = 1 := by omega
  · simp [dft_zero, Finset.sum_range_succ, cAdd_eq]
  · simp [dft_two_one z hω, cSub_eq]

theorem bfly4At_within (h : RoundAt st fstride 4 m u) :
    (bfly4At st Fout fstride m u : Thread Loc (Cplx R) Unit).Within
      (table st ∪ columnOf Fout 4 m u) (columnOf Fout 4 m u) := by
  have hc : ∀ j, j < 4 → cellAt Fout m u j ∈ columnOf Fout 4 m u := fun j hj => cellAt_mem hj
  have ht1 := h.twiddle_mem (by decide : 1 < 4) (u * fstride) (by ring)
  have ht2 := h.twiddle_mem (by decide : 2 < 4) (u * (fstride * 2)) (by ring)
  have ht3 := h.twiddle_mem (by decide : 3 < 4) (u * (fstride * 3)) (by ring)
  simp only [bfly4At, nth_cell_zero Fout m u, nth_cell_one Fout m u, nth_cell Fout m u,
    within_get_bind, within_put_bind, Set.mem_union, ht1, ht2, ht3]
  cases st.inverse <;> simp [hc]

theorem bfly4At_run (h : RoundAt st fstride 4 m u)
    (hω : (ω ^ fstride) ^ m = if st.inverse then Cplx.I else -Cplx.I)
    (hmem : TwiddlesAt ω st mem) (j : ℕ) (hj : j < 4) :
    ((bfly4At st Fout fstride m u).run mem).2.val (cellAt Fout m u j) =
      recombine (ω ^ fstride) 4 m (fun k => mem.val (Fout.nth k)) (u + j * m) := by
  have h0 := input_zero ω Fout fstride m u mem
  have h1 := h.input_eq hmem Fout (by decide : 1 < 4) (u * fstride) (by ring)
  have h2 := h.input_eq hmem Fout (by decide : 2 < 4) (u * (fstride * 2)) (by ring)
  have h3 := h.input_eq hmem Fout (by decide : 3 < 4) (u * (fstride * 3)) (by ring)
  have hsq : ((ω ^ fstride) ^ m) ^ 2 = -1 := by
    rw [hω]
    cases st.inverse <;> ext <;> simp [pow_two]
  rw [recombine_input j h.lt]
  -- the two directions differ in the sign of the fourth root
  cases hinv : st.inverse <;>
  · simp only [bfly4At, nth_cell_zero Fout m u, nth_cell_one Fout m u, nth_cell Fout m u, run_bind,
      run_get, run_put, Memory.val_write, cellAt_inj h.lt, h0, h1, h2, h3, hinv,
      if_true, Bool.false_eq_true, if_false]
    generalize input ω mem Fout fstride m u = z
    obtain rfl | rfl | rfl | rfl : j = 0 ∨ j = 1 ∨ j = 2 ∨ j = 3 := by omega
    · simp [dft_zero, Finset.sum_range_succ, cAdd_eq]
      ring
    · rw [dft_four_one z hsq, hω, hinv]
      ext <;> simp [cSub_eq]
      ring
    · rw [dft_four_two z hsq]
      simp [cAdd_eq, cSub_eq]
    · rw [dft_four_three z hsq, hω, hinv]
      ext <;> simp [cSub_eq]
      ring

theorem bfly3At_within (epi3 : Cplx R) (h : RoundAt st fstride 3 m u) :
    (bfly3At st epi3 Fout fstride m u).Within
      (table st ∪ columnOf Fout 3 m u) (columnOf Fout 3 m u) := by
  have hc : ∀ j, j < 3 → cellAt Fout m u j ∈ columnOf Fout 3 m u := fun j hj => cellAt_mem hj
  have ht1 := h.twiddle_mem (by decide : 1 < 3) (u * fstride) (by ring)
  have ht2 := h.twiddle_mem (by decide : 2 < 3) (u * (fstride * 2)) (by ring)
  simp only [bfly3At, nth_cell_zero Fout m u, nth_cell_one Fout m u, nth_cell Fout m u,
    within_get_bind, within_put_bind, within_put_iff, Set.mem_union, ht1, ht2]
  simp [hc]

theorem bfly3At_run [CharZero R] (h : RoundAt st fstride 3 m u)
    (hω : FourierRoot ((ω ^ fstride) ^ m) 3)
    (hu : (ω ^ fstride) ^ m * Cplx.conj ((ω ^ fstride) ^ m) = 1)
    (hmem : TwiddlesAt ω st mem) (j : ℕ) (hj : j < 3) :
    ((bfly3At st ((ω ^ fstride) ^ m) Fout fstride m u).run mem).2.val (cellAt Fout m u j) =
      recombine (ω ^ fstride) 3 m (fun k => mem.val (Fout.nth k)) (u + j * m) := by
  have h0 := input_zero ω Fout fstride m u mem
  have h1 := h.input_eq hmem Fout (by decide : 1 < 3) (u * fstride) (by ring)
  have h2 := h.input_eq hmem Fout (by decide : 2 < 3) (u * (fstride * 2)) (by ring)
  have hreal := hω.real_third hu
  rw [recombine_input j h.lt]
  -- symbolic execution: every access is to one of the three cells or to the table
  simp only [bfly3At, nth_cell_zero Fout m u, nth_cell_one Fout m u, nth_cell Fout m u, run_bind,
    run_get, run_put, Memory.val_write, cellAt_inj h.lt, h0, h1, h2]
  generalize input ω mem Fout fstride m u = z
  -- the outputs depend on the third root only through its imaginary part and its real part, `-1/2`
  generalize (ω ^ fstride) ^ m = η at hω hu hreal
  obtain rfl | rfl | rfl : j = 0 ∨ j = 1 ∨ j = 2 := by omega
  · simp [dft_zero, Finset.sum_range_succ, cAdd_eq]
    ring
  · rw [dft_three_one z hω.pow_eq_one hu]
    ext <;> simp [cAdd_eq, cSub_eq, cMulByScalar, halfOf, hreal] <;> ring
  · rw [dft_three_two z hω.pow_eq_one hu]
    ext <;> simp [cAdd_eq, cSub_eq, cMulByScalar, halfOf, hreal] <;> ring

theorem bfly5At_within (ya yb : Cplx R) (h : RoundAt st fstride 5 m u) :
    (bfly5At st ya yb Fout fstride m u).Within
      (table st ∪ columnOf Fout 5 m u) (columnOf Fout 5 m u) := by
  have hc : ∀ j, j < 5 → cellAt Fout m u j ∈ columnOf Fout 5 m u := fun j hj => cellAt_mem hj
  have ht1 := h.twiddle_mem (by decide : 1 < 5) (u * fstride) (by ring)
  have ht2 := h.twiddle_mem (by decide : 2 < 5) (2 * u * fstride) rfl
  have ht3 := h.twiddle_mem (by decide : 3 < 5) (3 * u * fstride) rfl
  have ht4 := h.twiddle_mem (by decide : 4 < 5) (4 * u * fstride) rfl
  simp only [bfly5At, nth_cell_zero Fout m u, nth_cell_one Fout m u, nth_cell Fout m u,
    within_get_bind, within_put_bind, within_put_iff, Set.mem_union, ht1, ht2, ht3, ht4]
  simp [hc]

theorem bfly5At_run (h : RoundAt st fstride 5 m u) (hω : ((ω ^ fstride) ^ m) ^ 5 = 1)
    (hu : (ω ^ fstride) ^ m * Cplx.conj ((ω ^ fstride) ^ m) = 1)
    (hmem : TwiddlesAt ω st mem) (j : ℕ) (hj : j < 5) :
    ((bfly5At st ((ω ^ fstride) ^ m) (((ω ^ fstride) ^ m) ^ 2) Fout fstride m u).run mem).2.val
        (cellAt Fout m u j) =
      recombine (ω ^ fstride) 5 m (fun k => mem.val (Fout.nth k)) (u + j * m) := by
  have h0 := input_zero ω Fout fstride m u mem
  have h1 := h.input_eq hmem Fout (by decide : 1 < 5) (u * fstride) (by ring)
  have h2 := h.input_eq hmem Fout (by decide : 2 < 5) (2 * u * fstride) rfl
  have h3 := h.input_eq hmem Fout (by decide : 3 < 5) (3 * u * fstride) rfl
  have h4 := h.input_eq hmem Fout (by decide : 4 < 5) (4 * u * fstride) rfl
  rw [recombine_input j h.lt]
  simp only [bfly5At, nth_cell_zero Fout m u, nth_cell_one Fout m u, nth_cell Fout m u, run_bind,
    run_get, run_put, Memory.val_write, cellAt_inj h.lt, h0, h1, h2, h3, h4]
  generalize input ω mem Fout fstride m u = z
  -- `ya` and `yb` are a fifth root and its square, and the other two are their conjugates
  generalize (ω ^ fstride) ^ m = η at hω hu
  have hsq : Cplx.conj (η ^ 2) = Cplx.conj η ^ 2 := map_pow ..
  obtain rfl | rfl | rfl | rfl | rfl : j = 0 ∨ j = 1 ∨ j = 2 ∨ j = 3 ∨ j = 4 := by omega
  · ext <;> simp [dft_zero, Finset.sum_range_succ, cAdd_eq] <;> ring
  · rw [dft_five_one z hω hu, ← hsq]
    generalize η ^ 2 = y
    ext <;> simp [cAdd_eq, cSub_eq] <;> ring
  · rw [dft_five_two z hω hu, ← hsq]
    generalize η ^ 2 = y
    ext <;> simp [cAdd_eq, cSub_eq] <;> ring
  · rw [dft_five_three z hω hu, ← hsq]
    generalize η ^ 2 = y
    ext <;> simp [cAdd_eq, cSub_eq] <;> ring
  · rw [dft_five_four z hω hu, ← hsq]
    generalize η ^ 2 = y
    ext <;> simp [cAdd_eq, cSub_eq] <;> ring

end Rounds

/-! ### The general radix -/

section Generic

variable {st : KissFftState R} {ω : Cplx R} {Fout : Ptr} {n fstride p m u k : ℕ}
  {mem : Memory Loc (Cplx R)} {scratch : List (Cplx R)}

/-- The sum of two indices of the table fits an `int`. -/
theorem advance_eq {t : ℕ} (ht : t < n) (hk : fstride * k < n) (h30 : n ≤ 2 ^ 30) :
    advance n fstride k t = ((t + fstride * k) % n : ℕ) := by
  have hint : toInt (t + fstride * k) = ((t + fstride * k : ℕ) : ℤ) := by
    rw [← Nat.cast_mul, ← Nat.cast_add]
    exact toInt_natCast (by omega)
  unfold advance
  rw [hint]
  by_cases hle : n ≤ t + fstride * k
  -- one subtraction is enough, since both indices are below `n`
  · rw [if_pos (by exact_mod_cast hle), Nat.mod_eq_sub_mod hle, Nat.mod_eq_of_lt (by omega),
      Nat.cast_sub hle]
  · rw [if_neg (by exact_mod_cast hle), Nat.mod_eq_of_lt (by omega)]

/-- The value of `twidx` in front of round `q`. -/
def TwidxAt (n fstride k q : ℕ) (twidx : ℤ) : Prop :=
  twidx = (((q - 1) * (fstride * k) % n : ℕ) : ℤ)

theorem TwidxAt.step {q : ℕ} {twidx : ℤ} (h : TwidxAt n fstride k q twidx) (hq : 1 ≤ q)
    (hk : fstride * k < n) (h30 : n ≤ 2 ^ 30) :
    advance n fstride k twidx = ((q * (fstride * k) % n : ℕ) : ℤ) := by
  obtain ⟨q, rfl⟩ := Nat.exists_eq_add_of_le' hq
  rw [show twidx = _ from h, advance_eq (Nat.mod_lt _ (by omega)) hk h30, Nat.add_sub_cancel,
    Nat.mod_add_mod, Nat.succ_mul]

theorem genericAt_within (hk : fstride * k < st.nfft) (h30 : st.nfft ≤ 2 ^ 30) (hp : 1 ≤ p) :
    (genericAt st scratch Fout fstride p k).Within (table st ∪ {Fout.nth k}) {Fout.nth k} := by
  refine (within_put (Set.mem_singleton _) _).bind fun _ => WithinTo.within (Q := fun _ => True) ?_
  refine (withinTo_forRange hp (TwidxAt st.nfft fstride k) ?_ fun q twidx hq _ h => ?_).bind
    fun _ _ => trivial
  · rw [TwidxAt, Nat.sub_self, Nat.zero_mul, Nat.zero_mod]
    rfl
  · have hstep := h.step hq hk h30
    have hmem : Loc.twiddle st.addr (advance st.nfft fstride k twidx) ∈ table st :=
      hstep ▸ twiddle_mem_table (Nat.mod_lt _ (by omega))
    exact ⟨.inl hmem, fun _ => ⟨.inr rfl, fun _ => ⟨rfl, hstep⟩⟩⟩

/-- Round `q1` adds the terms up. -/
theorem genericAt_leaves (hω : ω ^ st.nfft = 1) (hk : fstride * k < st.nfft)
    (h30 : st.nfft ≤ 2 ^ 30) (hp : 1 ≤ p) (hmem : TwiddlesAt ω st mem) :
    (genericAt st scratch Fout fstride p k).Leaves mem fun _ mem' =>
      mem'.val (Fout.nth k) =
        ∑ q ∈ Finset.range p, scratch.getD q 0 * (ω ^ fstride) ^ (q * k) ∧
      ∀ l, l ≠ Fout.nth k → mem'.val l = mem.val l := by
  refine Leaves.bind (P := fun _ mem' => mem' = mem.write (Fout.nth k) (scratch.getD 0 0)) rfl
    fun _ mem' h => ?_
  subst h
  -- the invariant: the index for the next term, the sum so far, and the frame
  refine (leaves_forRange hp (fun q twidx mem' => TwidxAt st.nfft fstride k q twidx ∧
    mem'.val (Fout.nth k) = ∑ q ∈ Finset.range q, scratch.getD q 0 * (ω ^ fstride) ^ (q * k) ∧
    ∀ l, l ≠ Fout.nth k → mem'.val l = mem.val l) ?_ ?_).bind fun _ _ h => leaves_pure h.2
  · refine ⟨?_, ?_, fun l hl => mem.val_write_ne _ hl⟩
    · rw [TwidxAt, Nat.sub_self, Nat.zero_mul, Nat.zero_mod]
      rfl
    · rw [mem.val_write_self, Finset.sum_range_one, zero_mul, pow_zero, mul_one]
  · rintro q twidx mem' hq - ⟨htw, hsum, hframe⟩
    have hstep := htw.step hq hk h30
    -- the index is reduced modulo the order of the root
    have hval : mem'.val (.twiddle st.addr (advance st.nfft fstride k twidx)) =
        (ω ^ fstride) ^ (q * k) := by
      rw [hstep, hframe _ (by simp [Ptr.nth]), hmem _ (Nat.mod_lt _ (by omega)), ← pow_mul,
        show fstride * (q * k) = q * (fstride * k) by ring, ← pow_eq_pow_mod _ hω]
    refine ⟨?_, ?_, ?_⟩
    · simp only [run_bind, run_get, run_put]
      exact hstep
    · simp only [run_bind, run_get, run_put]
      change (mem'.write _ _).val _ = _
      rw [mem'.val_write_self, Finset.sum_range_succ, ← hsum, ← hval]
      rfl
    · intro l hl
      simp only [run_bind, run_get, run_put]
      exact (mem'.val_write_ne _ hl).trans (hframe l hl)

omit [Field R] in
theorem gather_within :
    (gather Fout m p u : Thread Loc (Cplx R) (List (Cplx R))).Within
      (table st ∪ columnOf Fout p m u) (columnOf Fout p m u) := by
  refine within_forCount fun q s hq => ⟨.inr (cellAt_mem ?_), fun _ => trivial⟩
  omega

omit [Field R] in
theorem gather_leaves :
    (gather Fout m p u).Leaves mem fun scratch mem' =>
      mem' = mem ∧ scratch = (List.range p).map fun q => mem.val (cellAt Fout m u q) := by
  refine leaves_forRange (Nat.zero_le p) (fun q scratch mem' =>
    mem' = mem ∧ scratch = (List.range q).map fun q => mem.val (cellAt Fout m u q))
    ⟨rfl, rfl⟩ ?_
  rintro q scratch mem' - - ⟨rfl, rfl⟩
  refine ⟨rfl, ?_⟩
  rw [List.range_succ, List.map_append]
  rfl

/-- A round of `kf_bfly_generic`. -/
def genericRound (st : KissFftState R) (Fout : Ptr) (fstride m p u : ℕ) :
    Thread Loc (Cplx R) Unit := do
  let scratch ← gather Fout m p u
  forRange 0 p () fun q1 _ => genericAt st scratch Fout fstride p (u + q1 * m)

theorem genericRound_within (h : RoundAt st fstride p m u) (h30 : st.nfft ≤ 2 ^ 30) :
    (genericRound st Fout fstride m p u : Thread Loc (Cplx R) Unit).Within
      (table st ∪ columnOf Fout p m u) (columnOf Fout p m u) := by
  refine gather_within.bind fun scratch => within_forRange fun j _ hj => ?_
  have hcell : {Fout.nth (u + j * m)} ⊆ columnOf Fout p m u :=
    Set.singleton_subset_iff.mpr (cellAt_mem hj)
  exact (genericAt_within (h.cell_lt hj) h30 (by omega)).mono
    (Set.union_subset_union_right _ hcell) hcell

theorem genericRound_run (h : RoundAt st fstride p m u) (h30 : st.nfft ≤ 2 ^ 30)
    (hω : ω ^ st.nfft = 1) (hmem : TwiddlesAt ω st mem) (j : ℕ) (hj : j < p) :
    ((genericRound st Fout fstride m p u).run mem).2.val (cellAt Fout m u j) =
      recombine (ω ^ fstride) p m (fun k => mem.val (Fout.nth k)) (u + j * m) := by
  suffices hrun : (genericRound st Fout fstride m p u).Leaves mem fun _ mem' =>
      (∀ j, j < p → mem'.val (cellAt Fout m u j) =
        recombine (ω ^ fstride) p m (fun k => mem.val (Fout.nth k)) (u + j * m)) ∧
      TwiddlesAt ω st mem' from hrun.1 j hj
  -- the column is copied first, so that each of its cells can be written at once
  refine gather_leaves.bind ?_
  rintro scratch mem' ⟨rfl, rfl⟩
  refine leaves_forRange (Nat.zero_le p) (fun i _ mem'' => (∀ j, j < i →
    mem''.val (cellAt Fout m u j) =
      recombine (ω ^ fstride) p m (fun k => mem'.val (Fout.nth k)) (u + j * m)) ∧
    TwiddlesAt ω st mem'') ⟨fun j hj => absurd hj (Nat.not_lt_zero j), hmem⟩ ?_
  rintro i _ mem'' - hi ⟨hdone, htw⟩
  refine (genericAt_leaves hω (h.cell_lt hi) h30 (by omega) htw).mono
    fun _ mem₃ ⟨hval, hframe⟩ => ⟨fun j hj => ?_, fun t ht => ?_⟩
  · rcases Nat.lt_succ_iff_lt_or_eq.mp hj with hlt | rfl
    · rw [hframe _ (fun heq => ?_), hdone j hlt]
      have := (cellAt_inj h.lt).mp heq
      omega
    · refine hval.trans (Finset.sum_congr rfl fun q hq => ?_)
      have hq := Finset.mem_range.mp hq
      rw [Nat.add_mul_mod_self_right, Nat.mod_eq_of_lt h.lt, mul_comm]
      congr 1
      simp [List.getD_eq_getElem?_getD, hq, cellAt]
  · rw [hframe _ (by simp [Ptr.nth]), htw t ht]

end Generic

/-! ### Every radix -/

/-- What the special radices need of the root of unity, which depends on the direction. -/
structure Roots (inverse : Bool) (ω : Cplx R) (n : ℕ) : Prop where
  root : FourierRoot ω n
  unit : ω * Cplx.conj ω = 1
  quarter : ∀ m, 4 * m = n → ω ^ m = if inverse then Cplx.I else -Cplx.I

namespace Roots

variable {inverse : Bool} {ω : Cplx R} {n p fstride m : ℕ}

theorem unit_pow (h : Roots inverse ω n) (k : ℕ) : ω ^ k * Cplx.conj (ω ^ k) = 1 := by
  rw [map_pow, ← mul_pow, h.unit, one_pow]

/-- The short root of a stage. -/
theorem short [CharZero R] (h : Roots inverse ω n) (hn : fstride * (p * m) = n)
    (hf : 0 < fstride) (hm : 0 < m) : FourierRoot ((ω ^ fstride) ^ m) p := by
  have hroot : FourierRoot ω (p * (fstride * m)) := by
    rw [← Nat.mul_left_comm, hn]
    exact h.root
  rw [← pow_mul]
  refine hroot.pow (Nat.mul_pos hf hm) fun a ha => ?_
  have hne : ((fstride * m : ℕ) : R) ≠ 0 := Nat.cast_ne_zero.mpr (Nat.mul_pos hf hm).ne'
  -- a number is cancelled in both parts
  have hreal := congrArg Cplx.real ha
  have himag := congrArg Cplx.imag ha
  rw [Cplx.mul_real, Cplx.natCast_real, Cplx.natCast_imag, zero_mul, sub_zero] at hreal
  rw [Cplx.mul_imag, Cplx.natCast_real, Cplx.natCast_imag, zero_mul, add_zero] at himag
  exact Cplx.ext ((mul_eq_zero.mp hreal).resolve_left hne)
    ((mul_eq_zero.mp himag).resolve_left hne)

end Roots

section Bfly

variable {st : KissFftState R} {ω : Cplx R} {Fout : Ptr} {fstride p m : ℕ}
  {mem : Memory Loc (Cplx R)}

/-- **The butterflies stay** in the block and the table. -/
theorem kfBfly_within (hn : fstride * (p * m) = st.nfft) (hf : 0 < fstride) (hm : 0 < m)
    (h30 : st.nfft ≤ 2 ^ 30) :
    (kfBfly st Fout fstride m p).Within (table st ∪ block Fout (p * m))
      (block Fout (p * m)) := by
  have hround : ∀ u, u < m → RoundAt st fstride p m u := fun u hu => ⟨hn, hf, hu⟩
  have htable : ∀ q, q < p → fstride * (q * m) < st.nfft := fun q hq =>
    hn ▸ Nat.mul_lt_mul_of_pos_left (Nat.mul_lt_mul_of_pos_right hq hm) hf
  unfold kfBfly
  split
  · exact columns_within fun u hu => bfly2At_within (hround u hu)
  · refine (within_get (.inl (twiddle_mem_table ?_))).bind fun epi3 =>
      columns_within fun u hu => bfly3At_within epi3 (hround u hu)
    exact lt_of_eq_of_lt (by ring) (htable 1 (by decide))
  · exact columns_within fun u hu => bfly4At_within (hround u hu)
  · refine (within_get (.inl (twiddle_mem_table ?_))).bind fun ya =>
      (within_get (.inl (twiddle_mem_table ?_))).bind fun yb =>
        columns_within fun u hu => bfly5At_within ya yb (hround u hu)
    · exact lt_of_eq_of_lt (by ring) (htable 1 (by decide))
    · exact lt_of_eq_of_lt (by ring) (htable 2 (by decide))
  · exact columns_within fun u hu => genericRound_within (hround u hu) h30

/-- **The butterflies recombine** the short transforms in the block. -/
theorem kfBfly_leaves [CharZero R] (hω : Roots st.inverse ω st.nfft)
    (hn : fstride * (p * m) = st.nfft) (hf : 0 < fstride) (hm : 0 < m) (h30 : st.nfft ≤ 2 ^ 30)
    (hmem : TwiddlesAt ω st mem) :
    ∀ k, k < p * m → ((kfBfly st Fout fstride m p).run mem).2.val (Fout.nth k) =
      recombine (ω ^ fstride) p m (fun k => mem.val (Fout.nth k)) k := by
  have hround : ∀ u, u < m → RoundAt st fstride p m u := fun u hu => ⟨hn, hf, hu⟩
  have htable : ∀ q, q < p → fstride * (q * m) < st.nfft := fun q hq =>
    hn ▸ Nat.mul_lt_mul_of_pos_left (Nat.mul_lt_mul_of_pos_right hq hm) hf
  have hshort := hω.short hn hf hm
  have hunit : (ω ^ fstride) ^ m * Cplx.conj ((ω ^ fstride) ^ m) = 1 := by
    rw [← pow_mul]
    exact hω.unit_pow _
  unfold kfBfly
  -- one radix after the other: first what the butterfly reads of the table, then its columns
  split
  · have hhalf : (ω ^ fstride) ^ m = -1 := by
      have hsum := hshort.orth 1 (by decide)
      simp only [Finset.sum_range_succ, Finset.sum_range_zero, one_mul, pow_zero, pow_one] at hsum
      linear_combination hsum
    exact columns_leaves (fun u hu => bfly2At_within (hround u hu)) fun u j hu =>
      bfly2At_run (hround u hu) hhalf hmem j
  · have hepi : mem.val (.twiddle st.addr (fstride * m : ℕ)) = (ω ^ fstride) ^ m := by
      rw [hmem _ (lt_of_eq_of_lt (by ring) (htable 1 (by decide))), pow_mul]
    rw [kfBfly3, run_bind, run_get, hepi]
    exact columns_leaves (fun u hu => bfly3At_within _ (hround u hu)) fun u j hu =>
      bfly3At_run (hround u hu) hshort hunit hmem j
  -- radix 4 multiplies with a quarter of the circle by swapping the parts
  · have hquarter : (ω ^ fstride) ^ m = if st.inverse then Cplx.I else -Cplx.I := by
      rw [← pow_mul]
      exact hω.quarter _ (by rw [← hn]; ring)
    exact columns_leaves (fun u hu => bfly4At_within (hround u hu)) fun u j hu =>
      bfly4At_run (hround u hu) hquarter hmem j
  · have hya : mem.val (.twiddle st.addr (fstride * m : ℕ)) = (ω ^ fstride) ^ m := by
      rw [hmem _ (lt_of_eq_of_lt (by ring) (htable 1 (by decide))), pow_mul]
    have hyb : mem.val (.twiddle st.addr (fstride * 2 * m : ℕ)) = ((ω ^ fstride) ^ m) ^ 2 := by
      rw [hmem _ (lt_of_eq_of_lt (by ring) (htable 2 (by decide))), ← pow_mul, ← pow_mul]
      congr 1
      ring
    simp only [kfBfly5, run_bind, run_get, hya, hyb]
    exact columns_leaves (fun u hu => bfly5At_within _ _ (hround u hu)) fun u j hu =>
      bfly5At_run (hround u hu) hshort.pow_eq_one hunit hmem j
  -- any other radix, where the index into the table must not leave `int`
  · exact columns_leaves (fun u hu => genericRound_within (hround u hu) h30) fun u j hu =>
      genericRound_run (hround u hu) h30 hω.root.pow_eq_one hmem j

end Bfly

end SqlCode.KissFft
