import SqlCode.FftOpenMp.Transform
import SqlCode.Process.SharedMemory
import Mathlib.Data.List.Nodup

/-!
# The parallel loop of `step`

The rounds of the loop over `j` in `step` run in parallel. Here each of them is a
thread (`iteration`) whose accesses to the arrays are interleaved with those of
the others in any order, and whose variables are its own, as the `private` clause
of the pragma has it.

Round `j` writes the block of `2 * mj` entries of `c` and `d` that begins at entry
`j * (2 * mj)`, every double of it once, and reads `a`, `b` and `w` only
(`iteration_within`, `iteration_writes`). So the rounds are independent. Run one
after the other they do what `step` does (`iteration_simulates`), and every
interleaving does the same (`step_schedule_independent`).
-/

namespace SqlCode.FftOpenMp.Parallel

open Exec Dft SharedMemory SharedMemory.Thread

/-- The doubles that the rounds share: the array of `a` and `b`, that of `c` and `d`, and `w`. -/
inductive Loc
  | src (i : ℕ)
  | dst (i : ℕ)
  | w (i : ℕ)
  deriving DecidableEq

/-- The doubles of the first `n` entries of the array of `c` and `d`. -/
def Loc.isOutput (n : ℕ) : Loc → Bool
  | .dst i => i < n * 2
  | .src _ | .w _ => false

theorem Loc.isOutput_iff {n : ℕ} {l : Loc} : l.isOutput n ↔ ∃ i, l = .dst i ∧ i < n * 2 := by
  cases l <;> simp [isOutput]

variable {R : Type} [Field R]

/-- The body of the loop over `k`. -/
def stepAt (a b c d : ℕ) (wjw : Cplx R) (j mj k : ℕ) : Thread Loc R Unit := do
  let ja := j * mj
  let jb := ja
  let jc := j * (2 * mj)
  let jd := jc
  put (.dst (c + ((jc + k) * 2 + 0)))
    ((← get (.src (a + ((ja + k) * 2 + 0)))) + (← get (.src (b + ((jb + k) * 2 + 0)))))
  put (.dst (c + ((jc + k) * 2 + 1)))
    ((← get (.src (a + ((ja + k) * 2 + 1)))) + (← get (.src (b + ((jb + k) * 2 + 1)))))
  let ambr := (← get (.src (a + ((ja + k) * 2 + 0)))) - (← get (.src (b + ((jb + k) * 2 + 0))))
  let ambu := (← get (.src (a + ((ja + k) * 2 + 1)))) - (← get (.src (b + ((jb + k) * 2 + 1))))
  put (.dst (d + ((jd + k) * 2 + 0))) (wjw.real * ambr - wjw.imag * ambu)
  put (.dst (d + ((jd + k) * 2 + 1))) (wjw.imag * ambr + wjw.real * ambu)

variable [LinearOrder R]

/-- The twiddle factor `wjw`. -/
def twiddle (jw : ℕ) (sgn : R) : Thread Loc R (Cplx R) := do
  let wjw0 ← get (.w (jw * 2 + 0))
  let wjw1 ← get (.w (jw * 2 + 1))
  pure ⟨wjw0, if sgn < 0 then -wjw1 else wjw1⟩

/-- Round `j` of the parallel loop. -/
def iteration (a b c d : ℕ) (sgn : R) (mj j : ℕ) : Thread Loc R Unit := do
  let wjw ← twiddle (j * mj) sgn
  forRange 0 mj () fun k _ => stepAt a b c d wjw j mj k

/-- The rounds as `cfft2` has them: `b` is the second half of its array, and `d` begins `mj`
entries after `c`. -/
def rounds (n : ℕ) (sgn : R) (mj : ℕ) : ℕ → Thread Loc R Unit :=
  iteration (0 * 2 + 0) (n / 2 * 2 + 0) (0 * 2 + 0) (mj * 2 + 0) sgn mj

/-! ### The rounds and `step` -/

section Simulation

variable {xlen ylen wlen : ℕ}

/-- The memory holds the three arrays. -/
structure Image (src : Vector R xlen) (w : Vector R wlen) (dst : Vector R ylen)
    (mem : Memory Loc R) : Prop where
  /-- The array that is read. -/
  src : ∀ i, i < xlen → mem.val (.src i) = cell src i
  /-- The array that is written. -/
  dst : ∀ i, i < ylen → mem.val (.dst i) = cell dst i
  /-- The table. -/
  w : ∀ i, i < wlen → mem.val (.w i) = cell w i

variable {src : Vector R xlen} {w : Vector R wlen} {dst : Vector R ylen} {mem : Memory Loc R}

omit [LinearOrder R] in
theorem Image.set (h : Image src w dst mem) {i : ℕ} (hi : i < ylen) (v : R) :
    Image src w (dst.set i v) (mem.write (.dst i) v) := by
  refine ⟨fun t ht => ?_, fun t ht => ?_, fun t ht => ?_⟩
  · rw [mem.val_write_ne v (by simp), h.src t ht]
  · rw [cell_set]
    by_cases hti : t = i
    · rw [if_pos hti, hti, mem.val_write_self]
    · rw [if_neg hti, mem.val_write_ne v (by simp [hti]), h.dst t ht]
  · rw [mem.val_write_ne v (by simp), h.w t ht]

omit [LinearOrder R] in
/-- One round of the loop over `k`. -/
theorem stepAt_simulates {a b c d : ℕ} (wjw : Cplx R) {mj j k : ℕ}
    (ha : a + ((j * mj + k) * 2 + 1) < xlen) (hb : b + ((j * mj + k) * 2 + 1) < xlen)
    (hc : c + ((j * (2 * mj) + k) * 2 + 1) < ylen) (hd : d + ((j * (2 * mj) + k) * 2 + 1) < ylen)
    (h : Image src w dst mem) :
    Ends (FftOpenMp.stepAt src a b c d wjw j mj k dst) fun z =>
      Image src w z ((stepAt a b c d wjw j mj k).run mem).2 := by
  have ha0 : a + ((j * mj + k) * 2 + 0) < xlen := by omega
  have hb0 : b + ((j * mj + k) * 2 + 0) < xlen := by omega
  have hc0 : c + ((j * (2 * mj) + k) * 2 + 0) < ylen := by omega
  have hd0 : d + ((j * (2 * mj) + k) * 2 + 0) < ylen := by omega
  rw [FftOpenMp.stepAt]
  simp only [rd_eq _ ha, rd_eq _ hb, rd_eq _ ha0, rd_eq _ hb0, wr_eq _ hc, wr_eq _ hd, wr_eq _ hc0,
    wr_eq _ hd0, pure_bind]
  refine ends_pure ?_
  -- the sums are stored before the differences are read, but not in the source
  have h1 := h.set hc0 (cell src (a + ((j * mj + k) * 2 + 0))
    + cell src (b + ((j * mj + k) * 2 + 0)))
  have h2 := h1.set hc (cell src (a + ((j * mj + k) * 2 + 1))
    + cell src (b + ((j * mj + k) * 2 + 1)))
  simp only [stepAt, run_bind, run_get, run_put, h.src _ ha0, h.src _ hb0, h1.src _ ha,
    h1.src _ hb, h2.src _ ha, h2.src _ hb, h2.src _ ha0, h2.src _ hb0]
  exact (h2.set hd0 _).set hd _

/-- The twiddle factor. -/
theorem twiddle_simulates {jw : ℕ} (sgn : R) (hw : jw * 2 + 1 < wlen) (h : Image src w dst mem) :
    Returns (FftOpenMp.twiddle w jw sgn) ((twiddle jw sgn).run mem).1 ∧
      ((twiddle jw sgn).run mem).2 = mem := by
  have hw0 : jw * 2 + 0 < wlen := by omega
  simp only [FftOpenMp.twiddle, twiddle, rd_eq _ hw, rd_eq _ hw0, pure_bind, run_bind, run_get,
    h.w _ hw, h.w _ hw0]
  exact ⟨returns_pure _, rfl⟩

/-- One round of the loop over `j`. -/
theorem iteration_simulates {lj mj j : ℕ} (sgn : R) (hmj : 1 ≤ mj) (hj : j < lj)
    (hx : lj * (2 * mj) * 2 ≤ xlen) (hy : lj * (2 * mj) * 2 ≤ ylen) (hw : lj * (2 * mj) ≤ wlen)
    (h : Image src w dst mem) :
    Ends (do
        let wjw ← FftOpenMp.twiddle w (j * mj) sgn
        forRange 0 mj dst fun k dst => FftOpenMp.stepAt src (0 * 2 + 0) (lj * mj * 2 + 0)
          (0 * 2 + 0) (mj * 2 + 0) wjw j mj k dst)
      fun z => Image src w z ((iteration (0 * 2 + 0) (lj * mj * 2 + 0) (0 * 2 + 0) (mj * 2 + 0)
        sgn mj j).run mem).2 := by
  have hsize : lj * (2 * mj) = lj * mj + lj * mj := by ring
  unfold iteration
  -- the twiddle factor lies in the table
  have htable := block_lt (w := mj) hj (by omega : 0 < mj)
  obtain ⟨hret, hmem⟩ := twiddle_simulates sgn (by omega : j * mj * 2 + 1 < wlen) h
  rw [run_bind, hmem]
  generalize ((twiddle (j * mj) sgn).run mem).1 = wjw at hret ⊢
  refine (Ends.of_returns (Q := (· = wjw)) hret rfl).bind ?_
  rintro v rfl
  refine ends_forRange_run (P := Image src w) h fun k z m _ hk hm => ?_
  have hin := block_lt (w := mj) hj hk
  have hout := block_lt (w := 2 * mj) hj (by omega : mj + k < 2 * mj)
  have ha : 0 * 2 + 0 + ((j * mj + k) * 2 + 1) < xlen := by omega
  have hb : lj * mj * 2 + 0 + ((j * mj + k) * 2 + 1) < xlen := by omega
  have hc : 0 * 2 + 0 + ((j * (2 * mj) + k) * 2 + 1) < ylen := by omega
  have hd : mj * 2 + 0 + ((j * (2 * mj) + k) * 2 + 1) < ylen := by omega
  exact stepAt_simulates v ha hb hc hd hm

/-- **The rounds one after the other** do what `step` does. -/
theorem rounds_simulate {lj mj : ℕ} (sgn : R) (hmj : 1 ≤ mj)
    (hx : lj * (2 * mj) * 2 ≤ xlen) (hy : lj * (2 * mj) * 2 ≤ ylen) (hw : lj * (2 * mj) ≤ wlen)
    (h : Image src w dst mem) :
    Ends (step (lj * (2 * mj)) mj src (0 * 2 + 0) (lj * (2 * mj) / 2 * 2 + 0) dst (0 * 2 + 0)
      (mj * 2 + 0) w sgn) fun z =>
        Image src w z (sequential (rounds (lj * (2 * mj)) sgn mj) mem lj) := by
  have hhalf : lj * (2 * mj) / 2 = lj * mj := by
    rw [mul_left_comm, Nat.mul_div_cancel_left _ Nat.two_pos]
  have hlj : lj * (2 * mj) / (2 * mj) = lj := Nat.mul_div_cancel _ (by omega)
  unfold rounds
  rw [step, hhalf, if_neg (by omega : ¬ 2 * mj = 0), hlj]
  exact ends_forRange (Nat.zero_le lj) (fun j z => Image src w z (sequential _ mem j)) h
    fun j z _ hj hz => iteration_simulates sgn hmj hj hx hy hw hz

end Simulation

/-! ### Footprints -/

section Footprints

variable (lj mj : ℕ)

/-- What the rounds may read. -/
def readable : Set Loc :=
  {l | (∃ i, l = .src i ∧ i < lj * (2 * mj) * 2) ∨ ∃ i, l = .w i ∧ i < lj * (2 * mj)}

/-- What round `j` may write. -/
def block (j : ℕ) : Set Loc :=
  {l | ∃ i, l = .dst i ∧ j * (2 * mj) * 2 ≤ i ∧ i < j * (2 * mj) * 2 + 2 * mj * 2}

/-- What round `k` of the inner loop writes, in round `j`. -/
def pairWrites (j k : ℕ) : List Loc :=
  [.dst (0 * 2 + 0 + ((j * (2 * mj) + k) * 2 + 0)), .dst (0 * 2 + 0 + ((j * (2 * mj) + k) * 2 + 1)),
    .dst (mj * 2 + 0 + ((j * (2 * mj) + k) * 2 + 0)),
    .dst (mj * 2 + 0 + ((j * (2 * mj) + k) * 2 + 1))]

/-- What round `j` writes. -/
def blockWrites (j : ℕ) : List Loc :=
  (List.range' 0 (mj - 0) 1).flatMap (pairWrites mj j)

variable {lj mj}

/-- Two rounds write different blocks. -/
theorem block_apart {i j : ℕ} (hij : i ≠ j) {l : Loc} (h : l ∈ block mj i) : l ∉ block mj j := by
  rintro ⟨t', rfl, h3, h4⟩
  obtain ⟨t, ht, h1, h2⟩ := h
  obtain rfl : t' = t := Loc.dst.inj ht
  rcases Nat.lt_or_gt_of_ne hij with hlt | hlt <;>
  · have hle := Nat.mul_le_mul_right (2 * mj) (Nat.succ_le_of_lt hlt)
    rw [Nat.succ_mul] at hle
    omega

theorem block_not_readable {j : ℕ} {l : Loc} (h : l ∈ block mj j) : l ∉ readable lj mj := by
  obtain ⟨t, rfl, -⟩ := h
  simp [readable]

omit [LinearOrder R] in
theorem stepAt_within {wjw : Cplx R} {j k : ℕ} (hj : j < lj) (hk : k < mj) :
    (stepAt (0 * 2 + 0) (lj * mj * 2 + 0) (0 * 2 + 0) (mj * 2 + 0) wjw j mj k).Within
      (readable lj mj) (block mj j) := by
  have hsize : lj * (2 * mj) = lj * mj + lj * mj := by ring
  have hin := block_lt (w := mj) hj hk
  have ha : ∀ e, e < 2 → Loc.src (0 * 2 + 0 + ((j * mj + k) * 2 + e)) ∈ readable lj mj :=
    fun e he => .inl ⟨_, rfl, by omega⟩
  have hb : ∀ e, e < 2 → Loc.src (lj * mj * 2 + 0 + ((j * mj + k) * 2 + e)) ∈ readable lj mj :=
    fun e he => .inl ⟨_, rfl, by omega⟩
  have hc : ∀ e, e < 2 → Loc.dst (0 * 2 + 0 + ((j * (2 * mj) + k) * 2 + e)) ∈ block mj j :=
    fun e he => ⟨_, rfl, by omega, by omega⟩
  have hd : ∀ e, e < 2 → Loc.dst (mj * 2 + 0 + ((j * (2 * mj) + k) * 2 + e)) ∈ block mj j :=
    fun e he => ⟨_, rfl, by omega, by omega⟩
  unfold stepAt
  -- the accesses in the order of the source: two sums, then the two products
  refine (within_get (ha 0 (by decide))).bind fun u => ?_
  refine (within_get (hb 0 (by decide))).bind fun v => ?_
  refine (within_put (hc 0 (by decide)) _).bind fun _ => ?_
  refine (within_get (ha 1 (by decide))).bind fun u => ?_
  refine (within_get (hb 1 (by decide))).bind fun v => ?_
  refine (within_put (hc 1 (by decide)) _).bind fun _ => ?_
  refine (within_get (ha 0 (by decide))).bind fun u => ?_
  refine (within_get (hb 0 (by decide))).bind fun v => ?_
  refine (within_get (ha 1 (by decide))).bind fun u' => ?_
  refine (within_get (hb 1 (by decide))).bind fun v' => ?_
  exact (within_put (hd 0 (by decide)) _).bind fun _ => within_put (hd 1 (by decide)) _

theorem iteration_within {sgn : R} {j : ℕ} (hmj : 1 ≤ mj) (hj : j < lj) :
    (iteration (0 * 2 + 0) (lj * mj * 2 + 0) (0 * 2 + 0) (mj * 2 + 0) sgn mj j).Within
      (readable lj mj) (block mj j) := by
  have hsize : lj * (2 * mj) = lj * mj + lj * mj := by ring
  have htable := block_lt (w := mj) hj (by omega : 0 < mj)
  have hw : ∀ e, e < 2 → Loc.w (j * mj * 2 + e) ∈ readable lj mj :=
    fun e he => .inr ⟨_, rfl, by omega⟩
  unfold iteration twiddle
  refine Within.bind ?_ fun wjw => within_forCount fun k _ hk => ?_
  · refine (within_get (hw 0 (by decide))).bind fun wjw0 => ?_
    exact (within_get (hw 1 (by decide))).bind fun wjw1 => trivial
  · rw [mul_one, zero_add]
    exact stepAt_within hj (by omega)

omit [LinearOrder R] in
theorem stepAt_writes (wjw : Cplx R) (a b j k : ℕ) :
    (stepAt a b (0 * 2 + 0) (mj * 2 + 0) wjw j mj k).Writes (pairWrites mj j k) := by
  unfold stepAt
  refine (writes_get _).bind fun u => (writes_get _).bind fun v => ?_
  refine (writes_put _ _).bind (y := (pairWrites mj j k).drop 1) fun _ => ?_
  refine (writes_get _).bind fun u => (writes_get _).bind fun v => ?_
  refine (writes_put _ _).bind (y := (pairWrites mj j k).drop 2) fun _ => ?_
  refine (writes_get _).bind fun u => (writes_get _).bind fun v => ?_
  refine (writes_get _).bind fun u' => (writes_get _).bind fun v' => ?_
  exact (writes_put _ _).bind fun _ => writes_put _ _

theorem iteration_writes (sgn : R) (a b j : ℕ) :
    (iteration a b (0 * 2 + 0) (mj * 2 + 0) sgn mj j).Writes (blockWrites mj j) := by
  unfold iteration twiddle
  refine Writes.bind (x := []) ?_ fun wjw => writes_forCount fun k _ => ?_
  · exact (writes_get _).bind fun wjw0 => (writes_get _).bind fun wjw1 => rfl
  · exact stepAt_writes wjw a b j k

/-- The writes of a round fill its block. -/
theorem mem_blockWrites {j : ℕ} {l : Loc} : l ∈ blockWrites mj j ↔ l ∈ block mj j := by
  simp only [blockWrites, pairWrites, List.mem_flatMap, List.mem_range'_1, List.mem_cons,
    List.not_mem_nil, or_false]
  constructor
  · rintro ⟨k, ⟨-, hk⟩, rfl | rfl | rfl | rfl⟩
    · exact ⟨_, rfl, by omega, by omega⟩
    · exact ⟨_, rfl, by omega, by omega⟩
    · exact ⟨_, rfl, by omega, by omega⟩
    · exact ⟨_, rfl, by omega, by omega⟩
  · rintro ⟨i, rfl, h1, h2⟩
    simp only [Loc.dst.injEq]
    -- the first half of the block belongs to `c`, the second to `d`
    by_cases h : i < j * (2 * mj) * 2 + mj * 2
    · exact ⟨(i - j * (2 * mj) * 2) / 2, by omega, by omega⟩
    · exact ⟨(i - j * (2 * mj) * 2 - mj * 2) / 2, by omega, by omega⟩

/-- The writes of a round are to different doubles. -/
theorem nodup_blockWrites (j : ℕ) : (blockWrites mj j).Nodup := by
  rw [blockWrites, List.nodup_flatMap]
  refine ⟨fun k hk => ?_, ?_⟩
  · rw [List.mem_range'_1] at hk
    simp only [pairWrites, List.nodup_cons, List.mem_cons, Loc.dst.injEq, List.not_mem_nil,
      not_false_eq_true, List.nodup_nil, or_false, and_true]
    omega
  · refine (List.pairwise_lt_range' 1).imp_of_mem fun {k k'} hk hk' hlt => ?_
    rw [List.mem_range'_1] at hk hk'
    intro l h h'
    simp only [pairWrites, List.mem_cons, List.not_mem_nil, or_false] at h h'
    rcases h with rfl | rfl | rfl | rfl <;> simp only [Loc.dst.injEq] at h' <;> omega

end Footprints

/-! ### Every schedule -/

/-- **The rounds are independent.** -/
theorem rounds_independent {lj mj : ℕ} (hmj : 1 ≤ mj) (sgn : R) :
    Independent lj (rounds (lj * (2 * mj)) sgn mj) (fun _ => readable lj mj) (block mj) := by
  have hhalf : lj * (2 * mj) / 2 = lj * mj := by
    rw [mul_left_comm, Nat.mul_div_cancel_left _ Nat.two_pos]
  refine ⟨fun j hj => ?_, fun i j _ _ hij l hl => ⟨block_not_readable hl, block_apart hij hl⟩⟩
  rw [rounds, hhalf]
  exact iteration_within hmj hj

/-- All rounds together write every double of their array once. -/
theorem rounds_writes {lj mj : ℕ} (sgn : R) (mem : Memory Loc R) (n : ℕ) (l : Loc) :
    (sequential (rounds n sgn mj) mem lj).writes l
      = mem.writes l + if l.isOutput (lj * (2 * mj)) then 1 else 0 := by
  have hnodup : ((List.range lj).flatMap (blockWrites mj)).Nodup := by
    refine List.nodup_flatMap.mpr ⟨fun j _ => nodup_blockWrites j, ?_⟩
    refine List.pairwise_lt_range.imp fun {i j} hij l hi hj => ?_
    rw [mem_blockWrites] at hi hj
    exact block_apart (Nat.ne_of_lt hij) hi hj
  have hwrites : ∀ j, j < lj → (rounds n sgn mj j).Writes (blockWrites mj j) :=
    fun j _ => iteration_writes sgn _ _ j
  rw [sequential_writes_nodup hwrites hnodup]
  congr 1
  refine if_congr ?_ rfl rfl
  simp only [List.mem_flatMap, List.mem_range, mem_blockWrites, Loc.isOutput_iff]
  -- the blocks fill the array
  constructor
  · rintro ⟨j, hj, i, rfl, h1, h2⟩
    have hle := Nat.mul_le_mul_right (2 * mj) (Nat.succ_le_of_lt hj)
    rw [Nat.succ_mul] at hle
    exact ⟨i, rfl, by omega⟩
  · rintro ⟨i, rfl, hi⟩
    have hpos : 0 < 2 * mj := by
      refine Nat.pos_of_ne_zero fun h => ?_
      rw [h] at hi
      omega
    have hdiv := Nat.div_add_mod (i / 2) (2 * mj)
    have hmod := Nat.mod_lt (i / 2) hpos
    rw [mul_comm] at hdiv
    refine ⟨i / 2 / (2 * mj), ?_, i, rfl, by omega, by omega⟩
    rw [Nat.div_lt_iff_lt_mul hpos]
    omega

/-- **Schedule independence of `step`.** For every group size and every array laid out as `cfft2`
passes it, `step` returns an array `z`, and from every memory that holds the three arrays, every
interleaving of the accesses of its rounds that runs to the end leaves `z`, having written every
double of the result once and nothing else. Every interleaving can be run to the end. Indices are
read as exact: those of type `int` overflow for `n` above `2^30`, which `cfft2` never passes. -/
theorem step_schedule_independent {xlen ylen wlen n mj : ℕ} (hmj : 1 ≤ mj) (hdvd : 2 * mj ∣ n)
    (src : Vector R xlen) (dst : Vector R ylen) (w : Vector R wlen) (sgn : R)
    (hx : n * 2 ≤ xlen) (hy : n * 2 ≤ ylen) (hw : n ≤ wlen) :
    ∃ z, Returns (step n mj src (0 * 2 + 0) (n / 2 * 2 + 0) dst (0 * 2 + 0) (mj * 2 + 0) w sgn) z ∧
      ∀ mem, Image src w dst mem → ∀ p, Reaches (n / (2 * mj)) ⟨rounds n sgn mj, mem⟩ p →
        (∃ q, Reaches (n / (2 * mj)) p q ∧ q.Finished (n / (2 * mj))) ∧
        (p.Finished (n / (2 * mj)) → Image src w z p.mem ∧ ∀ l, p.mem.writes l
          = mem.writes l + if l.isOutput n then 1 else 0) := by
  obtain ⟨lj, rfl⟩ := hdvd
  rw [mul_comm (2 * mj)] at *
  have hlj : lj * (2 * mj) / (2 * mj) = lj := Nat.mul_div_cancel _ (by omega)
  rw [hlj]
  have hsimulate : ∀ mem, Image src w dst mem →
      Ends (step (lj * (2 * mj)) mj src (0 * 2 + 0) (lj * (2 * mj) / 2 * 2 + 0) dst (0 * 2 + 0)
        (mj * 2 + 0) w sgn) fun z =>
          Image src w z (sequential (rounds (lj * (2 * mj)) sgn mj) mem lj) :=
    fun mem h => rounds_simulate sgn hmj hx hy hw h
  -- some memory holds the arrays, so `step` returns
  obtain ⟨z, hz, -⟩ := hsimulate ⟨fun
    | .src i => cell src i
    | .dst i => cell dst i
    | .w i => cell w i, fun _ => 0⟩ ⟨fun _ _ => rfl, fun _ _ => rfl, fun _ _ => rfl⟩
  refine ⟨z, hz, fun mem hmem p hp => ⟨?_, fun hfin => ?_⟩⟩
  · obtain ⟨q, hq, hfin, -⟩ := reaches_sequential lj p
    exact ⟨q, hq, hfin⟩
  · rw [interleaving_eq_sequential (rounds_independent hmj sgn) hp hfin]
    exact ⟨(hsimulate mem hmem).of_unique hz, rounds_writes sgn mem _⟩

/-- Two rounds with groups of two, on arrays of eight entries. -/
theorem step_schedule_independent_two :
    let src : Vector ℚ 16 := Vector.ofFn fun i => (i : ℕ)
    ∃ z, Returns (step 8 2 src (0 * 2 + 0) (8 / 2 * 2 + 0) src (0 * 2 + 0) (2 * 2 + 0) src (-1)) z ∧
      ∀ mem, Image src src src mem → ∀ p, Reaches (8 / (2 * 2)) ⟨rounds 8 (-1 : ℚ) 2, mem⟩ p →
        (∃ q, Reaches (8 / (2 * 2)) p q ∧ q.Finished (8 / (2 * 2))) ∧
        (p.Finished (8 / (2 * 2)) → Image src src z p.mem ∧ ∀ l, p.mem.writes l
          = mem.writes l + if l.isOutput 8 then 1 else 0) :=
  step_schedule_independent (by decide) (by decide) _ _ _ _ (by decide) (by decide) (by decide)

end SqlCode.FftOpenMp.Parallel
