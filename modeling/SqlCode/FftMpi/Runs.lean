import SqlCode.FftMpi.Exchange
import SqlCode.Process.Termination

/-!
# The runs of the MPI FFT

What the choreography gives for whole runs of `fftMain`.

* When all ranks have finished, every rank holds the transform, rank 0 has
  printed its even entries, and nothing is left in flight (`fftMain_result`).
  With the exact points, the result does not depend on the number of ranks or on
  the schedule.
* There is no deadlock, even if every send blocks (`fftMain_progress`). This
  covers the counts that `readFromFile` turns down, where rank 0 ends the job
  before any other rank has received anything.
* Every run can be completed (`fftMain_completes`), because each action lowers
  the `weight` of the place in the program.
-/

namespace SqlCode.FftMpi

open Exec Dft Process

variable {R : Type} [Field R]

/-! ### Places in the program -/

variable {M : Libm R} {J : Job R}

omit [Field R] in
/-- Where `initRoot` leads. -/
theorem initRoot_pc (st : Rank R) : Always (initRoot J st) fun st' => st'.pc = .sendOrigNum 1 := by
  unfold initRoot
  refine (always_true _).bind fun st₁ _ => ?_
  split_ifs
  · exact always_throw _
  · exact always_pure rfl

/-- Where `compute` leads. -/
theorem compute_pc (rank : ℕ) (st : Rank R) :
    Always (compute M J rank st) fun st' =>
      st'.pc = if rank = 0 then .recvSlice 1 else .sendSlice := by
  unfold compute
  refine (always_true _).bind fun w _ => (always_true _).bind ?_
  rintro ⟨p, s⟩ -
  exact always_pure rfl

/-- A bound on the number of actions ahead of a rank. -/
def weight (size : ℕ) (st : Rank R) : ℕ :=
  match st.pc with
  | .start => 4 * size + 9
  | .sendOrigNum i => 2 * (size - i) + 2 * size + 7
  | .sendOrigP i => 2 * (size - (i + 1)) + 2 * size + 8
  | .recvOrigNum => 2 * size + 8
  | .recvOrigP => 2 * size + 7
  | .compute => 2 * size + 6
  | .recvSlice i => (size - i) + size + 4
  | .sendResult i => (size - i) + 3
  | .sendSlice => 2
  | .printres => 2
  | .recvResult => 1
  | .finished => 0
  | .aborted => 0

/-- An attempt to send a block leads on, or ends the job. -/
theorem sendBlock_lowers {len w : ℕ} {wt : Rank R → ℕ} {st : Rank R} (h : wt st < w)
    (x : Vector (Cplx R) len) (off count dst : ℕ) (tag : Tag) :
    (sendBlock x off count dst tag st).Lowers wt w := by
  unfold sendBlock
  split_ifs
  · exact h
  · trivial

variable [LT R] [DecidableLT R] 

/-- A rank halts after `MPI_Finalize` and nowhere else. -/
theorem fftMain_halt_iff {rank : ℕ} {st : Rank R} :
    fftMain M J rank st = .halt ↔ st.pc = .finished := by
  refine ⟨fun h => ?_, fun h => by simp only [fftMain, h]⟩
  cases hpc : st.pc with
  | finished => rfl
  -- the places where an action is chosen
  | start | sendOrigNum i | recvSlice i =>
    simp only [fftMain, hpc] at h
    split_ifs at h
  | sendOrigP i | sendSlice =>
    simp only [fftMain, hpc, sendBlock] at h
    split_ifs at h
  | sendResult i =>
    simp only [fftMain, hpc, sendBlock] at h
    split_ifs at h
  | recvOrigNum | recvOrigP | compute | recvResult | printres | aborted =>
    simp only [fftMain, hpc, reduceCtorEq] at h

/-- Every action leads to a place of lower weight. -/
theorem fftMain_decreasing : Decreasing (fftMain M J) (weight J.size) := by
  intro r st
  cases hpc : st.pc with
  -- the weights go down in the order of the program
  | start =>
    simp only [fftMain, hpc, weight]
    split_ifs
    · -- a load that fails leads nowhere, so only its result counts
      refine (initRoot_pc st).mono fun st' hst' => ?_
      simp only [weight, hst']
      omega
    · exact always_pure (by simp only [weight]; omega)
  | sendOrigNum i =>
    simp only [fftMain, hpc, weight]
    split_ifs
    · simp only [Action.Lowers, weight]
      omega
    · exact always_pure (by simp only [weight]; omega)
  | sendOrigP i =>
    simp only [fftMain, hpc, weight]
    exact sendBlock_lowers (by simp only [weight]; omega) _ _ _ _ _
  | recvOrigNum =>
    simp only [fftMain, hpc, weight]
    rintro (v | l) <;> simp only [weight] <;> omega
  | recvOrigP =>
    simp only [fftMain, hpc, weight]
    -- both ways out of a receive, to the next place and to `aborted`, are lower
    intro m
    beta_reduce
    cases recvBlock st.p 0 st.variableNum m <;> simp only [weight] <;> omega
  | compute =>
    simp only [fftMain, hpc, weight]
    refine (compute_pc r st).mono fun st' hst' => ?_
    simp only [weight, hst']
    split_ifs <;> simp only <;> omega
  | sendSlice =>
    simp only [fftMain, hpc, weight]
    exact sendBlock_lowers (by simp only [weight]; omega) _ _ _ _ _
  | recvResult =>
    simp only [fftMain, hpc, weight]
    intro m
    beta_reduce
    cases recvBlock st.s 0 (2 * st.variableNum) m <;> simp only [weight] <;> omega
  -- a loop of the root weighs less with each rank that it has served
  | recvSlice i =>
    simp only [fftMain, hpc, weight]
    split_ifs
    · intro m
      beta_reduce
      cases recvBlock st.s (moreLength J.size st.variableNum
        + i * everageLength J.size st.variableNum) (everageLength J.size st.variableNum) m <;>
        simp only [weight] <;> omega
    · exact always_pure (by simp only [weight]; omega)
  | sendResult i =>
    simp only [fftMain, hpc, weight]
    split_ifs
    · exact sendBlock_lowers (by simp only [weight]; omega) _ _ _ _ _
    · exact always_pure (by simp only [weight]; omega)
  | printres =>
    simp only [fftMain, hpc, weight]
    exact (always_true _).bind fun out _ => always_pure (by simp only [weight]; omega)
  | finished | aborted =>
    simp only [fftMain, hpc, weight]
    trivial

/-! ### Whole runs -/

/-- **Every run can be completed.** -/
theorem fftMain_completes (hJ : J.Fits) {mem : ℕ → Rank R}
    {c : Config (Rank R) Tag (Message R)}
    (h : Reachable (fftMain M J) J.size (start mem) c) :
    ∃ c', Reachable (fftMain M J) J.size (start mem) c' ∧
      Relation.ReflTransGen (Step (fftMain M J) J.size false) c c' ∧
      ∀ r, r < J.size → (c'.loc r).pc = .finished := by
  obtain ⟨c', hrun, hhalt⟩ := exists_halted fftMain_decreasing (fftMain_follows hJ mem) h
  have hreach : Reachable (fftMain M J) J.size (start mem) c' :=
    h.trans (Relation.ReflTransGen.mono (fun _ _ hstep => hstep.buffered true) _ _ hrun)
  exact ⟨c', hreach, hrun, fun r hr => fftMain_halt_iff.mp (hhalt r hr)⟩

omit [Field R] [LT R] [DecidableLT R] in
/-- More coefficients than `p` has room for stop rank 0 before its first message. -/
theorem initRoot_raises (hn : maxN < J.variableNum) (st : Rank R) : Raises (initRoot J st) := by
  refine Fails.bind_left ?_ _
  unfold loadData
  cases J.source with
  | file =>
    change Raises (readFromFile J st)
    unfold readFromFile
    rw [if_pos (.inr hn)]
    exact fails_throw nofun
  | program =>
    change Raises (assignData J st)
    refine Fails.bind_left (fails_forRange (Nat.zero_le maxN) hn (fun _ _ => True) trivial ?_ ?_) _
    · intro i p _ hi _
      rw [wr_eq p hi]
      exact ends_pure trivial
    · exact fun p _ => fails_wr nofun p le_rfl _

/-- With more coefficients than `p` has room for, rank 0 stays at its start. -/
theorem fftMain_stays (hn : maxN < J.variableNum) {mem : ℕ → Rank R}
    {c : Config (Rank R) Tag (Message R)}
    (h : Reachable (fftMain M J) J.size (start mem) c) : c.loc 0 = (start mem).loc 0 :=
  h.loc_of_fails rfl (initRoot_raises hn _)

/-- The end of every run: the results are everywhere, half of them are printed, and no
message is left. -/
theorem fftMain_final (hJ : J.Fits) {mem : ℕ → Rank R} {c : Config (Rank R) Tag (Message R)}
    (h : Reachable (fftMain M J) J.size (start mem) c)
    (hfin : ∀ r, r < J.size → (c.loc r).pc = .finished) :
    (∀ r, r < J.size → ∀ j, j < 2 * J.variableNum → cell (c.loc r).s j = result M J j) ∧
      ((c.loc 0).printed.map Line.value
        = (List.range J.variableNum).map fun k => result M J (2 * k)) ∧
      ∀ a b t, c.chan a b t = [] := by
  have hf := fftMain_follows (M := M) hJ mem
  obtain ⟨todo, ht⟩ := h.onTrack hf
  obtain ⟨hat, hchan⟩ := ht.halted hf fun r hr => fftMain_halt_iff.mpr (hfin r hr)
  exact ⟨fun r hr => (hat r hr).result_of_finished (hfin r hr),
    (hat 0 hJ.size_pos).printed_of_finished (hfin 0 hJ.size_pos), hchan⟩

/-- **The MPI FFT never deadlocks.** For every number `n ≥ 1` of coefficients, every number
of ranks from `1` to `2 * n` and any arithmetic, in every reachable configuration in which
some rank has not finished, a step is possible that needs no buffer for a send, unless the
job was ended. It is never ended if the coefficients fit `p`. -/
theorem fftMain_progress (M : Libm R) (J : Job R) (hn : 1 ≤ J.variableNum) (hpos : 1 ≤ J.size)
    (hsize : J.size ≤ 2 * J.variableNum) (mem : ℕ → Rank R)
    {c : Config (Rank R) Tag (Message R)}
    (h : Reachable (fftMain M J) J.size (start mem) c) :
    (J.variableNum ≤ maxN → c.ended = false) ∧
      (c.ended = false → (∃ r, r < J.size ∧ (c.loc r).pc ≠ .finished) →
        ∃ c', Step (fftMain M J) J.size false c c') := by
  rcases Nat.lt_or_ge maxN J.variableNum with hmax | hmax
  · -- rank 0 never leaves its start, and ends the job there
    refine ⟨fun hle => absurd hle (by omega), fun hgo _ => ?_⟩
    have hrun : fftMain M J 0 (c.loc 0) = .run (initRoot J (c.loc 0)) := by
      rw [fftMain_stays hmax h]
      rfl
    exact ⟨_, .fault hgo hpos hrun (initRoot_raises hmax _)⟩
  · have hf := fftMain_follows (M := M) ⟨hn, hmax, hpos, hsize⟩ mem
    obtain ⟨todo, ht⟩ := h.onTrack hf
    refine ⟨fun _ => ht.running, fun _ hlive => ?_⟩
    obtain ⟨r, hr, hpc⟩ := hlive
    exact ht.progress hf hr fun hhalt => hpc (fftMain_halt_iff.mp hhalt)

/-- The test data of `fft_main`, on three ranks. -/
noncomputable def testJob : Job ℝ where
  source := .program
  variableNum := 4
  p i := Cplx.ofReal (([1, 2, 4, 3] : List ℕ).getD i 0 : ℕ)
  size := 3
  junk _ _ := 0

/-- Zeroed global arrays. -/
noncomputable def zeroRank : Rank ℝ where
  pc := .start
  variableNum := 0
  p := Vector.replicate maxN 0
  s := Vector.replicate (2 * maxN) 0
  w := Vector.replicate (2 * maxN) 0
  printed := []

/-- At the start of the test job. -/
theorem fftMain_progress_test :
    ∃ c', Step (fftMain exactLibm testJob) 3 false (start fun _ => zeroRank) c' :=
  (fftMain_progress exactLibm testJob (by decide) (by decide) (by decide) (fun _ => zeroRank)
    .refl).2 rfl ⟨0, by decide, nofun⟩

/-! ### The result -/

/-- The points are on the unit circle. -/
theorem rootAt_exactLibm (wLength i : ℕ) :
    rootAt exactLibm wLength i = cis (2 * Real.pi / wLength) ^ i := by
  rw [cis_pow]
  have hangle : ((i * 2 : ℕ) : ℝ) * Real.pi / wLength = i * (2 * Real.pi / wLength) := by
    push_cast
    ring
  change (⟨Real.cos (((i * 2 : ℕ) : ℝ) * Real.pi / wLength),
    Real.sin (((i * 2 : ℕ) : ℝ) * Real.pi / wLength)⟩ : Cplx ℝ) = _
  rw [hangle]
  rfl

/-- The results are the transform of twice the length, of the coefficients followed by zeros. -/
theorem result_eq_dft (J : Job ℝ) (j : ℕ) :
    result exactLibm J j
      = dft (cis (2 * Real.pi / (2 * J.variableNum : ℕ))) J.variableNum J.p j := by
  rw [result, rootAt_exactLibm]
  refine Finset.sum_congr rfl fun t _ => ?_
  rw [zero_add, ← pow_mul, mul_comm j t]

/-- The results with even indices are the transform of the coefficients. -/
theorem result_even (J : Job ℝ) (k : ℕ) :
    result exactLibm J (2 * k) = dft (cis (2 * Real.pi / J.variableNum)) J.variableNum J.p k := by
  have hsq : cis (2 * Real.pi / (2 * J.variableNum : ℕ)) ^ 2
      = cis (2 * Real.pi / J.variableNum) := by
    rw [cis_pow]
    congr 1
    push_cast
    rw [← mul_div_assoc, mul_div_mul_left _ _ two_ne_zero]
  rw [result_eq_dft, ← hsq]
  refine Finset.sum_congr rfl fun t _ => ?_
  rw [← pow_mul]
  congr 2
  ring

/-- A transform with a root on the unit circle, in complex exponentials. -/
theorem toComplex_dft_cis (m n : ℕ) (x : ℕ → Cplx ℝ) (k : ℕ) :
    Cplx.toComplex (dft (cis (2 * Real.pi / m)) n x k) = ∑ t ∈ Finset.range n,
      Cplx.toComplex (x t) * Complex.exp (2 * Real.pi * Complex.I * k * t / m) := by
  rw [map_dft]
  refine Finset.sum_congr rfl fun t _ => ?_
  rw [toComplex_cis, ← Complex.exp_nat_mul]
  congr 2
  push_cast
  ring

/-- **The MPI FFT is correct, whatever the schedule.** For every number of coefficients from
`1` to `MAX_N`, every number of ranks from `1` to `2 * n` and every run in which all ranks
finish: every rank's `s[j]` is the polynomial at `exp (2 π i j / 2n)`, rank 0 has printed the
transform of the coefficients, and no message is left. -/
theorem fftMain_result (J : Job ℝ) (hn : 1 ≤ J.variableNum) (hmax : J.variableNum ≤ maxN)
    (hpos : 1 ≤ J.size) (hsize : J.size ≤ 2 * J.variableNum) (mem : ℕ → Rank ℝ)
    {c : Config (Rank ℝ) Tag (Message ℝ)}
    (h : Reachable (fftMain exactLibm J) J.size (start mem) c)
    (hfin : ∀ r, r < J.size → (c.loc r).pc = .finished) :
    (∀ r, r < J.size → ∀ j, j < 2 * J.variableNum →
      Cplx.toComplex (cell (c.loc r).s j) = ∑ t ∈ Finset.range J.variableNum,
        Cplx.toComplex (J.p t) *
          Complex.exp (2 * Real.pi * Complex.I * j * t / (2 * J.variableNum))) ∧
    ((c.loc 0).printed.map fun line => Cplx.toComplex line.value) =
      ((List.range J.variableNum).map fun k : ℕ => ∑ t ∈ Finset.range J.variableNum,
        Cplx.toComplex (J.p t) *
          Complex.exp (2 * Real.pi * Complex.I * k * t / J.variableNum)) ∧
    ∀ a b t, c.chan a b t = [] := by
  obtain ⟨hs, hlines, hchan⟩ := fftMain_final ⟨hn, hmax, hpos, hsize⟩ h hfin
  refine ⟨fun r hr j hj => ?_, ?_, hchan⟩
  · rw [hs r hr j hj, result_eq_dft, toComplex_dft_cis]
    push_cast
    rfl
  · -- rank 0 prints every second value, the one at a root of half the order
    have hvalues := congrArg (List.map Cplx.toComplex) hlines
    rw [List.map_map, List.map_map] at hvalues
    refine hvalues.trans (List.map_congr_left fun k _ => ?_)
    rw [Function.comp_apply, result_even, toComplex_dft_cis]

/-- The test data of `fft_main` on three ranks, in a run that has come to its end. -/
theorem fftMain_result_test :
    ∃ c, Reachable (fftMain exactLibm testJob) 3 (start fun _ => zeroRank) c ∧
      (∀ r, r < 3 → (c.loc r).pc = .finished) ∧
      (∀ r, r < 3 → ∀ j, j < 2 * 4 →
        Cplx.toComplex (cell (c.loc r).s j) = ∑ t ∈ Finset.range 4,
          Cplx.toComplex (testJob.p t) *
            Complex.exp (2 * Real.pi * Complex.I * j * t / (2 * (4 : ℕ)))) ∧
      ((c.loc 0).printed.map fun line => Cplx.toComplex line.value) =
        ((List.range 4).map fun k : ℕ => ∑ t ∈ Finset.range 4, Cplx.toComplex (testJob.p t) *
          Complex.exp (2 * Real.pi * Complex.I * k * t / (4 : ℕ))) ∧
      ∀ a b t, c.chan a b t = [] := by
  have hJ : testJob.Fits := ⟨by decide, by decide, by decide, by decide⟩
  obtain ⟨c, hreach, -, hfin⟩ := fftMain_completes (M := exactLibm) hJ
    (Relation.ReflTransGen.refl : Reachable _ _ (start fun _ => zeroRank) _)
  exact ⟨c, hreach, hfin, fftMain_result testJob (by decide) (by decide) (by decide) (by decide)
    (fun _ => zeroRank) hreach hfin⟩

end SqlCode.FftMpi
