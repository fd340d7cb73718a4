import SqlCode.FftMpi.Ranks
import SqlCode.Process.Choreography

/-!
# The exchange of the MPI FFT

What the ranks exchange is a choreography of three rounds (`exchange`): rank 0
sends the count and the coefficients to every other rank, receives the part of
the results that each of them computed, and sends the whole of the results back.
`fftMain` follows it (`fftMain_follows`) whenever there are not too many ranks
and the coefficients fit the array, whatever the arithmetic of the points.

The states that go with the events ahead are `AtRoot` for rank 0 and `AtPeer` for
the others. What they say of the memory is that the count and the coefficients
have arrived (`Loaded`), and which entries of `s` hold the `result`. Each of the
two predicates has one constructor for every place in the program, and the
proofs that the next action obeys (`root_obeys`, `peer_obeys`) go through them.
-/

namespace SqlCode.FftMpi

open Exec Dft Process

/-! ### The parts of the ranks -/

section Parts

variable {size n : ℕ}

theorem parts_total (size n : ℕ) : moreLength size n + size * everageLength size n = 2 * n :=
  Nat.mod_add_div (2 * n) size

theorem everageLength_pos (hpos : 1 ≤ size) (hsize : size ≤ 2 * n) : 1 ≤ everageLength size n :=
  Nat.div_pos hsize hpos

theorem startPos_succ (size n k : ℕ) :
    startPos size n (k + 1) = moreLength size n + (k + 1) * everageLength size n := by
  rw [startPos, if_neg (Nat.succ_ne_zero k)]

/-- The part of a rank lies inside the results. -/
theorem part_le {k : ℕ} (hk : k < size) :
    moreLength size n + k * everageLength size n + everageLength size n ≤ 2 * n := by
  have htotal := parts_total size n
  have hmul := Nat.mul_le_mul_right (everageLength size n) (Nat.succ_le_of_lt hk)
  rw [Nat.succ_mul] at hmul
  omega

/-- The part of a rank, in terms of `stopPos`. -/
theorem le_stopPos_iff (hpos : 1 ≤ size) (hsize : size ≤ 2 * n) (rank j : ℕ) :
    j ≤ stopPos size n rank ↔ j < moreLength size n + (rank + 1) * everageLength size n := by
  have hever := everageLength_pos hpos hsize
  unfold stopPos
  by_cases hr : rank = 0
  · subst hr
    rw [if_pos rfl, zero_add, one_mul]
    omega
  · rw [if_neg hr, startPos, if_neg hr, add_mul, one_mul]
    omega

end Parts

variable {R : Type} [Field R] (M : Libm R) (J : Job R)

/-! ### The computation of a rank -/

/-- The point that `w[i]` holds. -/
def rootAt (wLength i : ℕ) : Cplx R :=
  ⟨M.cos ((i * 2 : ℕ) * M.pi / wLength), M.sin ((i * 2 : ℕ) * M.pi / wLength)⟩

/-- The `j`-th result: the polynomial at the `j`-th point. -/
def result (j : ℕ) : Cplx R :=
  polyAt J.p 0 J.variableNum (rootAt M (2 * J.variableNum) j)

/-- The count and the coefficients have arrived. -/
structure Loaded (st : Rank R) : Prop where
  /-- The count. -/
  num : st.variableNum = J.variableNum
  /-- The coefficients. -/
  coeff : ∀ i, i < J.variableNum → cell st.p i = J.p i

/-- The data fits the arrays, and there is a part for every rank. -/
structure Job.Fits : Prop where
  /-- There are coefficients. -/
  pos : 1 ≤ J.variableNum
  /-- They fit `p`. -/
  le : J.variableNum ≤ maxN
  /-- There are ranks. -/
  size_pos : 1 ≤ J.size
  /-- There are not too many. -/
  size_le : J.size ≤ 2 * J.variableNum

variable {M J}

theorem fillRoots_ends {wLength : ℕ} (hw : wLength ≤ 2 * maxN) (w : Vector (Cplx R) (2 * maxN)) :
    Ends (fillRoots M wLength w) fun w' => ∀ i, i < wLength → cell w' i = rootAt M wLength i := by
  refine (ends_forCells (rootAt M wLength) (Nat.zero_le _) fun k y _ hk _ => ?_).mono
    fun w' hw' i hi => hw'.1 i (Nat.zero_le i) hi
  rw [wr_eq y (by omega)]
  exact ends_pure ⟨cell_set_self _ _ _, fun t ht => cell_set_ne _ _ _ ht⟩

/-- A rank computes its part of the results. -/
theorem compute_ends (hJ : J.Fits) {rank : ℕ} (hrank : rank < J.size) {st : Rank R}
    (hst : Loaded J st) :
    Ends (compute M J rank st) fun st' =>
      st'.variableNum = J.variableNum ∧ st'.printed = st.printed ∧
      st'.pc = (if rank = 0 then .recvSlice 1 else .sendSlice) ∧
      ∀ j, startPos J.size J.variableNum rank ≤ j →
        j < moreLength J.size J.variableNum
          + (rank + 1) * everageLength J.size J.variableNum → cell st'.s j = result M J j := by
  have hn := hJ.pos
  have hmax := hJ.le
  have hpart := @part_le J.size J.variableNum rank hrank
  have hstop := le_stopPos_iff hJ.size_pos hJ.size_le rank
  have hever := everageLength_pos hJ.size_pos hJ.size_le
  unfold compute
  rw [hst.num]
  refine (fillRoots_ends (by omega) st.w).bind fun w hw => ?_
  -- `evaluate` is called on a nonempty part within the arrays
  rw [add_mul, one_mul, ← add_assoc] at hstop ⊢
  have hbound := (hstop (stopPos J.size J.variableNum rank)).mp le_rfl
  have hnonempty : startPos J.size J.variableNum rank ≤ stopPos J.size J.variableNum rank := by
    rw [hstop, startPos]
    split_ifs <;> omega
  refine (evaluate_spec (J.junk rank) st.p w st.s (by omega) hnonempty (by omega) (by omega)
    (by omega) fun _ => ⟨by omega, by omega⟩).bind ?_
  rintro ⟨p, s⟩ ⟨-, hvalue, -⟩
  refine ends_pure ⟨rfl, rfl, rfl, fun j hlo hhi => ?_⟩
  calc cell s j
      = polyAt (cell st.p) 0 (J.variableNum - 1 + 1 - 0) (cell w j) :=
        hvalue j hlo ((hstop j).mpr hhi)
    _ = polyAt J.p 0 J.variableNum (cell w j) := by
        rw [show J.variableNum - 1 + 1 - 0 = J.variableNum by omega]
        exact polyAt_congr (fun i _ hi => hst.coeff i (by omega)) _
    _ = result M J j := by rw [hw j (by omega)]; rfl

/-! ### Blocks of results -/

/-- A block inside its array is sent. -/
theorem sendBlock_map {len : ℕ} {x : Vector (Cplx R) len} {off k : ℕ} {f : ℕ → Cplx R}
    (hle : off + k ≤ len) (hf : ∀ j, j < k → cell x (off + j) = f j) (dst : ℕ) (tag : Tag)
    (st : Rank R) :
    sendBlock x off k dst tag st = .send dst tag (.doubles ((List.range k).map f)) st := by
  rw [sendBlock, if_pos hle, slice_eq_map hf]

/-- A block of the expected length is received. -/
theorem recvBlock_map {len : ℕ} (x : Vector (Cplx R) len) {off k : ℕ} (f : ℕ → Cplx R)
    (h : off + k ≤ len) :
    ∃ x', recvBlock x off k (.doubles ((List.range k).map f)) = some x' ∧
      ∀ i, cell x' i = if off ≤ i ∧ i < off + k then f (i - off) else cell x i := by
  have hlen : ((List.range k).map f).length = k := by simp
  refine ⟨blit x off ((List.range k).map f), ?_, fun i => ?_⟩
  · rw [recvBlock, hlen, if_pos ⟨le_rfl, h⟩]
  · rw [cell_blit x (by omega), hlen]
    by_cases hi : off ≤ i ∧ i < off + k
    · have hlt : i - off < k := by omega
      rw [if_pos hi, if_pos hi]
      simp [List.getD_eq_getElem?_getD, hlt]
    · rw [if_neg hi, if_neg hi]

/-! ### The choreography -/

variable (M J)

/-- The message with the count. -/
def numMessage : Message R := .int J.variableNum

/-- The message with the coefficients. -/
def coeffMessage : Message R := .doubles ((List.range J.variableNum).map J.p)

/-- The message with the part of rank `r`. -/
def sliceMessage (r : ℕ) : Message R :=
  .doubles ((List.range (everageLength J.size J.variableNum)).map fun j =>
    result M J (startPos J.size J.variableNum r + j))

/-- The message with the whole of the results. -/
def resultMessage : Message R := .doubles ((List.range (2 * J.variableNum)).map (result M J))

/-- The messages between rank 0 and rank `k + 1` in the first round. -/
def firstRound (k : ℕ) : List (Comm Tag (Message R)) :=
  [⟨0, k + 1, .V, numMessage J, (Nat.succ_ne_zero k).symm⟩,
    ⟨0, k + 1, .P, coeffMessage J, (Nat.succ_ne_zero k).symm⟩]

/-- In the second round. -/
def secondRound (k : ℕ) : List (Comm Tag (Message R)) :=
  [⟨k + 1, 0, .S, sliceMessage M J (k + 1), Nat.succ_ne_zero k⟩]

/-- In the third round. -/
def thirdRound (k : ℕ) : List (Comm Tag (Message R)) :=
  [⟨0, k + 1, .S2, resultMessage M J, (Nat.succ_ne_zero k).symm⟩]

/-- The choreography: each round goes through the other ranks in their order. -/
def exchange : List (Comm Tag (Message R)) :=
  (List.range' 0 (J.size - 1)).flatMap (firstRound J)
    ++ (List.range' 0 (J.size - 1)).flatMap (secondRound M J)
    ++ (List.range' 0 (J.size - 1)).flatMap (thirdRound M J)

/-- Rank 0's side of the first round, from rank `k + 1` on, for `m` ranks. -/
def rootFirst (k m : ℕ) : List (Event Tag (Message R)) :=
  (List.range' k m).flatMap fun k =>
    [.send (k + 1) .V (numMessage J), .send (k + 1) .P (coeffMessage J)]

/-- Rank 0's side of the second round. -/
def rootSecond (k m : ℕ) : List (Event Tag (Message R)) :=
  (List.range' k m).flatMap fun k => [.recv (k + 1) .S (sliceMessage M J (k + 1))]

/-- Rank 0's side of the third round. -/
def rootThird (k m : ℕ) : List (Event Tag (Message R)) :=
  (List.range' k m).flatMap fun k => [.send (k + 1) .S2 (resultMessage M J)]

/-- The events ahead of rank 0 at the start. -/
def rootEvents : List (Event Tag (Message R)) :=
  rootFirst J 0 (J.size - 1) ++ (rootSecond M J 0 (J.size - 1) ++ rootThird M J 0 (J.size - 1))

/-- The events ahead of rank `r > 0` at the start. -/
def peerEvents (r : ℕ) : List (Event Tag (Message R)) :=
  [.recv 0 .V (numMessage J), .recv 0 .P (coeffMessage J), .send 0 .S (sliceMessage M J r),
    .recv 0 .S2 (resultMessage M J)]

omit [Field R] in
/-- The only index of a round that concerns rank `q + 1` is `q`. -/
theorem flatMap_single {α : Type} (l : List α) (q m : ℕ) :
    ((List.range' 0 m).flatMap fun k => if k = q then l else []) = if q < m then l else [] := by
  induction m with
  | zero => rfl
  | succ m ih =>
    rw [List.range'_1_concat, List.flatMap_append, ih, List.flatMap_singleton, zero_add]
    by_cases hq : m = q
    · rw [if_pos hq, if_neg (by omega), if_pos (by omega), List.nil_append]
    · rw [if_neg hq, List.append_nil]
      exact if_congr (by omega) rfl rfl

theorem project_root : project 0 (exchange M J) = rootEvents M J := by
  unfold exchange
  rw [project_append, project_append, project_flatMap, project_flatMap, project_flatMap,
    List.append_assoc]
  rfl

theorem project_peer {q : ℕ} (hq : q + 1 < J.size) :
    project (q + 1) (exchange M J) = peerEvents M J (q + 1) := by
  have hlt : q < J.size - 1 := by omega
  -- of each round, rank `q + 1` sees the messages of index `q`
  have h₁ : ∀ k, project (q + 1) (firstRound J k) =
      if k = q then [.recv 0 .V (numMessage J), .recv 0 .P (coeffMessage J)] else [] := by
    intro k
    by_cases hk : k = q
    · subst hk
      simp [project, firstRound, Comm.event]
    · simp [project, firstRound, Comm.event, hk, Ne.symm hk]
  have h₂ : ∀ k, project (q + 1) (secondRound M J k) =
      if k = q then [.send 0 .S (sliceMessage M J (q + 1))] else [] := by
    intro k
    by_cases hk : k = q
    · subst hk
      simp [project, secondRound, Comm.event]
    · simp [project, secondRound, Comm.event, hk, Ne.symm hk]
  have h₃ : ∀ k, project (q + 1) (thirdRound M J k) =
      if k = q then [.recv 0 .S2 (resultMessage M J)] else [] := by
    intro k
    by_cases hk : k = q
    · subst hk
      simp [project, thirdRound, Comm.event]
    · simp [project, thirdRound, Comm.event, hk, Ne.symm hk]
  -- so that a whole round comes down to its messages of that index
  unfold exchange
  rw [project_append, project_append, project_flatMap, project_flatMap, project_flatMap]
  simp only [h₁, h₂, h₃, flatMap_single, if_pos hlt]
  rfl

theorem exchange_within : ∀ g ∈ exchange M J, g.src < J.size ∧ g.dst < J.size := by
  intro g hg
  simp only [exchange, firstRound, secondRound, thirdRound, List.mem_append, List.mem_flatMap,
    List.mem_range'_1, List.mem_cons, List.not_mem_nil, or_false] at hg
  rcases hg with (⟨k, hk, rfl | rfl⟩ | ⟨k, hk, rfl⟩) | ⟨k, hk, rfl⟩ <;>
    · dsimp only
      omega

/-! ### The states of rank 0 -/

/-- The states of rank 0 that go with the events ahead. In a loop it has `m` ranks to go,
from rank `k + 1` on. -/
inductive AtRoot : List (Event Tag (Message R)) → Rank R → Prop
  | start {st : Rank R} (hpc : st.pc = .start) (hout : st.printed = []) :
      AtRoot (rootEvents M J) st
  | sendOrigNum {st : Rank R} {k m : ℕ} (hpc : st.pc = .sendOrigNum (k + 1))
      (hout : st.printed = []) (hkm : k + 1 + m = J.size) (hst : Loaded J st) :
      AtRoot (rootFirst J k m
        ++ (rootSecond M J 0 (J.size - 1) ++ rootThird M J 0 (J.size - 1))) st
  | sendOrigP {st : Rank R} {k m : ℕ} (hpc : st.pc = .sendOrigP (k + 1))
      (hout : st.printed = []) (hkm : k + 1 + (m + 1) = J.size) (hst : Loaded J st) :
      AtRoot (.send (k + 1) .P (coeffMessage J) :: (rootFirst J (k + 1) m
        ++ (rootSecond M J 0 (J.size - 1) ++ rootThird M J 0 (J.size - 1)))) st
  | compute {st : Rank R} (hpc : st.pc = .compute) (hout : st.printed = []) (hst : Loaded J st) :
      AtRoot (rootSecond M J 0 (J.size - 1) ++ rootThird M J 0 (J.size - 1)) st
  | recvSlice {st : Rank R} {k m : ℕ} (hpc : st.pc = .recvSlice (k + 1))
      (hout : st.printed = []) (hkm : k + 1 + m = J.size) (hn : st.variableNum = J.variableNum)
      (hs : ∀ j, j < moreLength J.size J.variableNum
        + (k + 1) * everageLength J.size J.variableNum → cell st.s j = result M J j) :
      AtRoot (rootSecond M J k m ++ rootThird M J 0 (J.size - 1)) st
  | sendResult {st : Rank R} {k m : ℕ} (hpc : st.pc = .sendResult (k + 1))
      (hout : st.printed = []) (hkm : k + 1 + m = J.size) (hn : st.variableNum = J.variableNum)
      (hs : ∀ j, j < 2 * J.variableNum → cell st.s j = result M J j) :
      AtRoot (rootThird M J k m) st
  | printres {st : Rank R} (hpc : st.pc = .printres) (hout : st.printed = [])
      (hn : st.variableNum = J.variableNum)
      (hs : ∀ j, j < 2 * J.variableNum → cell st.s j = result M J j) : AtRoot [] st
  | finished {st : Rank R} (hpc : st.pc = .finished)
      (hs : ∀ j, j < 2 * J.variableNum → cell st.s j = result M J j)
      (hout : st.printed.map Line.value =
        (List.range J.variableNum).map fun k => result M J (2 * k)) : AtRoot [] st

variable {M J}

/-- What rank 0 does before the first round. -/
theorem initRoot_ends (hJ : J.Fits) (st : Rank R) :
    Ends (initRoot J st) fun st' =>
      Loaded J st' ∧ st'.pc = .sendOrigNum 1 ∧ st'.printed = st.printed := by
  have hn := hJ.pos
  have hmax := hJ.le
  have hassign : Ends (assignData J st) fun st' => Loaded J st' ∧ st'.printed = st.printed := by
    unfold assignData
    refine (ends_forCells J.p (Nat.zero_le _) fun k y _ hk _ => ?_).bind fun p hp => ?_
    · rw [wr_eq y (by omega)]
      exact ends_pure ⟨cell_set_self _ _ _, fun t ht => cell_set_ne _ _ _ ht⟩
    · exact ends_pure ⟨⟨rfl, fun i hi => hp.1 i (Nat.zero_le i) hi⟩, rfl⟩
  -- the file is checked first, and the check passes
  have hload : Ends (loadData J st) fun st' => Loaded J st' ∧ st'.printed = st.printed := by
    unfold loadData
    cases J.source with
    | file =>
      change Ends (readFromFile J st) _
      unfold readFromFile
      rwa [if_neg (by omega)]
    | program => exact hassign
  unfold initRoot
  refine hload.bind ?_
  rintro st' ⟨hst', hout⟩
  rw [if_neg (by rw [hst'.num]; exact Nat.not_lt.mpr hJ.size_le)]
  exact ends_pure ⟨⟨hst'.num, hst'.coeff⟩, rfl, hout⟩

section

variable [LT R] [DecidableLT R]

theorem lineValue (z : Cplx R) :
    Line.value (if z.imag < 0 then ⟨z.real, false, -z.imag⟩ else ⟨z.real, true, z.imag⟩) = z := by
  split_ifs <;> simp [Line.value]

/-- The printed lines stand for the entries with even indices. -/
theorem printres_ends {s : Vector (Cplx R) (2 * maxN)} {n : ℕ} {f : ℕ → Cplx R}
    (hn : n ≤ maxN) (hs : ∀ j, j < 2 * n → cell s j = f j) :
    Ends (printres s (2 * n)) fun out =>
      out.map Line.value = (List.range n).map fun k => f (2 * k) := by
  unfold printres forLoop
  rw [show (2 * n - 0 + (2 - 1)) / 2 = n by omega]
  refine ends_forCount (fun t (out : List (Line R)) =>
    out.map Line.value = (List.range t).map fun k => f (2 * k)) rfl fun t out ht hout => ?_
  rw [rd_eq s (by omega), pure_bind]
  refine ends_pure ?_
  rw [List.map_append, hout, List.map_singleton, lineValue, List.range_succ, List.map_append,
    List.map_singleton, hs _ (by omega), zero_add, mul_comm t 2]

/-- **Rank 0 follows the choreography.** -/
theorem root_obeys (hJ : J.Fits) {todo : List (Event Tag (Message R))} {st : Rank R}
    (h : AtRoot M J todo st) : (fftMain M J 0 st).Obeys (AtRoot M J) todo := by
  have hmax := hJ.le
  have hsize := hJ.size_pos
  have htotal := parts_total J.size J.variableNum
  cases h with
  | start hpc hout =>
    simp only [fftMain, hpc]
    refine (initRoot_ends hJ st).mono ?_
    rintro st' ⟨hst', hpc', hout'⟩
    exact .sendOrigNum hpc' (hout'.trans hout) (by omega) hst'
  | @sendOrigNum _ k m hpc hout hkm hst =>
    simp only [fftMain, hpc]
    -- `m` is zero exactly when the loop ends
    cases m with
    | zero =>
      rw [if_neg (by omega)]
      exact ends_pure (.compute rfl hout ⟨hst.num, hst.coeff⟩)
    | succ m =>
      rw [if_pos (by omega), hst.num]
      exact ⟨_, rfl, .sendOrigP rfl hout hkm ⟨rfl, hst.coeff⟩⟩
  | @sendOrigP _ k m hpc hout hkm hst =>
    have hcell : ∀ j, j < J.variableNum → cell st.p (0 + j) = J.p j := by
      intro j hj
      rw [zero_add, hst.coeff j hj]
    simp only [fftMain, hpc]
    rw [hst.num, sendBlock_map (by omega) hcell]
    exact ⟨_, rfl, .sendOrigNum rfl hout (by omega) ⟨rfl, hst.coeff⟩⟩
  -- rank 0 has its own part in `s`, at the start of it
  | compute hpc hout hst =>
    simp only [fftMain, hpc]
    refine (compute_ends hJ (by omega) hst).mono ?_
    rintro st' ⟨hn', hout', hpc', hs'⟩
    exact .recvSlice hpc' (hout'.trans hout) (by omega) hn' fun j hj => hs' j (Nat.zero_le j) hj
  | @recvSlice _ k m hpc hout hkm hn hs =>
    simp only [fftMain, hpc]
    cases m with
    | zero =>
      rw [if_neg (by omega)]
      -- the parts of all ranks make up the whole of `s`
      rw [show k + 1 = J.size by omega, htotal] at hs
      exact ends_pure (.sendResult rfl hout (by omega) hn hs)
    | succ m =>
      have hpart := @part_le J.size J.variableNum (k + 1) (by omega)
      obtain ⟨s', hs', hcell⟩ := recvBlock_map st.s
        (fun j => result M J (startPos J.size J.variableNum (k + 1) + j))
        (hpart.trans (Nat.mul_le_mul_left 2 hmax))
      rw [if_pos (by omega), hn]
      refine ⟨sliceMessage M J (k + 1), rootSecond M J (k + 1) m ++ rootThird M J 0 (J.size - 1),
        rfl, ?_⟩
      unfold sliceMessage
      beta_reduce
      rw [hs']
      refine .recvSlice rfl hout (by omega) rfl fun j hj => ?_
      rw [hcell]
      -- the part that came, and the parts that were there
      split_ifs with hjk
      · rw [startPos_succ, Nat.add_sub_cancel' hjk.1]
      · refine hs j ?_
        rw [Nat.succ_mul (k + 1)] at hj
        omega
  | @sendResult _ k m hpc hout hkm hn hs =>
    simp only [fftMain, hpc]
    cases m with
    | zero =>
      rw [if_neg (by omega)]
      exact ends_pure (.printres rfl hout hn hs)
    | succ m =>
      have hcell : ∀ j, j < 2 * J.variableNum → cell st.s (0 + j) = result M J j := by
        intro j hj
        rw [zero_add, hs j hj]
      rw [if_pos (by omega), hn, sendBlock_map (by omega) hcell]
      exact ⟨_, rfl, .sendResult rfl hout (by omega) rfl hs⟩
  | printres hpc hout hn hs =>
    simp only [fftMain, hpc]
    rw [hn, hout]
    refine (printres_ends hmax hs).bind fun out hlines => ends_pure ?_
    exact .finished rfl hs hlines
  | finished hpc hs hout =>
    simp only [fftMain, hpc]
    rfl

/-! ### The states of the other ranks -/

variable (M J) in
/-- The states of rank `r > 0` that go with the events ahead. -/
inductive AtPeer (r : ℕ) : List (Event Tag (Message R)) → Rank R → Prop
  | start {st : Rank R} (hpc : st.pc = .start) : AtPeer r (peerEvents M J r) st
  | recvOrigNum {st : Rank R} (hpc : st.pc = .recvOrigNum) : AtPeer r (peerEvents M J r) st
  | recvOrigP {st : Rank R} (hpc : st.pc = .recvOrigP) (hn : st.variableNum = J.variableNum) :
      AtPeer r [.recv 0 .P (coeffMessage J), .send 0 .S (sliceMessage M J r),
        .recv 0 .S2 (resultMessage M J)] st
  | compute {st : Rank R} (hpc : st.pc = .compute) (hst : Loaded J st) :
      AtPeer r [.send 0 .S (sliceMessage M J r), .recv 0 .S2 (resultMessage M J)] st
  | sendSlice {st : Rank R} (hpc : st.pc = .sendSlice) (hn : st.variableNum = J.variableNum)
      (hs : ∀ j, j < everageLength J.size J.variableNum →
        cell st.s (startPos J.size J.variableNum r + j)
          = result M J (startPos J.size J.variableNum r + j)) :
      AtPeer r [.send 0 .S (sliceMessage M J r), .recv 0 .S2 (resultMessage M J)] st
  | recvResult {st : Rank R} (hpc : st.pc = .recvResult) (hn : st.variableNum = J.variableNum) :
      AtPeer r [.recv 0 .S2 (resultMessage M J)] st
  | finished {st : Rank R} (hpc : st.pc = .finished)
      (hs : ∀ j, j < 2 * J.variableNum → cell st.s j = result M J j) : AtPeer r [] st

/-- **The other ranks follow the choreography.** -/
theorem peer_obeys (hJ : J.Fits) {q : ℕ} (hq : q + 1 < J.size)
    {todo : List (Event Tag (Message R))} {st : Rank R} (h : AtPeer M J (q + 1) todo st) :
    (fftMain M J (q + 1) st).Obeys (AtPeer M J (q + 1)) todo := by
  have hmax := hJ.le
  have hpart := @part_le J.size J.variableNum (q + 1) hq
  have hstart := startPos_succ J.size J.variableNum q
  cases h with
  | start hpc =>
    simp only [fftMain, hpc]
    exact ends_pure (.recvOrigNum rfl)
  | recvOrigNum hpc =>
    simp only [fftMain, hpc]
    exact ⟨_, _, rfl, .recvOrigP rfl rfl⟩
  | recvOrigP hpc hn =>
    simp only [fftMain, hpc]
    -- the coefficients fit where they are received
    obtain ⟨p', hp', hcell⟩ := recvBlock_map st.p J.p
      (show 0 + J.variableNum ≤ maxN by rwa [zero_add])
    refine ⟨coeffMessage J, _, rfl, ?_⟩
    unfold coeffMessage
    beta_reduce
    rw [hn, hp']
    refine .compute rfl ⟨rfl, fun i hi => ?_⟩
    rw [hcell, if_pos ⟨Nat.zero_le i, by omega⟩, Nat.sub_zero]
  | compute hpc hst =>
    simp only [fftMain, hpc]
    refine (compute_ends hJ hq hst).mono ?_
    rintro st' ⟨hn', -, hpc', hs'⟩
    -- the part that is computed is the part that is sent
    refine .sendSlice hpc' hn' fun j hj => hs' _ (Nat.le_add_right _ _) ?_
    rw [hstart, Nat.succ_mul (q + 1)]
    omega
  | sendSlice hpc hn hs =>
    simp only [fftMain, hpc]
    rw [hn, sendBlock_map (by omega) hs]
    exact ⟨_, rfl, .recvResult rfl rfl⟩
  | recvResult hpc hn =>
    simp only [fftMain, hpc]
    obtain ⟨s', hs', hcell⟩ := recvBlock_map st.s (result M J)
      (show 0 + 2 * J.variableNum ≤ 2 * maxN by omega)
    refine ⟨resultMessage M J, _, rfl, ?_⟩
    unfold resultMessage
    beta_reduce
    rw [hn, hs']
    refine .finished rfl fun j hj => ?_
    rw [hcell, if_pos ⟨Nat.zero_le j, by omega⟩, Nat.sub_zero]
  | finished hpc hs =>
    simp only [fftMain, hpc]
    rfl

/-! ### The whole job -/

variable (M J) in
/-- The states of any rank. -/
def AtRank (r : ℕ) (todo : List (Event Tag (Message R))) (st : Rank R) : Prop :=
  if r = 0 then AtRoot M J todo st else AtPeer M J r todo st

omit [LT R] [DecidableLT R] in
/-- A rank that has finished holds the results. -/
theorem AtRank.result_of_finished {r : ℕ} {todo : List (Event Tag (Message R))} {st : Rank R}
    (h : AtRank M J r todo st) (hfin : st.pc = .finished) (j : ℕ) (hj : j < 2 * J.variableNum) :
    cell st.s j = result M J j := by
  unfold AtRank at h
  split_ifs at h
  · cases h with
    | finished _ hs => exact hs j hj
    | _ hpc => rw [hpc] at hfin; cases hfin
  · cases h with
    | finished _ hs => exact hs j hj
    | _ hpc => rw [hpc] at hfin; cases hfin

omit [LT R] [DecidableLT R] in
/-- Rank 0 has printed half of them. -/
theorem AtRank.printed_of_finished {todo : List (Event Tag (Message R))} {st : Rank R}
    (h : AtRank M J 0 todo st) (hfin : st.pc = .finished) :
    st.printed.map Line.value = (List.range J.variableNum).map fun k => result M J (2 * k) := by
  change AtRoot M J todo st at h
  cases h with
  | finished _ _ hout => exact hout
  | _ hpc => rw [hpc] at hfin; cases hfin

/-- **The MPI program follows the choreography.** -/
theorem fftMain_follows (hJ : J.Fits) (mem : ℕ → Rank R) :
    Follows (fftMain M J) J.size (AtRank M J) (exchange M J) (start mem) where
  within := exchange_within M J
  start r hr := by
    cases r with
    | zero =>
      rw [project_root]
      exact AtRoot.start rfl rfl
    | succ q =>
      rw [project_peer M J hr]
      exact AtPeer.start rfl
  quiet _ _ _ := rfl
  running := rfl
  obeys r todo st hr h := by
    cases r with
    | zero => exact root_obeys hJ h
    | succ q => exact peer_obeys hJ hr h

end

end SqlCode.FftMpi
