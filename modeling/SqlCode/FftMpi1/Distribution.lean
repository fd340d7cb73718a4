import SqlCode.FftMpi1.Model
import SqlCode.Process.Network

/-!
# `fft_mpi1` with several processes: the distribution phase

The part of `main` from `p = group_size` to the receive of `P_In`, as the program of one
rank. Rank 0 has the data and sends each element on its own; every other rank has one
`MPI_Recv`. The three calls of `MPI_Bcast` stand inside `if(myid == 0)`. A broadcast is
read as its root's sends to the other ranks on a channel of its own, from which a rank
takes the value when it makes the call itself, and no other rank does.

Such a rank therefore still has the zeros that C gives to global variables. It allocates
`complexsize * 0` bytes and posts a receive of `0` elements, which a message of one
float does not fit. What a receive with too long a message does is up to the error
handler of the communicator: end the job, as MPI does unless told otherwise, or return an
error code, which the program ignores.

Two facts settle the phase. By a local invariant no rank but 0 ever gets to know `m`
(`m_eq_zero`), so the data are distributed in no reachable configuration
(`not_distributed`). And the phase does come to an end: a run is built in stages, the
broadcasts, the sends and then the receives (`exists_over`).
-/

namespace SqlCode.FftMpi1

open Exec Dft Process

variable {R : Type}

/-- The global variables that are broadcast. -/
inductive Global
  | M | nLen | m
  deriving DecidableEq, Repr

/-- The channels: those of the broadcasts, and the tags of `MPI_Send` and `MPI_Recv`. -/
inductive Tag
  | bcast (v : Global)
  | p2p (tag : ℕ)
  deriving DecidableEq, Repr

/-- What is sent: an `MPI_INT`, or some `MPI_FLOAT`s. -/
inductive Message (R : Type)
  | int (v : ℕ)
  | floats (l : List R)

/-- What happens when an MPI call fails. -/
inductive ErrorHandler
  /-- `MPI_ERRORS_ARE_FATAL`, the default. -/
  | errorsAreFatal
  /-- `MPI_ERRORS_RETURN`. -/
  | errorsReturn
  deriving DecidableEq, Repr

/-- Where a rank is. -/
inductive Pc
  /-- After `p = group_size`. -/
  | start
  /-- In the `MPI_Bcast` of `v`, about to send to rank `i`. -/
  | bcast (v : Global) (i : ℕ)
  /-- About to allocate `P_In`. -/
  | alloc
  /-- Rank 0, about to send element `j` of rank `i`. -/
  | sending (i j : ℕ)
  /-- About to receive `P_In`. -/
  | receiving
  /-- After the phase. -/
  | distributed
  /-- After an error that ends the job. -/
  | failed
  deriving DecidableEq, Repr

/-- The memory of a rank. -/
structure Rank (R : Type) where
  /-- Where it is. -/
  pc : Pc
  /-- `M`. -/
  M : ℕ
  /-- `nLen`. -/
  nLen : ℕ
  /-- `m`. -/
  m : ℕ
  /-- The number of elements allocated for `P_In`. -/
  pLen : ℕ
  /-- `P_In`. -/
  pIn : Vector (Cplx R) pLen

/-- What a job is given: the number of processes, what `readData` leaves in `M` and in
`A_In`, and the uninitialised memory of each rank. -/
structure Job (R : Type) where
  /-- `group_size`. -/
  size : ℕ
  /-- `M`. -/
  M : ℕ
  /-- `A_In`, of length `nLen`. -/
  aIn : Vector (Cplx R) (2 ^ M)
  /-- The uninitialised memory of each rank. -/
  junk : ℕ → ℕ → Cplx R

/-- `nLen`. -/
abbrev Job.nLen (J : Job R) : ℕ := 2 ^ J.M

/-- The value of a global variable. -/
def Rank.global (st : Rank R) : Global → ℕ
  | .M => st.M
  | .nLen => st.nLen
  | .m => st.m

/-- Where rank 0 is after the broadcast of a variable. -/
def Global.next : Global → Pc
  | .M => .bcast .nLen 1
  | .nLen => .bcast .m 1
  | .m => .alloc

/-- `malloc` of `P_In`, and in rank 0 the loop that fills it. -/
def allocate (J : Job R) (myid : ℕ) (st : Rank R) : Prog (Rank R) := do
  let pIn := malloc (J.junk myid) st.m
  if myid = 0 then
    let pIn ← forRange 0 st.m pIn fun i pIn => do wr pIn i (← rd J.aIn (i * J.size))
    pure { st with pLen := st.m, pIn := pIn, pc := .sending 1 0 }
  else pure { st with pLen := st.m, pIn := pIn, pc := .receiving }

/-- `MPI_Send(&A_In[j*p+i], 1, MPI_FLOAT, i, i, ..)`: the first float at that address. -/
def sendElement (J : Job R) (i j : ℕ) (st : Rank R) : Action (Rank R) Tag (Message R) :=
  if h : j * J.size + i < 2 ^ J.M then
    .send i (.p2p i) (.floats [J.aIn[j * J.size + i].real]) st
  else .exit

/-- Complex numbers over whose floats those of `l` are written. -/
def storeFloats {len : ℕ} (pIn : Vector (Cplx R) len) (l : List R) : Vector (Cplx R) len :=
  Vector.ofFn fun k =>
    ⟨l.getD (2 * k.val) (pIn.get k).real, l.getD (2 * k.val + 1) (pIn.get k).imag⟩

/-- The rank after `MPI_Recv(P_In, m, MPI_FLOAT, ..)`. Of a message with more than `m` floats
the first `m` are stored, if the rank goes on at all. -/
def received (onError : ErrorHandler) (st : Rank R) : Message R → Rank R
  | .floats l =>
    let stored : Rank R :=
      { st with pIn := storeFloats st.pIn (l.take st.m), pc := .distributed }
    if l.length ≤ st.m then stored
    else match onError with
      | .errorsAreFatal => { st with pc := .failed }
      | .errorsReturn => stored
  | .int _ => { st with pc := .failed }

/-- The distribution phase, one action at a time. -/
def distribute (J : Job R) (onError : ErrorHandler) : Program (Rank R) Tag (Message R) :=
  fun myid st =>
  match st.pc with
  | .start =>
    if myid = 0 then
      .run (pure { st with M := J.M, nLen := J.nLen, m := J.nLen / J.size, pc := .bcast .M 1 })
    else .run (pure { st with pc := .alloc })
  | .bcast v i =>
    if i < J.size then .send i (.bcast v) (.int (st.global v)) { st with pc := .bcast v (i + 1) }
    else .run (pure { st with pc := v.next })
  | .alloc => .run (allocate J myid st)
  | .sending i j =>
    if i < J.size then
      if j < st.m then sendElement J i j { st with pc := .sending i (j + 1) }
      else .run (pure { st with pc := .sending (i + 1) 0 })
    else .run (pure { st with pc := .distributed })
  | .receiving => .recv 0 (.p2p myid) (received onError st)
  | .distributed => .halt
  | .failed => .exit

/-- A rank after `p = group_size`: no global variable has been assigned. -/
def fresh : Rank R :=
  ⟨.start, 0, 0, 0, 0, #v[]⟩

/-- The configuration at the start. -/
def init : Config (Rank R) Tag (Message R) :=
  ⟨fun _ => fresh, fun _ _ _ => [], false⟩

/-- **The phase is over**: every rank is past it, or the job has been ended. -/
def Over (J : Job R) (c : Config (Rank R) Tag (Message R)) : Prop :=
  c.ended = true ∨ ∀ r, r < J.size → (c.loc r).pc = .distributed

/-- **The data are distributed**: every rank has the right `m` and its part of `A_In`. -/
def Distributed (J : Job R) (c : Config (Rank R) Tag (Message R)) : Prop :=
  ∀ r, r < J.size → (c.loc r).m = J.nLen / J.size ∧
    ∀ j, j < (c.loc r).m → (c.loc r).pIn[j]? = J.aIn[j * J.size + r]?

variable {J : Job R} {onError : ErrorHandler} {c : Config (Rank R) Tag (Message R)}

/-! ### The actions -/

section
variable {myid i j : ℕ} {v : Global} {st : Rank R}

theorem distribute_start_root (h : st.pc = .start) : distribute J onError 0 st =
    .run (pure { st with M := J.M, nLen := J.nLen, m := J.nLen / J.size, pc := .bcast .M 1 }) := by
  unfold distribute
  rw [h]
  exact if_pos rfl

theorem distribute_start (hid : myid ≠ 0) (h : st.pc = .start) :
    distribute J onError myid st = .run (pure { st with pc := .alloc }) := by
  unfold distribute
  rw [h]
  exact if_neg hid

theorem distribute_bcast (h : st.pc = .bcast v i) (hi : i < J.size) :
    distribute J onError myid st =
      .send i (.bcast v) (.int (st.global v)) { st with pc := .bcast v (i + 1) } := by
  unfold distribute
  rw [h]
  exact if_pos hi

theorem distribute_bcast_end (h : st.pc = .bcast v i) (hi : ¬ i < J.size) :
    distribute J onError myid st = .run (pure { st with pc := v.next }) := by
  unfold distribute
  rw [h]
  exact if_neg hi

theorem distribute_alloc (h : st.pc = .alloc) :
    distribute J onError myid st = .run (allocate J myid st) := by
  unfold distribute
  rw [h]

theorem distribute_sending (h : st.pc = .sending i j) (hi : i < J.size) (hj : j < st.m) :
    distribute J onError myid st = sendElement J i j { st with pc := .sending i (j + 1) } := by
  unfold distribute
  rw [h]
  dsimp only
  rw [if_pos hi, if_pos hj]

theorem distribute_sending_row (h : st.pc = .sending i j) (hi : i < J.size) (hj : ¬ j < st.m) :
    distribute J onError myid st = .run (pure { st with pc := .sending (i + 1) 0 }) := by
  unfold distribute
  rw [h]
  dsimp only
  rw [if_pos hi, if_neg hj]

theorem distribute_sending_end (h : st.pc = .sending i j) (hi : ¬ i < J.size) :
    distribute J onError myid st = .run (pure { st with pc := .distributed }) := by
  unfold distribute
  rw [h]
  exact if_neg hi

theorem distribute_receiving (h : st.pc = .receiving) :
    distribute J onError myid st = .recv 0 (.p2p myid) (received onError st) := by
  unfold distribute
  rw [h]

theorem distribute_distributed (h : st.pc = .distributed) :
    distribute J onError myid st = .halt := by
  unfold distribute
  rw [h]

theorem distribute_failed (h : st.pc = .failed) : distribute J onError myid st = .exit := by
  unfold distribute
  rw [h]

theorem sendElement_eq (h : j * J.size + i < 2 ^ J.M) (st : Rank R) :
    ∃ x, sendElement J i j st = .send i (.p2p i) (.floats [x]) st :=
  ⟨_, dif_pos h⟩

end

/-! ### What the other ranks know -/

theorem received_m (st : Rank R) (msg : Message R) : (received onError st msg).m = st.m := by
  cases msg with
  | int v => rfl
  | floats l =>
    dsimp only [received]
    split_ifs
    · rfl
    · cases onError with
      | errorsAreFatal => rfl
      | errorsReturn => rfl

theorem allocate_of_ne {myid : ℕ} (h : myid ≠ 0) (st : Rank R) :
    allocate J myid st =
      pure { st with pLen := st.m, pIn := malloc (J.junk myid) st.m, pc := .receiving } :=
  if_neg h

/-- No action of a rank other than 0 assigns `m`. -/
theorem distribute_keeps_m {myid : ℕ} (hid : myid ≠ 0) (st : Rank R) :
    (distribute J onError myid st).Keeps fun s => s.m = st.m := by
  cases h : st.pc with
  | start =>
    rw [distribute_start hid h]
    exact Action.keeps_pure rfl
  | bcast v i =>
    by_cases hi : i < J.size
    · rw [distribute_bcast h hi]
      exact rfl
    · rw [distribute_bcast_end h hi]
      exact Action.keeps_pure rfl
  | alloc =>
    rw [distribute_alloc h, allocate_of_ne hid]
    exact Action.keeps_pure rfl
  -- a send only moves the two loops on
  | sending i j =>
    by_cases hi : i < J.size
    · by_cases hj : j < st.m
      · rw [distribute_sending h hi hj]
        unfold sendElement
        split_ifs
        · exact rfl
        · exact trivial
      · rw [distribute_sending_row h hi hj]
        exact Action.keeps_pure rfl
    · rw [distribute_sending_end h hi]
      exact Action.keeps_pure rfl
  -- the message that arrives goes into the elements
  | receiving =>
    rw [distribute_receiving h]
    exact received_m st
  | distributed =>
    rw [distribute_distributed h]
    exact trivial
  | failed =>
    rw [distribute_failed h]
    exact trivial

/-- **No rank but 0 gets to know `m`.** -/
theorem m_eq_zero (hc : Reachable (distribute J onError) J.size init c) {r : ℕ} (hr : r ≠ 0) :
    (c.loc r).m = 0 := by
  refine hc.loc_invariant (fun q s => q ≠ 0 → s.m = 0) (fun _ _ => rfl) ?_ r hr
  intro q s _ hs
  by_cases hq : q = 0
  · -- nothing is said about rank 0
    exact Action.keeps_of_forall (fun _ hne => absurd hq hne) _
  · exact (distribute_keeps_m hq s).mono fun s' hs' hne => hs'.trans (hs hne)

/-- With two processes or more the data are never distributed. -/
theorem not_distributed (hp : 2 ≤ J.size) (hdvd : J.size ∣ J.nLen)
    (hc : Reachable (distribute J onError) J.size init c) : ¬ Distributed J c := by
  intro hd
  -- rank 1 would need `m = nLen / p`, which is not zero
  have hm : (c.loc 1).m = J.nLen / J.size := (hd 1 (by omega)).1
  rw [m_eq_zero hc one_ne_zero] at hm
  have hle : J.size ≤ J.nLen := Nat.le_of_dvd (Nat.two_pow_pos _) hdvd
  have hpos : 0 < J.nLen / J.size := Nat.div_pos hle (by omega)
  omega

/-! ### A run through the phase -/

/-- Rank 0 is at `pc` and knows `m`, and no other rank has taken a step. -/
structure RootAt (J : Job R) (pc : Pc) (c : Config (Rank R) Tag (Message R)) : Prop where
  /-- The job goes on. -/
  running : c.ended = false
  /-- Where rank 0 is. -/
  pc : (c.loc 0).pc = pc
  /-- What it knows. -/
  m : (c.loc 0).m = J.nLen / J.size
  /-- The other ranks are at the start. -/
  others : ∀ r, r ≠ 0 → c.loc r = fresh

/-- The oldest message for the receive of rank `r` is a single float. -/
def HasFloat (r : ℕ) (c : Config (Rank R) Tag (Message R)) : Prop :=
  ∃ x rest, c.chan 0 r (.p2p r) = .floats [x] :: rest

variable {pc : Pc}

theorem RootAt.setLoc (h : RootAt J pc c) {s : Rank R} (hm : s.m = (c.loc 0).m) :
    RootAt J s.pc (c.setLoc 0 s) := by
  refine ⟨h.running, ?_, ?_, fun r hr => ?_⟩
  · rw [Config.setLoc_loc_self]
  · rw [Config.setLoc_loc_self, hm, h.m]
  · rw [Config.setLoc_loc_ne _ _ _ hr, h.others r hr]

/-- Rank 0 computes. -/
theorem RootAt.run (h : RootAt J pc c) (hsize : 0 < J.size)
    (hc : Reachable (distribute J onError) J.size init c) {p : Prog (Rank R)} {s : Rank R}
    (hact : distribute J onError 0 (c.loc 0) = .run p) (hp : Returns p s)
    (hm : s.m = (c.loc 0).m) :
    Reachable (distribute J onError) J.size init (c.setLoc 0 s) ∧ RootAt J s.pc (c.setLoc 0 s) :=
  ⟨hc.tail (.run h.running hsize hact hp), h.setLoc hm⟩

/-- Rank 0 sends, and the message is buffered. -/
theorem RootAt.send (h : RootAt J pc c) (hsize : 0 < J.size)
    (hc : Reachable (distribute J onError) J.size init c) {dst : ℕ} {tag : Tag} {msg : Message R}
    {s : Rank R} (hact : distribute J onError 0 (c.loc 0) = .send dst tag msg s)
    (hm : s.m = (c.loc 0).m) :
    let c' := (c.setLoc 0 s).setChan 0 dst tag (c.chan 0 dst tag ++ [msg])
    Reachable (distribute J onError) J.size init c' ∧ RootAt J s.pc c' := by
  have hs := h.setLoc hm
  exact ⟨hc.tail (.send rfl h.running hsize hact), hs.running, hs.pc, hs.m, hs.others⟩

/-- No element is on its way. -/
def Quiet (c : Config (Rank R) Tag (Message R)) : Prop :=
  ∀ r t, c.chan 0 r (.p2p t) = []

/-- Nobody else needs to be in the broadcast for rank 0 to get out of it. -/
theorem exists_bcast (hsize : 0 < J.size) (hc : Reachable (distribute J onError) J.size init c)
    {v : Global} (h : RootAt J (.bcast v 1) c) (hquiet : Quiet c) :
    ∃ c', Reachable (distribute J onError) J.size init c' ∧ RootAt J v.next c' ∧ Quiet c' := by
  -- one stage for each of the other ranks
  obtain ⟨c', hc', h', hquiet'⟩ := hc.stages
    (fun k c => RootAt J (.bcast v (k + 1)) c ∧ Quiet c) (J.size - 1) ⟨h, hquiet⟩
    fun k c₁ hk hc₁ ⟨h₁, hquiet₁⟩ => by
      obtain ⟨hrun, hroot⟩ := h₁.send hsize hc₁ (distribute_bcast h₁.pc (by omega)) rfl
      refine ⟨_, hrun, hroot, fun r t => ?_⟩
      -- a broadcast has a channel of its own
      rw [Config.setChan_chan_ne _ _ _ _ _ (fun hne => by cases hne.2.2)]
      exact hquiet₁ r t
  obtain ⟨hrun, hroot⟩ := h'.run hsize hc' (distribute_bcast_end h'.pc (by omega))
    (returns_pure _) rfl
  exact ⟨_, hrun, hroot, hquiet'⟩

theorem allocate_root (st : Rank R) (hm : st.m = J.nLen / J.size) :
    Ends (allocate J 0 st) fun s => s.pc = .sending 1 0 ∧ s.m = st.m := by
  unfold allocate
  dsimp only
  rw [if_pos rfl]
  refine Ends.bind (P := fun _ => True) ?_ fun pIn _ => ends_pure ⟨rfl, rfl⟩
  refine ends_forRange (Nat.zero_le _) (fun _ _ => True) trivial ?_
  intro i pIn _ hi _
  -- the elements of rank 0 are within `A_In`
  have hlt : i * J.size < 2 ^ J.M := by
    have hpos : 0 < J.size := Nat.pos_of_ne_zero fun h0 => by
      rw [hm, h0, Nat.div_zero] at hi
      omega
    calc i * J.size < st.m * J.size := Nat.mul_lt_mul_of_pos_right hi hpos
      _ ≤ 2 ^ J.M := by rw [hm]; exact Nat.div_mul_le_self _ _
  refine Ends.bind (P := fun _ => True) ?_ fun v _ => ?_
  · rw [rd, dif_pos hlt]
    exact ends_pure trivial
  · rw [wr_eq pIn hi]
    exact ends_pure trivial

/-- Element `j` of rank `i` is within `A_In`. -/
theorem element_lt (hdvd : J.size ∣ J.nLen) {i j : ℕ} (hi : i < J.size)
    (hj : j < J.nLen / J.size) : j * J.size + i < 2 ^ J.M := by
  calc j * J.size + i < j * J.size + J.size := by omega
    _ = (j + 1) * J.size := by ring
    _ ≤ J.nLen / J.size * J.size := Nat.mul_le_mul_right _ hj
    _ = 2 ^ J.M := Nat.div_mul_cancel hdvd

/-- Rank 0 has served the ranks below `i`, and has sent `j` elements to rank `i`. -/
structure RowAt (J : Job R) (i j : ℕ) (c : Config (Rank R) Tag (Message R)) : Prop where
  /-- Where rank 0 is. -/
  root : RootAt J (.sending i j) c
  /-- What the ranks below `i` find. -/
  fed : ∀ r, 1 ≤ r → r < i → HasFloat r c
  /-- What rank `i` finds. -/
  head : 0 < j → HasFloat i c
  /-- What the others do not find yet. -/
  unsent : ∀ r, i ≤ r → (r = i → j = 0) → c.chan 0 r (.p2p r) = []

theorem RowAt.next (hdvd : J.size ∣ J.nLen) {i j : ℕ} (hp : i < J.size)
    (hj : j < J.nLen / J.size) (hc : Reachable (distribute J onError) J.size init c)
    (h : RowAt J i j c) :
    ∃ c', Reachable (distribute J onError) J.size init c' ∧ RowAt J i (j + 1) c' := by
  have hact : distribute J onError 0 (c.loc 0) = _ :=
    distribute_sending h.root.pc hp (by rw [h.root.m]; exact hj)
  obtain ⟨x, hx⟩ := sendElement_eq (element_lt hdvd hp hj)
    { c.loc 0 with pc := .sending i (j + 1) }
  rw [hx] at hact
  have hsend := h.root.send (by omega) hc hact rfl
  refine ⟨_, hsend.1, hsend.2, fun r hr hri => ?_, fun _ => ?_, fun r hr hrj => ?_⟩
  · obtain ⟨y, rest, hy⟩ := h.fed r hr hri
    exact ⟨y, Config.setChan_append_head _ _ _ _ _ hy⟩
  · by_cases hj0 : j = 0
    · -- the first element finds the channel empty
      refine ⟨x, [], ?_⟩
      rw [Config.setChan_chan_self, h.unsent i le_rfl fun _ => hj0, List.nil_append]
    · obtain ⟨y, rest, hy⟩ := h.head (by omega)
      exact ⟨y, Config.setChan_append_head _ _ _ _ _ hy⟩
  · have hri : r ≠ i := fun hri => Nat.succ_ne_zero j (hrj hri)
    rw [Config.setChan_chan_ne _ _ _ _ _ (fun hne => hri hne.2.1)]
    exact h.unsent r hr fun hri' => absurd hri' hri

/-- Rank 0 serves rank `i`. -/
theorem RowAt.row (hdvd : J.size ∣ J.nLen) {i : ℕ} (hp : i < J.size)
    (hc : Reachable (distribute J onError) J.size init c) (h : RowAt J i 0 c) :
    ∃ c', Reachable (distribute J onError) J.size init c' ∧ RowAt J (i + 1) 0 c' := by
  have hsize : 0 < J.size := by omega
  have hm : 0 < J.nLen / J.size := Nat.div_pos (Nat.le_of_dvd (Nat.two_pow_pos _) hdvd) hsize
  obtain ⟨c', hc', h'⟩ := hc.stages (RowAt J i) (J.nLen / J.size) h
    fun j c₁ hj hc₁ h₁ => h₁.next hdvd hp hj hc₁
  obtain ⟨hrun, hroot⟩ := h'.root.run hsize hc'
    (distribute_sending_row h'.root.pc hp (by rw [h'.root.m]; exact lt_irrefl _))
    (returns_pure _) rfl
  refine ⟨_, hrun, hroot, fun r hr hri => ?_, fun h0 => absurd h0 (lt_irrefl 0), fun r hr _ =>
    h'.unsent r (by omega) fun hri => by omega⟩
  by_cases hreq : r = i
  · subst hreq
    exact h'.head hm
  · exact h'.fed r hr (by omega)

/-- What `readData` leaves in the memory of rank 0. -/
theorem exists_read (hsize : 0 < J.size) :
    ∃ c, Reachable (distribute J onError) J.size init c ∧ RootAt J (.bcast .M 1) c ∧ Quiet c := by
  have hact : distribute J onError 0 ((init : Config (Rank R) Tag (Message R)).loc 0) = _ :=
    distribute_start_root rfl
  refine ⟨_, .single (.run rfl hsize hact (returns_pure _)), ⟨rfl, ?_, ?_, fun r hr => ?_⟩,
    fun _ _ => rfl⟩
  · rw [Config.setLoc_loc_self]
  · rw [Config.setLoc_loc_self]
  · exact Config.setLoc_loc_ne _ _ _ hr

/-- **Rank 0 gets through the phase**, and leaves an element for every other rank. -/
theorem exists_root_distributed (onError : ErrorHandler) (hdvd : J.size ∣ J.nLen)
    (hsize : 0 < J.size) :
    ∃ c, Reachable (distribute J onError) J.size init c ∧ RootAt J .distributed c ∧
      ∀ r, 1 ≤ r → r < J.size → HasFloat r c := by
  obtain ⟨c, hc, h, hquiet⟩ := @exists_read R J onError hsize
  -- the three broadcasts
  obtain ⟨c, hc, h, hquiet⟩ := exists_bcast hsize hc h hquiet
  obtain ⟨c, hc, h, hquiet⟩ := exists_bcast hsize hc h hquiet
  obtain ⟨c, hc, h, hquiet⟩ := exists_bcast hsize hc h hquiet
  -- the part of rank 0
  obtain ⟨s, hs, hpc, hm⟩ := allocate_root (J := J) (c.loc 0) h.m
  obtain ⟨hrun, hroot⟩ := h.run hsize hc (distribute_alloc h.pc) hs hm
  rw [hpc] at hroot
  have hrow : RowAt J 1 0 (c.setLoc 0 s) :=
    ⟨hroot, fun r hr hr1 => by omega, fun h0 => absurd h0 (lt_irrefl 0), fun r _ _ => hquiet r r⟩
  -- the parts of the others
  obtain ⟨c', hc', h'⟩ := hrun.stages (fun k => RowAt J (k + 1) 0) (J.size - 1) hrow
    fun k c₁ hk hc₁ h₁ => h₁.row hdvd (by omega) hc₁
  obtain ⟨hend, hlast⟩ := h'.root.run hsize hc'
    (distribute_sending_end h'.root.pc (by omega)) (returns_pure _) rfl
  exact ⟨_, hend, hlast, fun r hr hrp => h'.fed r hr (by omega)⟩

/-- Where a rank other than 0 ends up. -/
def afterReceive : ErrorHandler → Pc
  | .errorsAreFatal => .failed
  | .errorsReturn => .distributed

theorem received_pc {st : Rank R} (hm : st.m = 0) (x : R) :
    (received onError st (.floats [x])).pc = afterReceive onError := by
  dsimp only [received]
  -- one float is more than none
  rw [if_neg (by rw [hm, List.length_singleton]; omega)]
  cases onError with
  | errorsAreFatal => rfl
  | errorsReturn => rfl

/-- Rank `r` has moved from `c` to `pc`, and no other rank has. -/
structure Moved (r : ℕ) (pc : Pc) (c c' : Config (Rank R) Tag (Message R)) : Prop where
  /-- The job goes on. -/
  running : c'.ended = false
  /-- Where rank `r` is. -/
  pc : (c'.loc r).pc = pc
  /-- The other ranks are where they were. -/
  others : ∀ q, q ≠ r → c'.loc q = c.loc q
  /-- What the other ranks find is still there. -/
  floats : ∀ q, q ≠ r → HasFloat q c → HasFloat q c'

/-- A computation of rank `r`, which leaves its messages too. -/
theorem moved_run {r : ℕ} {p : Prog (Rank R)} {s : Rank R} (hp : r < J.size)
    (hc : Reachable (distribute J onError) J.size init c) (he : c.ended = false)
    (hact : distribute J onError r (c.loc r) = .run p) (hs : Returns p s) :
    ∃ c', Reachable (distribute J onError) J.size init c' ∧ Moved r s.pc c c' ∧
      (HasFloat r c → HasFloat r c') := by
  refine ⟨_, hc.tail (.run he hp hact hs), ⟨he, ?_, fun q hq => ?_, fun q _ hq => hq⟩, id⟩
  · rw [Config.setLoc_loc_self]
  · exact Config.setLoc_loc_ne _ _ _ hq

/-- Another rank goes from its start to the end of its receive. -/
theorem exists_received {r : ℕ} (hr : 1 ≤ r) (hp : r < J.size)
    (hc : Reachable (distribute J onError) J.size init c) (he : c.ended = false)
    (hfresh : c.loc r = fresh) (hfloat : HasFloat r c) :
    ∃ c', Reachable (distribute J onError) J.size init c' ∧
      Moved r (afterReceive onError) c c' := by
  have hne : r ≠ 0 := by omega
  -- to the allocation and to the receive
  obtain ⟨c₁, hc₁, h₁, hfloat₁⟩ := moved_run hp hc he
    (distribute_start hne (by rw [hfresh]; rfl)) (returns_pure _)
  obtain ⟨c₂, hc₂, h₂, hfloat₂⟩ := moved_run hp hc₁ h₁.running
    ((distribute_alloc h₁.pc).trans (by rw [allocate_of_ne hne])) (returns_pure _)
  -- the receive of no elements finds one
  obtain ⟨x, rest, hx⟩ := hfloat₂ (hfloat₁ hfloat)
  refine ⟨_, hc₂.tail (.recv h₂.running hp hx (distribute_receiving h₂.pc)), h₂.running, ?_,
    fun q hq => ?_, fun q hq hfloatq => ?_⟩
  · rw [Config.setChan_loc, Config.setLoc_loc_self]
    exact received_pc (m_eq_zero hc₂ hne) x
  · rw [Config.setChan_loc, Config.setLoc_loc_ne _ _ _ hq, h₂.others q hq, h₁.others q hq]
  · obtain ⟨y, rest', hy⟩ := h₂.floats q hq (h₁.floats q hq hfloatq)
    exact ⟨y, rest', by rw [Config.setChan_chan_ne _ _ _ _ _ (fun hch => hq hch.2.1)]; exact hy⟩

/-- If errors are returned, every rank gets through the phase. -/
theorem exists_all_distributed (hdvd : J.size ∣ J.nLen) (hsize : 0 < J.size) :
    ∃ c, Reachable (distribute J .errorsReturn) J.size init c ∧
      ∀ r, r < J.size → (c.loc r).pc = .distributed := by
  obtain ⟨c, hc, hroot, hfloat⟩ :=
    exists_root_distributed .errorsReturn hdvd hsize
  -- one stage for each of the other ranks
  obtain ⟨c', hc', -, hdone, -⟩ := hc.stages
    (fun k c => c.ended = false ∧ (∀ r, r < k + 1 → (c.loc r).pc = .distributed) ∧
      ∀ r, k + 1 ≤ r → r < J.size → c.loc r = fresh ∧ HasFloat r c) (J.size - 1)
    ⟨hroot.running, fun r hr => by rw [show r = 0 by omega]; exact hroot.pc,
      fun r hr hp => ⟨hroot.others r (by omega), hfloat r hr hp⟩⟩
    fun k c₁ hk hc₁ ⟨he₁, hdone₁, hwait₁⟩ => by
      obtain ⟨hfresh, hf⟩ := hwait₁ (k + 1) le_rfl (by omega)
      obtain ⟨c₂, hc₂, h₂⟩ := exists_received (by omega) (by omega) hc₁ he₁ hfresh hf
      refine ⟨c₂, hc₂, h₂.running, fun r hr => ?_, fun r hr hp => ?_⟩
      · by_cases hrk : r = k + 1
        · subst hrk
          exact h₂.pc
        · rw [h₂.others r hrk]
          exact hdone₁ r (by omega)
      · rw [h₂.others r (by omega)]
        obtain ⟨hfresh', hf'⟩ := hwait₁ r (by omega) hp
        exact ⟨hfresh', h₂.floats r (by omega) hf'⟩
  exact ⟨c', hc', fun r hr => hdone r (by omega)⟩

/-- **The phase can come to an end**, with either error handler. -/
theorem exists_over (onError : ErrorHandler) (hp : 2 ≤ J.size) (hdvd : J.size ∣ J.nLen) :
    ∃ c, Reachable (distribute J onError) J.size init c ∧ Over J c := by
  cases onError with
  | errorsReturn =>
    obtain ⟨c, hc, hall⟩ := exists_all_distributed hdvd (by omega)
    exact ⟨c, hc, .inr hall⟩
  | errorsAreFatal =>
    -- the receive of rank 1 ends the job
    obtain ⟨c, hc, hroot, hfloat⟩ :=
      exists_root_distributed .errorsAreFatal hdvd (by omega)
    obtain ⟨c', hc', h'⟩ := exists_received le_rfl (by omega) hc hroot.running
      (hroot.others 1 one_ne_zero) (hfloat 1 le_rfl (by omega))
    exact ⟨_, hc'.tail (.exit h'.running (by omega) (distribute_failed h'.pc)), .inl rfl⟩

/-- **The distribution phase never does its work with several processes.** The data do not
have to be distributed when the phase is over, and they are in no reachable configuration,
even if errors are returned and every rank gets past the phase. -/
theorem distribution_fails (J : Job R) (onError : ErrorHandler) (hp : 2 ≤ J.size)
    (hdvd : J.size ∣ J.nLen) :
    ¬ (∀ c, Reachable (distribute J onError) J.size init c → Over J c → Distributed J c) ∧
      (∀ c, Reachable (distribute J onError) J.size init c → ¬ Distributed J c) ∧
      (onError = .errorsReturn → ∃ c, Reachable (distribute J onError) J.size init c ∧
        ∀ r, r < J.size → (c.loc r).pc = .distributed) := by
  refine ⟨fun hall => ?_, fun c hc => not_distributed hp hdvd hc, ?_⟩
  · obtain ⟨c, hc, hover⟩ := exists_over onError hp hdvd
    exact not_distributed hp hdvd hc (hall c hc hover)
  · rintro rfl
    exact exists_all_distributed hdvd (by omega)

/-- Two processes and two elements. -/
def pairJob : Job ℚ :=
  ⟨2, 1, #v[⟨1, 0⟩, ⟨2, 0⟩], fun _ _ => ⟨0, 0⟩⟩

theorem distribution_fails_pair :
    ¬ (∀ c, Reachable (distribute pairJob .errorsReturn) 2 init c → Over pairJob c →
        Distributed pairJob c) ∧
      (∀ c, Reachable (distribute pairJob .errorsReturn) 2 init c → ¬ Distributed pairJob c) ∧
      (ErrorHandler.errorsReturn = .errorsReturn →
        ∃ c, Reachable (distribute pairJob .errorsReturn) 2 init c ∧
          ∀ r, r < 2 → (c.loc r).pc = .distributed) :=
  distribution_fails pairJob .errorsReturn (by decide) (by decide)

/-- Both ranks get past the phase, and rank 1 does not even have its `m`. -/
theorem distribution_pair_lost :
    ∃ c, Reachable (distribute pairJob .errorsReturn) 2 init c ∧
      (∀ r, r < 2 → (c.loc r).pc = .distributed) ∧ (c.loc 1).m = 0 ∧ ¬ Distributed pairJob c := by
  obtain ⟨c, hc, hall⟩ := exists_all_distributed (J := pairJob) (by decide) (by decide)
  exact ⟨c, hc, hall, m_eq_zero hc one_ne_zero, not_distributed (by decide) (by decide) hc⟩

end SqlCode.FftMpi1
