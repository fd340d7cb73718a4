import SqlCode.FftMpi.Evaluate
import SqlCode.Process.Network
import SqlCode.Dft.Libm

/-!
# The ranks of the MPI FFT

`fft_main` of `fft_parallel/mpi/fft_mpi.c` and `main` of `others/fft_mpi.c`, as
the program of one rank: a program counter `Pc` between the calls of `MPI_Send`
and `MPI_Recv`, and the global arrays (`Rank`). The two differ in where rank 0
finds its coefficients (`Source`): `main` reads them with `readFromFile`, which
checks their number, and `fft_main` assigns them.

A message of doubles is kept as the list of complex numbers it holds. A received
message may be shorter than the count of `MPI_Recv`, never longer. Accesses
outside the arrays are faults, and faults, `exit` before `MPI_Finalize` and
`MPI_Abort` all end the job.

The clock, the partial results that every rank prints after `evaluate`, and the
value `fft_main` passes through are left out.
-/

namespace SqlCode.FftMpi

open Exec Dft Process

/-- The tags: `V_TAG`, `P_TAG`, `S_TAG` and `S_TAG2`. -/
inductive Tag
  | V | P | S | S2
  deriving DecidableEq, Repr

/-- What is sent: an `MPI_INT`, or an array of complex numbers as pairs of `MPI_DOUBLE`. -/
inductive Message (R : Type)
  | int (v : ℕ)
  | doubles (l : List (Cplx R))

/-- Where a rank is. -/
inductive Pc
  /-- After `MPI_Init`. -/
  | start
  /-- `sendOrigData`, about to send the count to rank `i`. -/
  | sendOrigNum (i : ℕ)
  /-- `sendOrigData`, about to send the coefficients to rank `i`. -/
  | sendOrigP (i : ℕ)
  /-- `recvOrigData`, about to receive the count. -/
  | recvOrigNum
  /-- `recvOrigData`, about to receive the coefficients. -/
  | recvOrigP
  /-- Before the table of roots and `evaluate`. -/
  | compute
  /-- About to send its own part of `s`. -/
  | sendSlice
  /-- About to receive the whole of `s`. -/
  | recvResult
  /-- Rank 0, about to receive the part of rank `i`. -/
  | recvSlice (i : ℕ)
  /-- Rank 0, about to send the whole of `s` to rank `i`. -/
  | sendResult (i : ℕ)
  /-- Rank 0, about to print. -/
  | printres
  /-- After `MPI_Finalize`. -/
  | finished
  /-- After a receive that failed. -/
  | aborted
  deriving DecidableEq, Repr

/-- A printed line, `%f-%fi` or `%f+%fi`. -/
structure Line (R : Type) where
  /-- The first number. -/
  real : R
  /-- Whether the sign between the numbers is a plus. -/
  plus : Bool
  /-- The second number. -/
  imag : R

/-- The complex number that a line stands for. -/
def Line.value {R : Type} [Neg R] (l : Line R) : Cplx R :=
  ⟨l.real, if l.plus then l.imag else -l.imag⟩

/-- The memory of a rank. -/
structure Rank (R : Type) where
  /-- Where it is. -/
  pc : Pc
  /-- `variableNum`. -/
  variableNum : ℕ
  /-- The coefficients. -/
  p : Vector (Cplx R) maxN
  /-- The results. -/
  s : Vector (Cplx R) (2 * maxN)
  /-- The points. -/
  w : Vector (Cplx R) (2 * maxN)
  /-- The final results printed so far. -/
  printed : List (Line R)

/-- Where rank 0 finds the coefficients. -/
inductive Source
  /-- `main` reads them from a file. -/
  | file
  /-- `fft_main` assigns them. -/
  | program
  deriving DecidableEq, Repr

/-- What a job is given: the data, the number of ranks, and the initial contents of the
local arrays of each rank. -/
structure Job (R : Type) where
  /-- Where rank 0 finds the data. -/
  source : Source
  /-- The number of coefficients. -/
  variableNum : ℕ
  /-- The coefficients. -/
  p : ℕ → Cplx R
  /-- The size of `MPI_COMM_WORLD`. -/
  size : ℕ
  /-- The uninitialised memory of each rank. -/
  junk : ℕ → ℕ → Cplx R

variable {R : Type} [Field R]

/-- The coefficients go into `p`. -/
def assignData (J : Job R) (st : Rank R) : Prog (Rank R) := do
  let p ← forRange 0 J.variableNum st.p fun i p => wr p i (J.p i)
  pure { st with variableNum := J.variableNum, p := p }

/-- `readFromFile`. -/
def readFromFile (J : Job R) (st : Rank R) : Prog (Rank R) :=
  if J.variableNum < 1 ∨ J.variableNum > maxN then throw .exit else assignData J st

/-- How rank 0 comes by the coefficients. -/
def loadData (J : Job R) : Rank R → Prog (Rank R) :=
  match J.source with
  | .file => readFromFile J
  | .program => assignData J

/-- Rank 0 before `sendOrigData`. -/
def initRoot (J : Job R) (st : Rank R) : Prog (Rank R) := do
  let st ← loadData J st
  -- more ranks than points
  if J.size > 2 * st.variableNum then throw .exit
  else pure { st with pc := .sendOrigNum 1 }

/-! ### The computation -/

/-- `everageLength`, for `variableNum = n`. -/
def everageLength (size n : ℕ) : ℕ := 2 * n / size

/-- `moreLength`, for `variableNum = n`. -/
def moreLength (size n : ℕ) : ℕ := 2 * n % size

/-- `startPos`, for `variableNum = n`. -/
def startPos (size n rank : ℕ) : ℕ :=
  if rank = 0 then 0 else moreLength size n + rank * everageLength size n

/-- `stopPos`, for `variableNum = n`. -/
def stopPos (size n rank : ℕ) : ℕ :=
  if rank = 0 then moreLength size n + everageLength size n - 1
  else startPos size n rank + everageLength size n - 1

/-- The loop that fills `w`. -/
def fillRoots (M : Libm R) (wLength : ℕ) (w : Vector (Cplx R) (2 * maxN)) :
    Prog (Vector (Cplx R) (2 * maxN)) :=
  forRange 0 wLength w fun i w =>
    wr w i ⟨M.cos ((i * 2 : ℕ) * M.pi / wLength), M.sin ((i * 2 : ℕ) * M.pi / wLength)⟩

/-- From the table of roots to the end of `evaluate`. -/
def compute (M : Libm R) (J : Job R) (rank : ℕ) (st : Rank R) : Prog (Rank R) := do
  let n := st.variableNum
  let w ← fillRoots M (2 * n) st.w
  let (p, s) ← evaluate (J.junk rank) st.p 0 (n - 1) w st.s (startPos J.size n rank)
    (stopPos J.size n rank)
  pure { st with p := p, s := s, w := w, pc := if rank = 0 then .recvSlice 1 else .sendSlice }

/-- `printres`. -/
def printres [LT R] [DecidableLT R] (f : Vector (Cplx R) (2 * maxN)) (fLength : ℕ) :
    Prog (List (Line R)) :=
  forLoop 0 fLength 2 [] fun i out => do
    let z ← rd f i
    pure (out ++ [if z.imag < 0 then ⟨z.real, false, -z.imag⟩ else ⟨z.real, true, z.imag⟩])

/-! ### The communication -/

/-- `MPI_Send` of `count` complex numbers of `x` from `off` on. -/
def sendBlock {len : ℕ} (x : Vector (Cplx R) len) (off count dst : ℕ) (tag : Tag)
    (st : Rank R) : Action (Rank R) Tag (Message R) :=
  if off + count ≤ len then .send dst tag (.doubles (slice x off count)) st else .exit

/-- The array `x` after `MPI_Recv` of at most `count` complex numbers from `off` on. -/
def recvBlock {len : ℕ} (x : Vector (Cplx R) len) (off count : ℕ) :
    Message R → Option (Vector (Cplx R) len)
  | .doubles l => if l.length ≤ count ∧ off + l.length ≤ len then some (blit x off l) else none
  | .int _ => none

/-- The whole program, one action at a time. -/
def fftMain [LT R] [DecidableLT R] (M : Libm R) (J : Job R) :
    Program (Rank R) Tag (Message R) := fun rank st =>
  let n := st.variableNum
  match st.pc with
  | .start =>
    if rank = 0 then .run (initRoot J st) else .run (pure { st with pc := .recvOrigNum })
  | .sendOrigNum i =>
    if i < J.size then .send i .V (.int n) { st with pc := .sendOrigP i }
    else .run (pure { st with pc := .compute })
  | .sendOrigP i => sendBlock st.p 0 n i .P { st with pc := .sendOrigNum (i + 1) }
  | .recvOrigNum =>
    .recv 0 .V fun
      | .int v => { st with variableNum := v, pc := .recvOrigP }
      | .doubles _ => { st with pc := .aborted }
  | .recvOrigP =>
    .recv 0 .P fun m =>
      match recvBlock st.p 0 n m with
      | some p => { st with p := p, pc := .compute }
      | none => { st with pc := .aborted }
  | .compute => .run (compute M J rank st)
  | .sendSlice =>
    sendBlock st.s (startPos J.size n rank) (everageLength J.size n) 0 .S
      { st with pc := .recvResult }
  | .recvResult =>
    .recv 0 .S2 fun m =>
      match recvBlock st.s 0 (2 * n) m with
      | some s => { st with s := s, pc := .finished }
      | none => { st with pc := .aborted }
  | .recvSlice i =>
    if i < J.size then
      .recv i .S fun m =>
        match recvBlock st.s (moreLength J.size n + i * everageLength J.size n)
          (everageLength J.size n) m with
        | some s => { st with s := s, pc := .recvSlice (i + 1) }
        | none => { st with pc := .aborted }
    else .run (pure { st with pc := .sendResult 1 })
  | .sendResult i =>
    if i < J.size then
      sendBlock st.s 0 (2 * n) i .S2 { st with pc := .sendResult (i + 1) }
    else .run (pure { st with pc := .printres })
  | .printres => .run do
    let out ← printres st.s (2 * n)
    pure { st with printed := st.printed ++ out, pc := .finished }
  | .finished => .halt
  | .aborted => .exit

/-- The configuration after `MPI_Init`: nothing is in flight, nothing is printed, and the
memory is arbitrary. -/
def start (mem : ℕ → Rank R) : Config (Rank R) Tag (Message R) where
  loc r := { mem r with pc := .start, printed := [] }
  chan _ _ _ := []
  ended := false

end SqlCode.FftMpi
