import Mathlib.Order.Lattice
import Mathlib.Data.Finset.Card
import Mathlib.Logic.Relation

/-!
# The locks of a database file

`unixLock`, `unixUnlock`, `unixCheckReservedLock` and `unixClose` of `os_unix.c`. Any number of
processes have the database open, each with any number of handles, on a system where threads can
override each other's locks. A process has one `lockInfo` and one `openCnt` for the file, which a
mutex protects. The operating system's locks belong to processes, not to handles.

Between two calls of `fcntl` the code of a process is one step, since the mutex is held. Other
processes take steps between any two calls, and other threads of the process between the end of
the critical section of `unixUnlock` and its assignment to `pFile->locktype`. A call of `fcntl`
that asks for a lock may fail for any reason.

Two kinds of failure are parameters of the steps (`Faults`). A call of `fcntl` that gives up a lock
may fail ("this should never happen"). And an open may fail when it has a descriptor already,
for want of memory. It closes that at once, not when the last lock of the process is cleared, and so
gives up all locks of the process.
-/

namespace SqlCode.SqliteCore

/-! ### Locks -/

/-- The locks of a handle. -/
inductive LockType
  | noLock
  | sharedLock
  | reservedLock
  | pendingLock
  | exclusiveLock
  deriving DecidableEq

/-- The number of a lock. -/
def LockType.num : LockType → ℕ
  | .noLock => 0
  | .sharedLock => 1
  | .reservedLock => 2
  | .pendingLock => 3
  | .exclusiveLock => 4

theorem LockType.num_injective : Function.Injective LockType.num := by
  intro t t' h
  cases t <;> cases t' <;> first | rfl | cases h

/-- Locks are compared by their numbers. -/
instance : LinearOrder LockType := LinearOrder.lift' LockType.num LockType.num_injective

/-- The bytes that are locked: `PENDING_BYTE`, `RESERVED_BYTE` and the `SHARED_SIZE` bytes from
`SHARED_FIRST` on. -/
inductive Area
  | pendingByte
  | reservedByte
  | sharedRange
  deriving DecidableEq

/-- `l_type`. -/
inductive FLock
  | unlck
  | rdlck
  | wrlck
  deriving DecidableEq

/-- Two processes may have these locks on one byte. -/
def FLock.Compatible : FLock → FLock → Prop
  | .unlck, _ | _, .unlck | .rdlck, .rdlck => True
  | _, _ => False

/-- What `fcntl` answers. -/
inductive Answer
  | done
  /-- It fails with `EINVAL`. -/
  | einval
  /-- It fails otherwise. -/
  | failed
  deriving DecidableEq

/-- What the functions return. -/
inductive Rc
  | ok
  | busy
  | ioerr
  | nolfs
  deriving DecidableEq

/-- `rc` behind a call that asks for a lock. -/
def Answer.rc : Answer → Rc
  | .done => .ok
  | .einval => .nolfs
  | .failed => .busy

/-- Which failures there are, beside those of requests for a lock. -/
structure Faults where
  /-- A call of `fcntl` that gives up a lock may fail. -/
  unlockFails : Prop
  /-- An open may fail after `open`. -/
  openFails : Prop

/-- No call that gives up a lock fails, and no open that has a descriptor. -/
def Faults.none : Faults := ⟨False, False⟩

/-! ### The state of a process -/

/-- Where a call of `unixLock` or `unixUnlock` stands. -/
inductive Pc
  /-- There is no call. -/
  | idle
  /-- `unixLock`: before the call for `PENDING_BYTE`. -/
  | lockPending (locktype : LockType)
  /-- Before the call for a read-lock on the shared range. -/
  | lockShared
  /-- Before the temporary lock is dropped, with the answer `s` of the call before. -/
  | lockDrop (s : Answer)
  /-- Before the call for a write-lock. -/
  | lockWrite (locktype : LockType)
  /-- `unixUnlock`: before the call that returns to a read-lock on the shared range. -/
  | unlockShared
  /-- Before `PENDING_BYTE` and `RESERVED_BYTE` are unlocked. -/
  | unlockBytes (locktype : LockType)
  /-- Before `pLock->cnt--`. -/
  | unlockCount
  /-- Before the whole file is unlocked. -/
  | unlockAll
  /-- Before `pOpen->nLock--`. -/
  | unlockOpen
  /-- Outside the critical section, before `pFile->locktype = locktype`. -/
  | unlockEnd (locktype : LockType)
  deriving DecidableEq

/-- `unixFile`, with the call that its thread has made, and what the last one returned. -/
structure UnixFile where
  /-- `locktype`. -/
  locktype : LockType
  /-- `isOpen`. -/
  isOpen : Bool
  /-- Where the call stands. -/
  pc : Pc
  /-- The variable `rc`. -/
  rc : Rc

/-- `lockInfo`. -/
structure LockInfo where
  /-- Number of SHARED locks held. -/
  cnt : ℤ
  /-- One of SHARED_LOCK, RESERVED_LOCK etc. -/
  locktype : LockType
  /-- Number of pointers to this structure. -/
  nRef : ℤ

/-- `openCnt`. -/
structure OpenCnt where
  /-- Number of pointers to this structure. -/
  nRef : ℤ
  /-- Number of outstanding locks. -/
  nLock : ℤ
  /-- Number of pending close() operations. -/
  nPending : ℕ

variable {H : Type} [DecidableEq H]

/-- A process with the handles `H`. -/
structure UnixProc (H : Type) where
  /-- The handle whose thread is in the critical section. -/
  mutex : Option H
  /-- `pLock`. -/
  pLock : LockInfo
  /-- `pOpen`. -/
  pOpen : OpenCnt
  /-- What the process has locked. -/
  os : Area → FLock
  /-- The handles. -/
  file : H → UnixFile
  /-- The threads that get no memory in `allocateUnixFile`, before their `close`. -/
  closing : ℕ
  /-- And behind it. -/
  releasing : ℕ

/-- All files are closed. -/
def UnixProc.start (H : Type) : UnixProc H where
  mutex := none
  pLock := ⟨0, .noLock, 0⟩
  pOpen := ⟨0, 0, 0⟩
  os _ := .unlck
  file _ := ⟨.noLock, false, .idle, .ok⟩
  closing := 0
  releasing := 0

namespace UnixProc

section Functions

variable (s : UnixProc H) (h : H)

/-- A new state of the handle. -/
def setFile (f : UnixFile) : UnixProc H := { s with file := Function.update s.file h f }

@[simp] theorem setFile_mutex (f : UnixFile) : (s.setFile h f).mutex = s.mutex := rfl

@[simp] theorem setFile_pLock (f : UnixFile) : (s.setFile h f).pLock = s.pLock := rfl

@[simp] theorem setFile_pOpen (f : UnixFile) : (s.setFile h f).pOpen = s.pOpen := rfl

@[simp] theorem setFile_os (f : UnixFile) : (s.setFile h f).os = s.os := rfl

@[simp] theorem setFile_file (f : UnixFile) : (s.setFile h f).file h = f := by
  simp [setFile]

theorem setFile_file_of_ne {g : H} (hg : g ≠ h) (f : UnixFile) :
    (s.setFile h f).file g = s.file g := by
  simp [setFile, hg]

/-- The lock `l` on some of the bytes. -/
def setlk (areas : List Area) (l : FLock) : UnixProc H :=
  { s with os := fun a => if a ∈ areas then l else s.os a }

/-- To the next call, inside the critical section. -/
def goto (pc : Pc) : UnixProc H := { s.setFile h { s.file h with pc := pc } with mutex := some h }

/-- `sqlite3OsLeaveMutex` and the return. -/
def leave (rc : Rc) : UnixProc H :=
  { s.setFile h { s.file h with pc := .idle, rc := rc } with mutex := none }

/-! ### The functions -/

/-- The end of `unixLock`, from `if( rc==SQLITE_OK )` on. -/
def unixLockEnd (locktype : LockType) (rc : Rc) : UnixProc H :=
  if rc = .ok then
    { s.setFile h { s.file h with locktype := locktype, pc := .idle, rc := rc } with
      pLock := { s.pLock with locktype := locktype }, mutex := none }
  else if locktype = .exclusiveLock then
    { s.setFile h { s.file h with locktype := .pendingLock, pc := .idle, rc := rc } with
      pLock := { s.pLock with locktype := .pendingLock }, mutex := none }
  else s.leave h rc

/-- `unixLock` behind the call for `PENDING_BYTE`. -/
def unixLockCall (locktype : LockType) : UnixProc H :=
  if locktype = .sharedLock then s.goto h .lockShared
  else if locktype = .exclusiveLock ∧ 1 < s.pLock.cnt then s.unixLockEnd h locktype .busy
  else s.goto h (.lockWrite locktype)

/-- `unixLock`. -/
def unixLock (locktype : LockType) : UnixProc H :=
  let pFile := s.file h
  if locktype ≤ pFile.locktype then s.setFile h { pFile with rc := .ok }
  else if pFile.locktype ≠ s.pLock.locktype ∧
      (.pendingLock ≤ s.pLock.locktype ∨ .sharedLock < locktype) then s.leave h .busy
  else if locktype = .sharedLock ∧
      (s.pLock.locktype = .sharedLock ∨ s.pLock.locktype = .reservedLock) then
    { s.setFile h { pFile with locktype := .sharedLock, rc := .ok } with
      pLock := { s.pLock with cnt := s.pLock.cnt + 1 },
      pOpen := { s.pOpen with nLock := s.pOpen.nLock + 1 } }
  else if locktype = .sharedLock ∨ locktype = .exclusiveLock ∧ pFile.locktype < .pendingLock then
    s.goto h (.lockPending locktype)
  else s.unixLockCall h locktype

/-- `unixUnlock`. -/
def unixUnlock (locktype : LockType) : UnixProc H :=
  let pFile := s.file h
  if pFile.locktype ≤ locktype then s.setFile h { pFile with rc := .ok }
  else
    let s := s.setFile h { pFile with rc := .ok }
    if .sharedLock < pFile.locktype then
      if locktype = .sharedLock then s.goto h .unlockShared else s.goto h (.unlockBytes locktype)
    else s.goto h .unlockCount

/-- What a call of `fcntl` asks for. -/
def flock : Pc → Option (List Area × FLock)
  | .lockPending locktype =>
    some ([.pendingByte], if locktype = .sharedLock then .rdlck else .wrlck)
  | .lockShared => some ([.sharedRange], .rdlck)
  | .lockDrop _ => some ([.pendingByte], .unlck)
  | .lockWrite locktype =>
    some ([if locktype = .reservedLock then .reservedByte else .sharedRange], .wrlck)
  | .unlockShared => some ([.sharedRange], .rdlck)
  | .unlockBytes _ => some ([.pendingByte, .reservedByte], .unlck)
  | .unlockAll => some ([.pendingByte, .reservedByte, .sharedRange], .unlck)
  | _ => none

/-- Out of the critical section, at the end of `unixUnlock`. -/
def unixUnlockLeave (locktype : LockType) : UnixProc H :=
  { s.setFile h { s.file h with pc := .unlockEnd locktype } with mutex := none }

/-- The code behind a call that has been answered, up to the next call. -/
def resume (r : Answer) : UnixProc H :=
  let pFile := s.file h
  match pFile.pc with
  | .lockPending locktype => if r = .done then s.unixLockCall h locktype else s.leave h r.rc
  | .lockShared => s.goto h (.lockDrop r)
  | .lockDrop a =>
    if r ≠ .done then s.leave h .ioerr
    else if a ≠ .done then s.unixLockEnd h .sharedLock a.rc
    else
      let s :=
        { s with
          pLock := { s.pLock with cnt := 1 }, pOpen := { s.pOpen with nLock := s.pOpen.nLock + 1 } }
      s.unixLockEnd h .sharedLock .ok
  | .lockWrite locktype => s.unixLockEnd h locktype r.rc
  | .unlockShared =>
    let s := if r = .done then s else s.setFile h { pFile with rc := .ioerr }
    s.goto h (.unlockBytes .sharedLock)
  | .unlockBytes locktype =>
    let s :=
      if r = .done then { s with pLock := { s.pLock with locktype := .sharedLock } }
      else s.setFile h { pFile with rc := .ioerr }
    if locktype = .noLock then s.goto h .unlockCount else s.unixUnlockLeave h locktype
  | .unlockAll =>
    let s :=
      if r = .done then { s with pLock := { s.pLock with locktype := .noLock } }
      else s.setFile h { pFile with rc := .ioerr }
    s.goto h .unlockOpen
  | _ => s

/-- A call of `fcntl` and the code behind it. -/
def answer (r : Answer) : UnixProc H :=
  match flock (s.file h).pc with
  | some (areas, l) => (if r = .done then s.setlk areas l else s).resume h r
  | none => s

/-- `unixUnlock` from `pLock->cnt--` on. -/
def unixUnlockCount : UnixProc H :=
  let s := { s with pLock := { s.pLock with cnt := s.pLock.cnt - 1 } }
  if s.pLock.cnt = 0 then s.goto h .unlockAll else s.goto h .unlockOpen

/-- `unixUnlock` from `pOpen->nLock--` on. A `close` gives up all locks of the process. -/
def unixUnlockOpen : UnixProc H :=
  let s := { s with pOpen := { s.pOpen with nLock := s.pOpen.nLock - 1 } }
  let s :=
    if s.pOpen.nLock = 0 ∧ 0 < s.pOpen.nPending then
      { s with os := fun _ => .unlck, pOpen := { s.pOpen with nPending := 0 } }
    else s
  s.unixUnlockLeave h .noLock

/-- The last assignment of `unixUnlock`. -/
def unixUnlockEnd (locktype : LockType) : UnixProc H :=
  s.setFile h { s.file h with locktype := locktype, pc := .idle }

/-- `findLockInfo`. -/
def findLockInfo : UnixProc H :=
  { s with
    pLock := { s.pLock with nRef := s.pLock.nRef + 1 },
    pOpen := { s.pOpen with nRef := s.pOpen.nRef + 1 } }

/-- `findLockInfo` and `allocateUnixFile`, for a file that has been opened. -/
def unixOpen : UnixProc H := s.findLockInfo.setFile h ⟨.noLock, true, .idle, .ok⟩

/-- `releaseLockInfo`. A structure that nobody points to is freed, and the next is new. -/
def releaseLockInfo : UnixProc H :=
  let nRef := s.pLock.nRef - 1
  { s with pLock := if nRef = 0 then ⟨0, .noLock, 0⟩ else { s.pLock with nRef := nRef } }

/-- `releaseOpenCnt`. -/
def releaseOpenCnt : UnixProc H :=
  let nRef := s.pOpen.nRef - 1
  { s with pOpen := if nRef = 0 then ⟨0, 0, 0⟩ else { s.pOpen with nRef := nRef } }

/-- The `close` of an open for which `findLockInfo` fails. That has not changed anything. -/
def unixOpenClose : UnixProc H := { s with os := fun _ => .unlck }

/-- An open for which `allocateUnixFile` gets no memory, up to its `close`. -/
def allocateUnixFileFail : UnixProc H := { s.findLockInfo with closing := s.closing + 1 }

/-- The `close`, outside the critical section. -/
def allocateUnixFileClose : UnixProc H :=
  { s with os := fun _ => .unlck, closing := s.closing - 1, releasing := s.releasing + 1 }

/-- What `allocateUnixFile` does behind it. -/
def allocateUnixFileRelease : UnixProc H :=
  { s.releaseLockInfo.releaseOpenCnt with releasing := s.releasing - 1 }

/-- `unixClose`, behind its call of `unixUnlock`. The descriptor is closed, or it is kept for
later (`aNew`), or it leaks. -/
def unixClose (aNew : Bool) : UnixProc H :=
  let s :=
    if s.pOpen.nLock ≠ 0 then
      if aNew then { s with pOpen := { s.pOpen with nPending := s.pOpen.nPending + 1 } } else s
    else { s with os := fun _ => .unlck }
  let s := s.releaseLockInfo.releaseOpenCnt
  s.setFile h { s.file h with isOpen := false }

end Functions

/-! ### Steps -/

/-- What `unixLock` asserts of its caller: the locking sequence is correct. -/
def LockCall (s : UnixProc H) (h : H) (locktype : LockType) : Prop :=
  ((s.file h).locktype ≠ .noLock ∨ locktype = .sharedLock) ∧ locktype ≠ .pendingLock ∧
    (locktype = .reservedLock → (s.file h).locktype = .sharedLock)

/-- The call may fail. One that gives up a lock fails only among the `faults`, or for a
conflict. -/
def Fails (faults : Faults) (granted : List Area → FLock → Prop) : Pc → Prop
  | .lockPending _ | .lockShared | .lockWrite _ => True
  | .unlockShared => faults.unlockFails ∨ ¬ granted [.sharedRange] .rdlck
  | _ => faults.unlockFails

/-- The steps of a process. The system has `granted` the locks that no other process is in the
way of. -/
inductive Step (faults : Faults) (granted : List Area → FLock → Prop) :
    UnixProc H → UnixProc H → Prop
  /-- `unixLock` is called. -/
  | lock {s h} (locktype : LockType) (hopen : (s.file h).isOpen) (hpc : (s.file h).pc = .idle)
      (hcall : locktype ≤ (s.file h).locktype ∨ s.LockCall h locktype ∧ s.mutex = none) :
      Step faults granted s (s.unixLock h locktype)
  /-- `unixUnlock` is called. -/
  | unlock {s h} (locktype : LockType) (hopen : (s.file h).isOpen) (hpc : (s.file h).pc = .idle)
      (hle : locktype ≤ .sharedLock)
      (hcall : (s.file h).locktype ≤ locktype ∨ s.mutex = none) :
      Step faults granted s (s.unixUnlock h locktype)
  /-- `fcntl` succeeds. -/
  | done {s h areas l} (hcall : flock (s.file h).pc = some (areas, l)) (hgrant : granted areas l) :
      Step faults granted s (s.answer h .done)
  /-- `fcntl` fails. -/
  | fail {s h c r} (hcall : flock (s.file h).pc = some c)
      (hfail : Fails faults granted (s.file h).pc) (hr : r ≠ .done) :
      Step faults granted s (s.answer h r)
  /-- `pLock->cnt--`. -/
  | count {s h} (hpc : (s.file h).pc = .unlockCount) :
      Step faults granted s (s.unixUnlockCount h)
  /-- `pOpen->nLock--`. -/
  | unlockOpen {s h} (hpc : (s.file h).pc = .unlockOpen) :
      Step faults granted s (s.unixUnlockOpen h)
  /-- `unixUnlock` ends. -/
  | unlockEnd {s h locktype} (hpc : (s.file h).pc = .unlockEnd locktype) :
      Step faults granted s (s.unixUnlockEnd h locktype)
  /-- The file is opened. -/
  | openFile {s h} (hopen : (s.file h).isOpen = false) (hmutex : s.mutex = none) :
      Step faults granted s (s.unixOpen h)
  /-- The file is opened, and `findLockInfo` fails. -/
  | openClose {s} (hfail : faults.openFails) : Step faults granted s s.unixOpenClose
  /-- The file is opened, and `allocateUnixFile` fails. -/
  | allocateFail {s} (hfail : faults.openFails) (hmutex : s.mutex = none) :
      Step faults granted s s.allocateUnixFileFail
  | allocateClose {s} (hfail : faults.openFails) (hclosing : 0 < s.closing) :
      Step faults granted s s.allocateUnixFileClose
  | allocateRelease {s} (hfail : faults.openFails) (hreleasing : 0 < s.releasing)
      (hmutex : s.mutex = none) : Step faults granted s s.allocateUnixFileRelease
  /-- It is closed. -/
  | closeFile {s h aNew} (hopen : (s.file h).isOpen) (hpc : (s.file h).pc = .idle)
      (hlock : (s.file h).locktype = .noLock) (hmutex : s.mutex = none) :
      Step faults granted s (s.unixClose h aNew)

end UnixProc

/-- Any number of processes. -/
abbrev UnixWorld (P H : Type) := P → UnixProc H

namespace UnixWorld

variable {P : Type} [DecidableEq P]

/-- No other process is in the way. -/
def Granted (w : UnixWorld P H) (p : P) (areas : List Area) (l : FLock) : Prop :=
  ∀ q ≠ p, ∀ a ∈ areas, ((w q).os a).Compatible l

/-- One process takes a step. -/
inductive Step (faults : Faults) : UnixWorld P H → UnixWorld P H → Prop
  | proc {w p s} (hstep : UnixProc.Step faults (Granted w p) (w p) s) :
      Step faults w (Function.update w p s)

/-- What can be reached from the state where all files are closed. -/
def Reachable (faults : Faults) (w : UnixWorld P H) : Prop :=
  Relation.ReflTransGen (Step faults) (fun _ => UnixProc.start H) w

/-- `unixCheckReservedLock`, called in the process `p`, with the answer `r` for `F_GETLK`. That
finds the locks of other processes only. If it fails, `l_type` remains `F_WRLCK`. -/
def unixCheckReservedLock (w : UnixWorld P H) (p : P) (r : Answer) : Prop :=
  .sharedLock < (w p).pLock.locktype ∨ r ≠ .done ∨
    ∃ q ≠ p, ¬ ((w q).os .reservedByte).Compatible .wrlck

end UnixWorld

end SqlCode.SqliteCore
