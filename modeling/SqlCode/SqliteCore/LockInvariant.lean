import SqlCode.SqliteCore.Locks
import SqlCode.Process.Sharing

/-!
# The invariant of a process

The counters of a process are right, at most one of its handles has more than a SHARED lock, and
`pLock->locktype` is backed by locks of the operating system, up to what the thread in the
critical section is about to do (`Within`). This is `UnixProc.Inv`. It is kept by a step of the
handle in the critical section (`Inv.move` and its forms), and by one outside it
(`Inv.outside`), if what the step changes fits together.
-/

namespace SqlCode.SqliteCore

open Process LockType Area FLock

/-! ### What a handle has -/

/-- Inside the critical section. -/
def Pc.inside : Pc → Bool
  | .idle | .unlockEnd _ => false
  | _ => true

namespace UnixFile

/-- The handle is counted in `pLock->cnt`. -/
def counted (f : UnixFile) : Bool :=
  match f.pc with
  | .unlockAll | .unlockOpen => false
  | .unlockEnd t => t ≠ noLock
  | _ => f.locktype ≠ noLock

/-- It is counted in `pOpen->nLock`. -/
def outstanding (f : UnixFile) : Bool :=
  match f.pc with
  | .unlockEnd t => t ≠ noLock
  | _ => f.locktype ≠ noLock

/-- Its lock as the process knows it, where this is more than SHARED. -/
def level (f : UnixFile) : LockType :=
  match f.pc with
  | .unlockCount | .unlockAll | .unlockOpen => sharedLock
  | .unlockEnd t => t
  | _ => f.locktype

/-- The lock that its thread relies on: from the call of `unixUnlock` on this is the lower one. -/
def held (f : UnixFile) : LockType :=
  match f.pc with
  | .unlockShared => sharedLock
  | .unlockBytes t | .unlockEnd t => t
  | .unlockCount | .unlockAll | .unlockOpen => noLock
  | _ => f.locktype

end UnixFile

/-! ### What the operating system has -/

/-- The lock on the shared range. -/
def sharedOf : LockType → FLock
  | noLock => unlck
  | exclusiveLock => wrlck
  | _ => rdlck

/-- The lock on `PENDING_BYTE`. -/
def pendingOf : LockType → FLock
  | pendingLock | exclusiveLock => wrlck
  | _ => unlck

/-- The lock on `RESERVED_BYTE`. A process may have come to PENDING without it. -/
def ReservedOf : LockType → FLock → Prop
  | noLock, l | sharedLock, l => l = unlck
  | reservedLock, l => l = wrlck
  | _, l => l ≠ rdlck

/-- The operating system's locks are those of `pLock->locktype`, which goes with the counter. -/
structure Backed (t : LockType) (cnt : ℤ) (os : Area → FLock) : Prop where
  none_iff : t = noLock ↔ cnt = 0
  single : t = exclusiveLock → cnt = 1
  shared : os sharedRange = sharedOf t
  pending : os pendingByte = pendingOf t
  reserved : ReservedOf t (os reservedByte)

theorem ReservedOf.ne_rdlck {t : LockType} {l : FLock} (h : ReservedOf t l) : l ≠ rdlck := by
  rintro rfl
  revert h
  cases t <;> exact fun h => nomatch h

/-- A process with a lock has locked the shared range. -/
theorem Backed.locked {t : LockType} {cnt : ℤ} {os : Area → FLock} (hb : Backed t cnt os)
    (hno : t ≠ noLock) : os sharedRange ≠ unlck := by
  rw [hb.shared]
  cases t with
  | noLock => exact absurd rfl hno
  | _ => exact nofun

/-- And the counter is not zero. -/
theorem Backed.cnt_ne_zero {t : LockType} {cnt : ℤ} {os : Area → FLock} (hb : Backed t cnt os)
    (hno : t ≠ noLock) : cnt ≠ 0 :=
  fun hzero => hno (hb.none_iff.mpr hzero)

theorem backed_noLock {os : Area → FLock} (hos : os sharedRange = unlck)
    (hop : os pendingByte = unlck) (hor : os reservedByte = unlck) : Backed noLock 0 os :=
  ⟨iff_of_true rfl rfl, fun h => absurd h (by decide), hos, hop, hor⟩

theorem backed_sharedLock {cnt : ℤ} {os : Area → FLock} (hcnt : cnt ≠ 0)
    (hos : os sharedRange = rdlck) (hop : os pendingByte = unlck) (hor : os reservedByte = unlck) :
    Backed sharedLock cnt os :=
  ⟨iff_of_false (by decide) hcnt, fun h => absurd h (by decide), hos, hop, hor⟩

/-- What holds while the thread of the handle `f` is in the critical section. -/
def Within (f : UnixFile) (t : LockType) (cnt : ℤ) (os : Area → FLock) : Prop :=
  match f.pc with
  | .idle | .unlockEnd _ => False
  | .lockPending u => f.locktype = t ∧ Backed t cnt os ∧
      (u = sharedLock ∧ t = noLock ∨ u = exclusiveLock ∧ (t = sharedLock ∨ t = reservedLock))
  | .lockShared => f.locktype = noLock ∧ t = noLock ∧ cnt = 0 ∧ os pendingByte = rdlck ∧
      os sharedRange = unlck ∧ os reservedByte = unlck
  -- the temporary lock is kept until the answer for the shared range is known
  | .lockDrop a => f.locktype = noLock ∧ t = noLock ∧ cnt = 0 ∧ os pendingByte = rdlck ∧
      os sharedRange = (if a = .done then rdlck else unlck) ∧ os reservedByte = unlck
  | .lockWrite u => f.locktype = t ∧ (u = reservedLock ∧ t = sharedLock ∧ Backed t cnt os ∨
      u = exclusiveLock ∧ cnt = 1 ∧ t ≠ noLock ∧ t ≠ exclusiveLock ∧ os sharedRange = rdlck ∧
        os pendingByte = wrlck ∧ ReservedOf t (os reservedByte))
  | .unlockShared => f.locktype = t ∧ sharedLock < t ∧ Backed t cnt os
  | .unlockBytes u => f.locktype = t ∧ sharedLock < t ∧ (u = noLock ∧ Backed t cnt os ∨
      u = sharedLock ∧ cnt ≠ 0 ∧ os sharedRange = rdlck)
  -- after EXCLUSIVE the range is still locked for writing, by the only handle that is counted
  | .unlockCount => f.locktype ≠ noLock ∧ (t ≠ exclusiveLock ∧ Backed t cnt os ∨
      cnt = 1 ∧ os pendingByte = unlck ∧ os reservedByte = unlck)
  | .unlockAll => f.locktype ≠ noLock ∧ cnt = 0 ∧ os reservedByte = unlck
  | .unlockOpen => f.locktype ≠ noLock ∧ Backed t cnt os

variable {H : Type}

/-- One handle at most has more than a SHARED lock, and then it is `pLock->locktype`. -/
structure OneAbove (t : LockType) (level : H → LockType) : Prop where
  eq : ∀ h, sharedLock < level h → level h = t
  unique : ∀ g h, sharedLock < level g → sharedLock < level h → g = h
  owner : sharedLock < t → ∃ h, level h = t

/-- **The invariant** of a process. -/
structure UnixProc.Inv (s : UnixProc H) : Prop where
  inside : ∀ h, (s.file h).pc.inside → s.mutex = some h
  cnt : Counts s.pLock.cnt fun h => (s.file h).counted
  nLock : Counts s.pOpen.nLock fun h => (s.file h).outstanding
  nRef : Counts s.pLock.nRef fun h => (s.file h).isOpen
  nRef_eq : s.pOpen.nRef = s.pLock.nRef
  closed : ∀ h, (s.file h).isOpen = false → (s.file h).locktype = noLock ∧ (s.file h).pc = .idle
  above : OneAbove s.pLock.locktype fun h => (s.file h).level
  deferred : 0 < s.pOpen.nPending → 0 < s.pOpen.nLock
  phase :
    match s.mutex with
    | none => Backed s.pLock.locktype s.pLock.cnt s.os
    | some h => Within (s.file h) s.pLock.locktype s.pLock.cnt s.os

/-! ### The locks of a process -/

theorem OneAbove.same {t : LockType} {level level' : H → LockType} (h : OneAbove t level)
    (heq : ∀ g, level' g = level g ∨ level' g ≤ sharedLock ∧ level g ≤ sharedLock) :
    OneAbove t level' := by
  have hiff : ∀ g, sharedLock < level' g → level' g = level g := fun g hg =>
    (heq g).resolve_right fun hle => absurd hg (not_lt.mpr hle.1)
  refine ⟨fun g hg => ?_, fun g g' hg hg' => ?_, fun ht => ?_⟩
  · have hsame := hiff g hg
    rw [hsame] at hg ⊢
    exact h.eq g hg
  · exact h.unique g g' (hiff g hg ▸ hg) (hiff g' hg' ▸ hg')
  · obtain ⟨g, hg⟩ := h.owner ht
    refine ⟨g, ((heq g).resolve_right fun hle => ?_).trans hg⟩
    exact absurd (hg ▸ ht) (not_lt.mpr hle.2)

/-- The others have no more than a SHARED lock. -/
theorem OneAbove.only {t : LockType} {level : H → LockType} {h : H}
    (hothers : ∀ g ≠ h, level g ≤ sharedLock) (heq : sharedLock < level h → level h = t)
    (howner : sharedLock < t → level h = t) : OneAbove t level := by
  have hself : ∀ g, sharedLock < level g → g = h := fun g hg => by
    by_contra hne
    exact absurd hg (not_lt.mpr (hothers g hne))
  refine ⟨fun g hg => ?_, fun g g' hg hg' => ?_, fun ht => ⟨h, howner ht⟩⟩
  · obtain rfl := hself g hg
    exact heq hg
  · rw [hself g hg, hself g' hg']

/-- Beside a handle with the lock of the process. -/
theorem OneAbove.others {t : LockType} {level : H → LockType} {h : H} (ha : OneAbove t level)
    (ht : level h = t) : ∀ g ≠ h, level g ≤ sharedLock := by
  intro g hne
  by_contra hg
  rw [not_le] at hg
  exact hne (ha.unique g h hg (ht.symm ▸ ha.eq g hg ▸ hg))

/-! ### Moves -/

variable [DecidableEq H] {s s' : UnixProc H} {h : H}

namespace UnixProc

/-- A step of one handle, which is alone in the critical section, keeps the invariant. -/
theorem Inv.move (hi : s.Inv) (hfree : s.mutex = none ∨ s.mutex = some h)
    (hfile : ∀ g ≠ h, s'.file g = s.file g)
    (hclosed : (s'.file h).isOpen = false →
      (s'.file h).locktype = noLock ∧ (s'.file h).pc = .idle)
    (hcnt : s'.pLock.cnt - (s'.file h).counted.toNat = s.pLock.cnt - (s.file h).counted.toNat)
    (hlock : s'.pOpen.nLock - (s'.file h).outstanding.toNat =
      s.pOpen.nLock - (s.file h).outstanding.toNat)
    (href : s'.pLock.nRef - (s'.file h).isOpen.toNat = s.pLock.nRef - (s.file h).isOpen.toNat)
    (hrefs : s'.pOpen.nRef = s'.pLock.nRef)
    (habove : OneAbove s'.pLock.locktype fun g => (s'.file g).level)
    (hdeferred : 0 < s'.pOpen.nPending → 0 < s'.pOpen.nLock)
    (hphase : s'.mutex = none ∧ (s'.file h).pc.inside = false ∧
        Backed s'.pLock.locktype s'.pLock.cnt s'.os ∨
      s'.mutex = some h ∧ Within (s'.file h) s'.pLock.locktype s'.pLock.cnt s'.os) : s'.Inv := by
  -- the others are where they were, so none of them is in the critical section
  have hothers : ∀ g ≠ h, ¬ (s'.file g).pc.inside := fun g hg hin => by
    rw [hfile g hg] at hin
    have hmutex := hi.inside g hin
    rcases hfree with hfree | hfree
    · rw [hfree] at hmutex
      cases hmutex
    · rw [hfree] at hmutex
      exact hg (Option.some.inj hmutex).symm
  refine ⟨fun g hin => ?_, ?_, ?_, ?_, hrefs, fun g hg => ?_, habove, hdeferred, ?_⟩
  · obtain rfl : g = h := by
      by_contra hg
      exact hothers g hg hin
    rcases hphase with ⟨-, hout, -⟩ | ⟨hmutex, -⟩
    · rw [hout] at hin
      cases hin
    · exact hmutex
  -- each counter changes by what the one handle adds to it
  · exact hi.cnt.update (fun g hg => by rw [hfile g hg]) hcnt
  · exact hi.nLock.update (fun g hg => by rw [hfile g hg]) hlock
  · exact hi.nRef.update (fun g hg => by rw [hfile g hg]) href
  · by_cases hgh : g = h
    · rw [hgh] at hg ⊢
      exact hclosed hg
    · rw [hfile g hgh] at hg ⊢
      exact hi.closed g hg
  · rcases hphase with ⟨hmutex, -, hbacked⟩ | ⟨hmutex, hwithin⟩
    · rw [hmutex]
      exact hbacked
    · rw [hmutex]
      exact hwithin

/-- A step of an open handle that stays open. -/
theorem Inv.moveFile (hi : s.Inv) (hfree : s.mutex = none ∨ s.mutex = some h)
    (hopen : (s.file h).isOpen) {f : UnixFile} (hfile : s'.file = Function.update s.file h f)
    (hopen' : f.isOpen = (s.file h).isOpen)
    (hcnt : s'.pLock.cnt - f.counted.toNat = s.pLock.cnt - (s.file h).counted.toNat)
    (hlock : s'.pOpen.nLock - f.outstanding.toNat =
      s.pOpen.nLock - (s.file h).outstanding.toNat)
    (href : s'.pLock.nRef = s.pLock.nRef) (href' : s'.pOpen.nRef = s.pOpen.nRef)
    (habove : OneAbove s'.pLock.locktype fun g => (Function.update s.file h f g).level)
    (hdeferred : 0 < s'.pOpen.nPending → 0 < s'.pOpen.nLock)
    (hphase : s'.mutex = none ∧ f.pc.inside = false ∧
        Backed s'.pLock.locktype s'.pLock.cnt s'.os ∨
      s'.mutex = some h ∧ Within f s'.pLock.locktype s'.pLock.cnt s'.os) : s'.Inv := by
  have hself : s'.file h = f := by
    rw [hfile, Function.update_self]
  apply hi.move hfree (fun g hg => by rw [hfile, Function.update_of_ne hg])
  · rw [hself, hopen', hopen]
    -- an open handle is not closed by the step
    exact fun hc => absurd hc (by decide)
  · rw [hself, hcnt]
  · rw [hself, hlock]
  · rw [hself, hopen', href]
  · rw [href, href', hi.nRef_eq]
  · rwa [hfile]
  · exact hdeferred
  · rwa [hself]

/-- Nothing changes above SHARED. -/
theorem Inv.above_same (hi : s.Inv) {f : UnixFile}
    (hf : f.level = (s.file h).level ∨ f.level ≤ sharedLock ∧ (s.file h).level ≤ sharedLock) :
    OneAbove s.pLock.locktype fun g => (Function.update s.file h f g).level := by
  refine hi.above.same fun g => ?_
  by_cases hg : g = h
  · rw [hg, Function.update_self]
    exact hf
  · rw [Function.update_of_ne hg]
    exact .inl rfl

/-- The handle was alone above SHARED, if anybody was. -/
theorem Inv.above_only {t : LockType} {f : UnixFile}
    (hothers : ∀ g ≠ h, (s.file g).level ≤ sharedLock)
    (heq : sharedLock < f.level → f.level = t) (howner : sharedLock < t → f.level = t) :
    OneAbove t fun g => (Function.update s.file h f g).level := by
  refine OneAbove.only (h := h) (fun g hg => ?_) ?_ ?_
  · rw [Function.update_of_ne hg]
    exact hothers g hg
  · rwa [Function.update_self]
  · rwa [Function.update_self]

omit [DecidableEq H] in
/-- A handle with a call in progress is open. -/
theorem Inv.isOpen (hi : s.Inv) (hpc : (s.file h).pc ≠ .idle) : (s.file h).isOpen := by
  by_contra hopen
  exact hpc (hi.closed h (Bool.eq_false_of_not_eq_true hopen)).2

end UnixProc

/-- Where the lock of a handle is the one in `locktype`. -/
def Pc.plain : Pc → Bool
  | .unlockCount | .unlockAll | .unlockOpen | .unlockEnd _ => false
  | _ => true

theorem UnixFile.of_plain {f : UnixFile} (hpc : f.pc.plain) :
    f.counted = decide (f.locktype ≠ noLock) ∧ f.outstanding = decide (f.locktype ≠ noLock) ∧
      f.level = f.locktype := by
  unfold UnixFile.counted UnixFile.outstanding UnixFile.level
  cases hf : f.pc <;> rw [hf] at hpc <;> first | exact ⟨rfl, rfl, rfl⟩ | cases hpc

namespace UnixProc

/-- A step that changes where the call stands, and locks of the operating system. -/
theorem Inv.plain (hi : s.Inv) (hfree : s.mutex = none ∨ s.mutex = some h)
    (hopen : (s.file h).isOpen) (hpc : (s.file h).pc.plain) {pc : Pc} {rc : Rc}
    (hfile : s'.file = Function.update s.file h { s.file h with pc := pc, rc := rc })
    (hpc' : pc.plain) (hLock : s'.pLock = s.pLock) (hOpen : s'.pOpen = s.pOpen)
    (hphase : s'.mutex = none ∧ pc.inside = false ∧ Backed s.pLock.locktype s.pLock.cnt s'.os ∨
      s'.mutex = some h ∧ Within { s.file h with pc := pc, rc := rc } s.pLock.locktype s.pLock.cnt
        s'.os) : s'.Inv := by
  obtain ⟨hc, ho, hl⟩ := UnixFile.of_plain hpc
  set f : UnixFile := { s.file h with pc := pc, rc := rc }
  obtain ⟨hc', ho', hl'⟩ := UnixFile.of_plain (f := f) hpc'
  apply hi.moveFile hfree hopen hfile rfl
  · rw [hLock, hc', hc]
  · rw [hOpen, ho', ho]
  · rw [hLock]
  · rw [hOpen]
  · rw [hLock]
    exact hi.above_same (.inl (hl'.trans hl.symm))
  · rw [hOpen]
    exact hi.deferred
  · rwa [hLock]

/-- The states that differ in the locks of the operating system. -/
abbrev withOs (s : UnixProc H) (os : Area → FLock) : UnixProc H := { s with os := os }

section Lock

variable {os : Area → FLock} (hi : s.Inv) (hfree : s.mutex = none ∨ s.mutex = some h)
  (hopen : (s.file h).isOpen) (hpc : (s.file h).pc.plain)
include hi hfree hopen hpc

theorem Inv.goto {pc : Pc} (hpc' : pc.plain)
    (hw : Within { s.file h with pc := pc } s.pLock.locktype s.pLock.cnt os) :
    ((s.withOs os).goto h pc).Inv :=
  hi.plain hfree hopen hpc rfl hpc' rfl rfl (.inr ⟨rfl, hw⟩)

theorem Inv.leave (rc : Rc) (hb : Backed s.pLock.locktype s.pLock.cnt os) :
    ((s.withOs os).leave h rc).Inv :=
  hi.plain hfree hopen hpc rfl rfl rfl rfl (.inl ⟨rfl, rfl, hb⟩)

/-- The handle gets a lock, and the process with it. -/
theorem Inv.raise (hlock : (s.file h).locktype = s.pLock.locktype)
    (hno : s.pLock.locktype ≠ noLock) {t : LockType} (ht : t ≠ noLock)
    (hb : Backed t s.pLock.cnt os) (rc : Rc) :
    ({ (s.withOs os).setFile h { s.file h with locktype := t, pc := .idle, rc := rc } with
      pLock := { s.pLock with locktype := t }, mutex := none } : UnixProc H).Inv := by
  obtain ⟨hc, ho, hl⟩ := UnixFile.of_plain hpc
  have hothers := hi.above.others (hl.trans hlock)
  set f : UnixFile := { s.file h with locktype := t, pc := .idle, rc := rc } with hf
  obtain ⟨hc', ho', hl'⟩ := UnixFile.of_plain (f := f) rfl
  -- it was counted before and is counted still
  have hone : decide ((s.file h).locktype ≠ noLock) = decide (f.locktype ≠ noLock) := by
    simp [hlock, hno, hf, ht]
  apply hi.moveFile (f := f) hfree hopen rfl rfl
  · rw [hc', hc, hone]
  · rw [ho', ho, hone]
    rfl
  · rfl
  · rfl
  · exact Inv.above_only hothers (fun _ => hl') fun _ => hl'
  · exact hi.deferred
  · exact .inl ⟨rfl, rfl, hb⟩

/-- The handle gets a SHARED lock. -/
theorem Inv.share (hlock : (s.file h).locktype = noLock) {t : LockType}
    (habove : OneAbove t fun g => (s.file g).level) (hb : Backed t (s.pLock.cnt + 1) s'.os)
    (hfile : s'.file =
      Function.update s.file h { s.file h with locktype := sharedLock, pc := .idle, rc := .ok })
    (hLock : s'.pLock = ⟨s.pLock.cnt + 1, t, s.pLock.nRef⟩)
    (hOpen : s'.pOpen = { s.pOpen with nLock := s.pOpen.nLock + 1 }) (hm : s'.mutex = none) :
    s'.Inv := by
  obtain ⟨hc, ho, hl⟩ := UnixFile.of_plain hpc
  set f : UnixFile := { s.file h with locktype := sharedLock, pc := .idle, rc := .ok } with hf
  obtain ⟨hc', ho', hl'⟩ := UnixFile.of_plain (f := f) rfl
  have hno : decide ((s.file h).locktype ≠ noLock) = false := by
    simp [hlock]
  apply hi.moveFile hfree hopen hfile rfl
  · rw [hLock, hc', hc, hno]
    simp [hf]
  · rw [hOpen, ho', ho, hno]
    simp [hf]
  · rw [hLock]
  · rw [hOpen]
  · rw [hLock]
    refine habove.same fun g => ?_
    by_cases hg : g = h
    -- from no lock to SHARED, nothing changes above SHARED
    · right
      rw [hg, Function.update_self, hl', hl, hlock]
      exact ⟨le_rfl, by decide⟩
    · left
      rw [Function.update_of_ne hg]
  · rw [hOpen]
    intro _
    change 0 < s.pOpen.nLock + 1
    have hnonneg := hi.nLock.nonneg
    omega
  · rw [hLock]
    exact .inl ⟨hm, rfl, hb⟩

/-- The end of a call for RESERVED. -/
theorem Inv.lockEnd_reserved (hlock : (s.file h).locktype = s.pLock.locktype)
    (ht : s.pLock.locktype = sharedLock) (rc : Rc)
    (hb : Backed (if rc = .ok then reservedLock else sharedLock) s.pLock.cnt os) :
    ((s.withOs os).unixLockEnd h reservedLock rc).Inv := by
  unfold unixLockEnd
  by_cases hrc : rc = .ok
  · rw [if_pos hrc] at hb
    rw [if_pos hrc]
    exact hi.raise hfree hopen hpc hlock (by rw [ht]; decide) (by decide) hb rc
  · rw [if_neg hrc, ← ht] at hb
    rw [if_neg hrc, if_neg (by decide)]
    exact hi.leave hfree hopen hpc rc hb

/-- The end of a call for EXCLUSIVE, which leads to PENDING at least. -/
theorem Inv.lockEnd_exclusive (hlock : (s.file h).locktype = s.pLock.locktype)
    (hno : s.pLock.locktype ≠ noLock) (rc : Rc)
    (hb : Backed (if rc = .ok then exclusiveLock else pendingLock) s.pLock.cnt os) :
    ((s.withOs os).unixLockEnd h exclusiveLock rc).Inv := by
  unfold unixLockEnd
  by_cases hrc : rc = .ok
  · rw [if_pos hrc] at hb
    rw [if_pos hrc]
    exact hi.raise hfree hopen hpc hlock hno (by decide) hb rc
  · rw [if_neg hrc] at hb
    rw [if_neg hrc, if_pos rfl]
    exact hi.raise hfree hopen hpc hlock hno (by decide) hb rc

/-- Behind the call for `PENDING_BYTE`, for EXCLUSIVE. -/
theorem Inv.lockCall_exclusive (hlock : (s.file h).locktype = s.pLock.locktype)
    (hno : s.pLock.locktype ≠ noLock) (hne : s.pLock.locktype ≠ exclusiveLock)
    (hcnt : 0 < s.pLock.cnt) (hshared : os sharedRange = rdlck) (hpending : os pendingByte = wrlck)
    (hreserved : ReservedOf s.pLock.locktype (os reservedByte)) :
    ((s.withOs os).unixLockCall h exclusiveLock).Inv := by
  unfold unixLockCall
  rw [if_neg (by decide)]
  by_cases hmany : 1 < s.pLock.cnt
  -- other handles of the process read: PENDING is all there is to get
  · rw [if_pos ⟨rfl, hmany⟩]
    refine hi.lockEnd_exclusive hfree hopen hpc hlock hno .busy ?_
    exact ⟨by simp; omega, fun h => absurd h (by decide), hshared, hpending, hreserved.ne_rdlck⟩
  · rw [if_neg fun h => hmany h.2]
    refine hi.goto hfree hopen hpc rfl ⟨hlock, .inr ⟨rfl, ?_, hno, hne, hshared, hpending, ?_⟩⟩
    · omega
    · exact hreserved

end Lock

/-- A step outside the critical section. -/
theorem Inv.outside (hi : s.Inv) (hopen : (s.file h).isOpen) (hout : (s.file h).pc.inside = false)
    {f : UnixFile} (hopen' : f.isOpen) (hout' : f.pc.inside = false)
    (hc : f.counted = (s.file h).counted) (ho : f.outstanding = (s.file h).outstanding)
    (hl : f.level = (s.file h).level) : (s.setFile h f).Inv := by
  -- what the invariant looks at is the same for every handle
  have hsame : ∀ {β : Type} (v : UnixFile → β), v f = v (s.file h) →
      ∀ g, v ((s.setFile h f).file g) = v (s.file g) := fun v hv g => by
    by_cases hg : g = h
    · rw [hg, setFile_file, hv]
    · rw [setFile_file_of_ne s h hg]
  have hinside := hsame (fun f => f.pc.inside) (hout'.trans hout.symm)
  -- the counters, then the handles that are closed, the lock above SHARED and the phase
  refine ⟨fun g hin => hi.inside g (hinside g ▸ hin), ?_, ?_, ?_, hi.nRef_eq, fun g hg => ?_, ?_,
    hi.deferred, ?_⟩
  · simpa only [setFile_pLock, hsame _ hc] using hi.cnt
  · simpa only [setFile_pOpen, hsame _ ho] using hi.nLock
  · have hiso := hsame UnixFile.isOpen (hopen'.trans hopen.symm)
    simpa only [setFile_pLock, hiso] using hi.nRef
  · by_cases hgh : g = h
    · rw [hgh, setFile_file, hopen'] at hg
      cases hg
    · rw [setFile_file_of_ne s h hgh] at hg ⊢
      exact hi.closed g hg
  · simpa only [setFile_pLock, hsame _ hl] using hi.above
  · have hphase := hi.phase
    change match s.mutex with
      | none => Backed s.pLock.locktype s.pLock.cnt s.os
      | some g => Within ((s.setFile h f).file g) s.pLock.locktype s.pLock.cnt s.os
    cases hm : s.mutex with
    | none => rwa [hm] at hphase
    | some g =>
      rw [hm] at hphase
      -- the thread in the critical section is that of another handle
      have hg : g ≠ h := by
        rintro rfl
        change Within (s.file g) _ _ _ at hphase
        unfold Within at hphase
        cases hpc : (s.file g).pc <;> rw [hpc] at hphase hout <;>
          first | exact hphase | cases hout
      change Within ((s.setFile h f).file g) _ _ _
      rw [setFile_file_of_ne s h hg]
      exact hphase

end UnixProc

end SqlCode.SqliteCore
