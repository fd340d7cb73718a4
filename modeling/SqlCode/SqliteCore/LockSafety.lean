import SqlCode.SqliteCore.LockInvariant

/-!
# The functions keep the invariant

One lemma for each function of `os_unix.c`, and for each of its calls of `fcntl` that has been
answered. Together they are `UnixProc.Inv.step`: where giving up a lock does not fail, every
step of a process keeps its invariant.
-/

namespace SqlCode.SqliteCore

open Process LockType Area FLock

variable {H : Type} [DecidableEq H] {s s' : UnixProc H} {h : H}

/-! ### The functions -/

theorem LockType.ne_noLock_of_lt {t : LockType} (h : sharedLock < t) : t ≠ noLock := by
  rintro rfl
  exact absurd h (by decide)

theorem LockType.noLock_le (t : LockType) : noLock ≤ t := by
  cases t <;> decide

theorem LockType.eq_noLock {t : LockType} (h : ¬ sharedLock ≤ t) : t = noLock := by
  cases t <;> first | rfl | exact absurd (by decide) h

/-- A handle for which the process is not busy has the lock of the process. -/
theorem LockType.eq_of_not_busy {f t u : LockType}
    (h : ¬ (f ≠ t ∧ (pendingLock ≤ t ∨ sharedLock < u))) (hu : sharedLock < u) : f = t := by
  by_contra hne
  exact h ⟨hne, .inr hu⟩

/-- Nobody has a lock when the first SHARED lock is asked for. -/
theorem LockType.first_lock {t : LockType}
    (h : ¬ (noLock ≠ t ∧ (pendingLock ≤ t ∨ sharedLock < sharedLock)))
    (hcount : ¬ (sharedLock = sharedLock ∧ (t = sharedLock ∨ t = reservedLock))) : t = noLock := by
  cases t <;> first | rfl | exact absurd (by decide) h | exact absurd (by decide) hcount

namespace UnixProc

omit [DecidableEq H] in
/-- The state when nobody is in the critical section. -/
theorem Inv.backed (hi : s.Inv) (hm : s.mutex = none) :
    Backed s.pLock.locktype s.pLock.cnt s.os := by
  have hphase := hi.phase
  rwa [hm] at hphase

/-- A handle is counted as a further reader. -/
theorem Inv.lock_count (hi : s.Inv) (hopen : (s.file h).isOpen) (hpc : (s.file h).pc = .idle)
    (hm : s.mutex = none) (hlock : (s.file h).locktype = noLock)
    (hshared : s.pLock.locktype = sharedLock ∨ s.pLock.locktype = reservedLock) :
    ({ s.setFile h { s.file h with locktype := sharedLock, rc := .ok } with
      pLock := { s.pLock with cnt := s.pLock.cnt + 1 }
      pOpen := { s.pOpen with nLock := s.pOpen.nLock + 1 } } : UnixProc H).Inv := by
  have hplain : (s.file h).pc.plain := by
    rw [hpc]
    rfl
  have hb := hi.backed hm
  have hcnt := hi.cnt.nonneg
  refine hi.share (.inl hm) hopen hplain hlock hi.above ?_ ?_ rfl rfl hm
  · -- the counter was not zero
    have hne := hb.cnt_ne_zero fun hno => by
      rw [hno] at hshared
      exact absurd hshared (by decide)
    refine ⟨?_, fun he => ?_, hb.shared, hb.pending, hb.reserved⟩
    · exact iff_of_false (fun hno => hne (hb.none_iff.mp hno)) (by omega)
    · rw [he] at hshared
      exact absurd hshared (by decide)
  · simp [setFile, hpc]

/-- A handle with PENDING asks for EXCLUSIVE again. -/
theorem Inv.lock_retry (hi : s.Inv) (hopen : (s.file h).isOpen) (hplain : (s.file h).pc.plain)
    (hm : s.mutex = none) (hlock : (s.file h).locktype = s.pLock.locktype)
    (ht : s.pLock.locktype = pendingLock) : (s.unixLockCall h exclusiveLock).Inv := by
  have hb := hi.backed hm
  have hcnt := hb.cnt_ne_zero (by rw [ht]; decide)
  have hnonneg := hi.cnt.nonneg
  obtain ⟨-, -, hos, hop, hor⟩ := hb
  rw [ht] at hos hop
  exact hi.lockCall_exclusive (.inl hm) hopen hplain hlock (by rw [ht]; decide)
    (by rw [ht]; decide) (by omega) hos hop hor

/-- **A call of `unixLock`** keeps the invariant. -/
theorem Inv.unixLock (hi : s.Inv) (hopen : (s.file h).isOpen) (hpc : (s.file h).pc = .idle)
    {t : LockType} (hcall : t ≤ (s.file h).locktype ∨ s.LockCall h t ∧ s.mutex = none) :
    (s.unixLock h t).Inv := by
  have hplain : (s.file h).pc.plain := by
    rw [hpc]
    rfl
  obtain ⟨hc, ho, hl⟩ := UnixFile.of_plain hplain
  unfold UnixProc.unixLock
  dsimp only
  -- the handle has the lock: only the return code changes, and nobody need be out of
  -- the critical section
  by_cases hheld : t ≤ (s.file h).locktype
  · rw [if_pos hheld]
    have hout : (s.file h).pc.inside = false := by
      rw [hpc]
      rfl
    obtain ⟨hc', ho', hl'⟩ := UnixFile.of_plain (f := { s.file h with rc := .ok }) hplain
    exact hi.outside hopen hout hopen hout (hc'.trans hc.symm) (ho'.trans ho.symm)
      (hl'.trans hl.symm)
  -- from here on the thread is in the critical section, in which the code stays until a `fcntl`
  obtain ⟨⟨hno, hpending, hreserved⟩, hm⟩ := hcall.resolve_left hheld
  have hb := hi.backed hm
  rw [if_neg hheld]
  -- another handle of the process has a lock that excludes this one
  by_cases hbusy : (s.file h).locktype ≠ s.pLock.locktype ∧
      (pendingLock ≤ s.pLock.locktype ∨ sharedLock < t)
  · rw [if_pos hbusy]
    exact hi.leave (.inl hm) hopen hplain .busy hb
  rw [if_neg hbusy]
  -- the process has the read-lock, so that the handle is counted without a `fcntl`
  by_cases hcount : t = sharedLock ∧
      (s.pLock.locktype = sharedLock ∨ s.pLock.locktype = reservedLock)
  · rw [if_pos hcount]
    obtain ⟨rfl, hshared⟩ := hcount
    exact hi.lock_count hopen hpc hm (LockType.eq_noLock hheld) hshared
  rw [if_neg hcount]
  -- `PENDING_BYTE` comes first, for a new reader and on the way to EXCLUSIVE
  by_cases hpend : t = sharedLock ∨ t = exclusiveLock ∧ (s.file h).locktype < pendingLock
  · rw [if_pos hpend]
    refine hi.goto (.inl hm) hopen hplain rfl ?_
    rcases hpend with rfl | ⟨rfl, hlt⟩
    · have hf := LockType.eq_noLock hheld
      rw [hf] at hbusy
      have ht := LockType.first_lock hbusy hcount
      exact ⟨hf.trans ht.symm, hb, .inl ⟨rfl, ht⟩⟩
    · have heq := LockType.eq_of_not_busy hbusy (by decide)
      refine ⟨heq, hb, .inr ⟨rfl, ?_⟩⟩
      have hne : (s.file h).locktype ≠ noLock := hno.resolve_right (by decide)
      rw [heq] at hlt hne
      revert hlt hne
      cases s.pLock.locktype <;> decide
  rw [if_neg hpend]
  cases t with
  | noLock => exact absurd (LockType.noLock_le _) hheld
  | sharedLock => exact absurd (.inl rfl) hpend
  | pendingLock => exact absurd rfl hpending
  | reservedLock =>
    have heq := LockType.eq_of_not_busy hbusy (by decide)
    refine hi.goto (.inl hm) hopen hplain rfl ⟨heq, .inl ⟨rfl, ?_, hb⟩⟩
    exact heq ▸ hreserved rfl
  | exclusiveLock =>
    have heq := LockType.eq_of_not_busy hbusy (by decide)
    -- a retry: the handle has PENDING from a call that found readers
    have ht : s.pLock.locktype = pendingLock := by
      have hge : ¬ s.pLock.locktype < pendingLock := fun hlt => hpend (.inr ⟨rfl, heq ▸ hlt⟩)
      rw [heq] at hheld
      revert hge hheld
      cases s.pLock.locktype <;> decide
    exact hi.lock_retry hopen hplain hm heq ht

omit [DecidableEq H] in
/-- The state while a thread is in the critical section. -/
theorem Inv.within (hi : s.Inv) (hin : (s.file h).pc.inside) :
    Within (s.file h) s.pLock.locktype s.pLock.cnt s.os := by
  have hphase := hi.phase
  rwa [hi.inside h hin] at hphase

/-- The locks of the operating system behind a call. -/
def locked (os : Area → FLock) (areas : List Area) (l : FLock) : Area → FLock :=
  fun a => if a ∈ areas then l else os a

/-- A call changes the locks of the operating system if it succeeds. -/
theorem answer_eq {pc : Pc} {areas : List Area} {l : FLock} (hpc : (s.file h).pc = pc)
    (hcall : flock pc = some (areas, l)) (r : Answer) :
    s.answer h r = (s.withOs (if r = .done then locked s.os areas l else s.os)).resume h r := by
  unfold answer
  rw [hpc, hcall]
  dsimp only
  split_ifs <;> rfl

omit [DecidableEq H] in
/-- A thread in the critical section. -/
theorem Inv.entered (hi : s.Inv) {pc : Pc} (hpc : (s.file h).pc = pc) (hin : pc.inside) :
    s.mutex = some h ∧ (s.file h).isOpen ∧
      Within (s.file h) s.pLock.locktype s.pLock.cnt s.os := by
  have hin' : (s.file h).pc.inside := hpc ▸ hin
  have hidle : (s.file h).pc ≠ .idle := fun hidle => by
    rw [hidle] at hin'
    cases hin'
  exact ⟨hi.inside h hin', hi.isOpen hidle, hi.within hin'⟩

/-- A handle with more than a SHARED lock is counted. -/
theorem counted_of_level {f : UnixFile} (hf : sharedLock < f.level) : f.counted := by
  unfold UnixFile.level at hf
  unfold UnixFile.counted
  cases hpc : f.pc <;> rw [hpc] at hf <;>
    first
    | exact absurd hf (lt_irrefl sharedLock)
    | exact decide_eq_true (LockType.ne_noLock_of_lt hf)

section Answer

variable (hi : s.Inv)
include hi

/-- The call for `PENDING_BYTE`. -/
theorem Inv.answer_lockPending {t : LockType} (hpc : (s.file h).pc = .lockPending t) (r : Answer) :
    (s.answer h r).Inv := by
  obtain ⟨hm, hopen, hw⟩ := hi.entered hpc rfl
  have hplain : (s.file h).pc.plain := by rw [hpc]; rfl
  unfold Within at hw
  rw [hpc] at hw
  obtain ⟨hlock, hb, hcase⟩ := hw
  rw [answer_eq hpc rfl]
  unfold resume
  dsimp only
  rw [hpc]
  dsimp only
  by_cases hr : r = .done
  · rw [if_pos hr, if_pos hr]
    -- the byte is locked for reading on the way to SHARED, and for writing on the way to EXCLUSIVE
    rcases hcase with ⟨rfl, ht⟩ | ⟨rfl, ht⟩
    · rw [ht] at hlock
      have hos := hb.shared
      have hor := hb.reserved
      rw [ht] at hos hor
      refine hi.goto (.inr hm) hopen hplain rfl ?_
      exact ⟨hlock, ht, hb.none_iff.mp ht, rfl, hos, hor⟩
    · have hno : s.pLock.locktype ≠ noLock ∧ s.pLock.locktype ≠ exclusiveLock := by
        rcases ht with ht | ht <;> rw [ht] <;> decide
      have hcnt := hb.cnt_ne_zero hno.1
      have hnonneg := hi.cnt.nonneg
      have hos : s.os sharedRange = rdlck := by
        rw [hb.shared]
        rcases ht with ht | ht <;> rw [ht] <;> rfl
      exact hi.lockCall_exclusive (.inr hm) hopen hplain hlock hno.1 hno.2 (by omega)
        hos rfl hb.reserved
  · rw [if_neg hr, if_neg hr]
    exact hi.leave (.inr hm) hopen hplain r.rc hb

/-- The call for the read-lock on the shared range. -/
theorem Inv.answer_lockShared (hpc : (s.file h).pc = .lockShared) (r : Answer) :
    (s.answer h r).Inv := by
  obtain ⟨hm, hopen, hw⟩ := hi.entered hpc rfl
  have hplain : (s.file h).pc.plain := by rw [hpc]; rfl
  unfold Within at hw
  rw [hpc] at hw
  obtain ⟨hlock, ht, hcnt, hop, hos, hor⟩ := hw
  rw [answer_eq hpc rfl]
  unfold resume
  dsimp only
  rw [hpc]
  dsimp only
  refine hi.goto (.inr hm) hopen hplain rfl ⟨hlock, ht, hcnt, ?_⟩
  by_cases hr : r = .done
  · rw [if_pos hr, if_pos hr]
    exact ⟨hop, rfl, hor⟩
  · rw [if_neg hr, if_neg hr]
    exact ⟨hop, hos, hor⟩

/-- The temporary lock is dropped. -/
theorem Inv.answer_lockDrop {a : Answer} (hpc : (s.file h).pc = .lockDrop a) :
    (s.answer h .done).Inv := by
  obtain ⟨hm, hopen, hw⟩ := hi.entered hpc rfl
  have hplain : (s.file h).pc.plain := by rw [hpc]; rfl
  unfold Within at hw
  rw [hpc] at hw
  obtain ⟨hlock, ht, hcnt, hop, hos, hor⟩ := hw
  rw [answer_eq hpc rfl]
  unfold resume
  dsimp only
  rw [hpc]
  dsimp only
  rw [if_pos rfl, if_neg (not_not.mpr rfl)]
  by_cases ha : a = .done
  · rw [if_neg (not_not.mpr ha)]
    rw [if_pos ha] at hos
    -- nobody had a lock
    have habove : OneAbove sharedLock fun g => (s.file g).level := by
      refine ⟨fun g hg => ?_, hi.above.unique, fun hlt => absurd hlt (lt_irrefl _)⟩
      have hno := hi.above.eq g hg
      rw [hno, ht] at hg
      exact absurd hg (by decide)
    refine hi.share (.inr hm) hopen hplain hlock habove ?_ rfl ?_ rfl rfl
    · rw [hcnt]
      exact backed_sharedLock (by decide) hos rfl hor
    · rw [hcnt]
      rfl
  · rw [if_pos ha]
    rw [if_neg ha] at hos
    -- the read-lock was refused, and the process is as it was before
    have hrc : a.rc ≠ .ok := by
      cases a <;> first | exact absurd rfl ha | decide
    unfold unixLockEnd
    rw [if_neg hrc, if_neg (by decide)]
    apply hi.leave (.inr hm) hopen hplain a.rc
    rw [ht, hcnt]
    exact backed_noLock hos rfl hor

/-- The call for a write-lock. -/
theorem Inv.answer_lockWrite {t : LockType} (hpc : (s.file h).pc = .lockWrite t) (r : Answer) :
    (s.answer h r).Inv := by
  obtain ⟨hm, hopen, hw⟩ := hi.entered hpc rfl
  have hplain : (s.file h).pc.plain := by rw [hpc]; rfl
  unfold Within at hw
  rw [hpc] at hw
  have hrc : r.rc = .ok ↔ r = .done := by
    cases r <;> decide
  rw [answer_eq hpc rfl]
  unfold resume
  dsimp only
  rw [hpc]
  dsimp only
  -- RESERVED leaves the shared range alone; for EXCLUSIVE it is the range that is locked
  rcases hw with ⟨hlock, ⟨rfl, ht, hb⟩ | ⟨rfl, hcnt, hno, -, hos, hop, hor⟩⟩
  · refine hi.lockEnd_reserved (.inr hm) hopen hplain hlock ht r.rc ?_
    rw [ht] at hb
    by_cases hr : r = .done
    · rw [if_pos hr, if_pos (hrc.mpr hr)]
      have hne := hb.cnt_ne_zero (by decide)
      exact ⟨iff_of_false (by decide) hne, fun hx => absurd hx (by decide), hb.shared, hb.pending,
        rfl⟩
    · rw [if_neg hr, if_neg fun hx => hr (hrc.mp hx)]
      exact hb
  · refine hi.lockEnd_exclusive (.inr hm) hopen hplain hlock hno r.rc ?_
    by_cases hr : r = .done
    · rw [if_pos hr, if_pos (hrc.mpr hr), hcnt]
      exact ⟨iff_of_false (by decide) (by decide), fun _ => rfl, rfl, hop, hor.ne_rdlck⟩
    · rw [if_neg hr, if_neg fun hx => hr (hrc.mp hx), hcnt]
      exact ⟨iff_of_false (by decide) (by decide), fun _ => rfl, hos, hop, hor.ne_rdlck⟩

/-- The call that returns to a read-lock. -/
theorem Inv.answer_unlockShared (hpc : (s.file h).pc = .unlockShared) :
    (s.answer h .done).Inv := by
  obtain ⟨hm, hopen, hw⟩ := hi.entered hpc rfl
  have hplain : (s.file h).pc.plain := by rw [hpc]; rfl
  unfold Within at hw
  rw [hpc] at hw
  obtain ⟨hlock, ht, hb⟩ := hw
  rw [answer_eq hpc rfl]
  unfold resume
  dsimp only
  rw [hpc]
  dsimp only
  rw [if_pos rfl, if_pos rfl]
  have hcnt := hb.cnt_ne_zero (LockType.ne_noLock_of_lt ht)
  exact hi.goto (.inr hm) hopen hplain rfl ⟨hlock, ht, .inr ⟨rfl, hcnt, rfl⟩⟩

/-- `PENDING_BYTE` and `RESERVED_BYTE` are unlocked. -/
theorem Inv.answer_unlockBytes {t : LockType} (hpc : (s.file h).pc = .unlockBytes t) :
    (s.answer h .done).Inv := by
  obtain ⟨hm, hopen, hw⟩ := hi.entered hpc rfl
  have hplain : (s.file h).pc.plain := by rw [hpc]; rfl
  obtain ⟨hc, ho, hl⟩ := UnixFile.of_plain hplain
  unfold Within at hw
  rw [hpc] at hw
  obtain ⟨hlock, ht, hcase⟩ := hw
  have hothers := hi.above.others (hl.trans hlock)
  have hno := LockType.ne_noLock_of_lt ht
  have hc' : (s.file h).counted = true := by
    rw [hc, hlock]
    exact decide_eq_true hno
  have ho' : (s.file h).outstanding = true := by
    rw [ho, hlock]
    exact decide_eq_true hno
  have hnoabove : ¬ sharedLock < sharedLock := lt_irrefl _
  rw [answer_eq hpc rfl]
  unfold resume
  dsimp only
  rw [hpc]
  dsimp only
  rw [if_pos rfl]
  -- down to no lock, where the handle is still to be counted out, or down to SHARED
  rcases hcase with ⟨rfl, hb⟩ | ⟨rfl, hcnt, hos⟩
  · rw [if_pos rfl, if_pos rfl]
    have hcount : decide ((s.file h).locktype ≠ noLock) = true := by
      rw [hlock]
      exact decide_eq_true hno
    refine hi.moveFile (f := { s.file h with pc := .unlockCount }) (.inr hm) hopen rfl rfl ?_ ?_ rfl
      rfl (Inv.above_only hothers (fun hx => absurd hx hnoabove) fun hx => absurd hx hnoabove)
      hi.deferred (.inr ⟨rfl, ?_⟩)
    · rw [hc']
      exact congrArg (fun b : Bool => s.pLock.cnt - (b.toNat : ℤ)) hcount
    · rw [ho']
      exact congrArg (fun b : Bool => s.pOpen.nLock - (b.toNat : ℤ)) hcount
    · refine ⟨hlock ▸ hno, ?_⟩
      -- EXCLUSIVE has left a write-lock on the range, which goes when the whole file is unlocked
      by_cases hex : s.pLock.locktype = exclusiveLock
      · exact .inr ⟨hb.single hex, rfl, rfl⟩
      · have hos := hb.shared
        have hcnt := hb.cnt_ne_zero hno
        refine .inl ⟨fun hx : sharedLock = exclusiveLock => absurd hx (by decide),
          backed_sharedLock hcnt ?_ rfl rfl⟩
        change s.os sharedRange = rdlck
        rw [hos]
        revert ht hex
        cases s.pLock.locktype <;> decide
  · rw [if_neg (by decide), if_pos rfl]
    refine hi.moveFile (f := { s.file h with pc := .unlockEnd sharedLock }) (.inr hm) hopen rfl rfl
      ?_ ?_ rfl rfl
      (Inv.above_only hothers (fun hx => absurd hx hnoabove) fun hx => absurd hx hnoabove)
      hi.deferred (.inl ⟨rfl, rfl, ?_⟩)
    · rw [hc']
      rfl
    · rw [ho']
      rfl
    · exact backed_sharedLock hcnt hos rfl rfl

/-- The whole file is unlocked, when no handle is counted. -/
theorem Inv.answer_unlockAll (hpc : (s.file h).pc = .unlockAll) : (s.answer h .done).Inv := by
  obtain ⟨hm, hopen, hw⟩ := hi.entered hpc rfl
  unfold Within at hw
  rw [hpc] at hw
  obtain ⟨hlock, hcnt, -⟩ := hw
  have hcounted := hi.cnt
  rw [hcnt] at hcounted
  have hnone : ¬ sharedLock < noLock := by decide
  -- a handle with more than SHARED would be counted
  have hothers : ∀ g ≠ h, (s.file g).level ≤ sharedLock := fun g _ => by
    by_contra hg
    exact absurd (counted_of_level (not_le.mp hg)) (Bool.eq_false_iff.mp (hcounted.none (h := g)))
  rw [answer_eq hpc rfl]
  unfold resume
  dsimp only
  rw [hpc]
  dsimp only
  rw [if_pos rfl, if_pos rfl]
  refine hi.moveFile (f := { s.file h with pc := .unlockOpen }) (.inr hm) hopen rfl rfl ?_ ?_ rfl
    rfl (Inv.above_only hothers (fun hx => absurd hx (lt_irrefl _)) fun hx => absurd hx hnone)
    hi.deferred (.inr ⟨rfl, hlock, ?_⟩)
  · simp only [UnixFile.counted, hpc]
    rfl
  · simp only [UnixFile.outstanding, hpc]
    rfl
  · change Backed noLock s.pLock.cnt _
    rw [hcnt]
    exact backed_noLock rfl rfl rfl

/-- `pLock->cnt--`. -/
theorem Inv.unixUnlockCount (hpc : (s.file h).pc = .unlockCount) : (s.unixUnlockCount h).Inv := by
  obtain ⟨hm, hopen, hw⟩ := hi.entered hpc rfl
  unfold Within at hw
  rw [hpc] at hw
  obtain ⟨hlock, hcase⟩ := hw
  have hc : (s.file h).counted = true := by
    simp only [UnixFile.counted, hpc]
    exact decide_eq_true hlock
  have ho : (s.file h).outstanding = true := by
    simp only [UnixFile.outstanding, hpc]
    exact decide_eq_true hlock
  have hl : (s.file h).level = sharedLock := by
    simp only [UnixFile.level, hpc]
  have hpos := hi.cnt.pos (h := h) hc
  unfold UnixProc.unixUnlockCount
  dsimp only
  by_cases hlast : s.pLock.cnt - 1 = 0
  · rw [if_pos hlast]
    refine hi.moveFile (f := { s.file h with pc := .unlockAll }) (.inr hm) hopen rfl rfl ?_ ?_ rfl
      rfl (hi.above_same (.inl hl.symm)) hi.deferred (.inr ⟨rfl, hlock, hlast, ?_⟩)
    · rw [hc]
      exact Int.sub_zero _
    · rw [ho]
      exact congrArg (fun b : Bool => s.pOpen.nLock - (b.toNat : ℤ)) (decide_eq_true hlock)
    · rcases hcase with ⟨-, hb⟩ | ⟨-, -, hor⟩
      · -- the handle is the last that is counted, and has no more than a SHARED lock
        have hone : s.pLock.cnt = 1 := by omega
        have hcounted := hi.cnt
        rw [hone] at hcounted
        have hle : ¬ sharedLock < s.pLock.locktype := fun hlt => by
          obtain ⟨g, hg⟩ := hi.above.owner hlt
          have hgc := counted_of_level (hg.symm ▸ hlt)
          rw [hcounted.one hgc hc, hl] at hg
          exact absurd hg hlt.ne
        have hor := hb.reserved
        revert hle hor
        change _ → _ → s.os reservedByte = unlck
        cases s.pLock.locktype <;>
          first | exact fun _ hor => hor | exact fun hle => absurd (by decide) hle
      · exact hor
  · rw [if_neg hlast]
    -- there are other readers, and the operating system's locks stay
    obtain ⟨hne, hb⟩ := hcase.resolve_right fun hx => hlast (by omega)
    refine hi.moveFile (f := { s.file h with pc := .unlockOpen }) (.inr hm) hopen rfl rfl ?_ ?_ rfl
      rfl (hi.above_same (.inl hl.symm)) hi.deferred (.inr ⟨rfl, hlock, ?_⟩)
    · rw [hc]
      exact Int.sub_zero _
    · rw [ho]
      exact congrArg (fun b : Bool => s.pOpen.nLock - (b.toNat : ℤ)) (decide_eq_true hlock)
    · refine ⟨?_, fun hex => absurd hex hne, hb.shared, hb.pending, hb.reserved⟩
      have hno : s.pLock.locktype ≠ noLock := fun hno => by
        have hzero := hb.none_iff.mp hno
        omega
      exact iff_of_false hno hlast

omit [DecidableEq H] in
/-- When no lock is outstanding, no handle is counted. -/
theorem Inv.cnt_eq_zero (hothers : ∀ g, (s.file g).outstanding = true → (s.file g).counted = false) :
    s.pLock.cnt = 0 := by
  by_contra hne
  have hnonneg := hi.cnt.nonneg
  obtain ⟨g, hg⟩ := hi.cnt.exists_of_pos (by omega)
  have hout : (s.file g).outstanding = true := by
    unfold UnixFile.counted at hg
    unfold UnixFile.outstanding
    cases hpc : (s.file g).pc <;> rw [hpc] at hg <;> first | exact hg | cases hg
  rw [hothers g hout] at hg
  cases hg

omit [DecidableEq H] in
/-- When no lock is outstanding, both counters are zero. -/
theorem Inv.counters_zero (hout : ∀ g, (s.file g).outstanding = false) :
    s.pLock.cnt = 0 ∧ s.pOpen.nLock = 0 := by
  have hnone : ∀ g, ¬ (s.file g).outstanding = true := fun g => Bool.eq_false_iff.mp (hout g)
  refine ⟨hi.cnt_eq_zero fun g hg => absurd hg (hnone g), ?_⟩
  by_contra hne
  have hnonneg := hi.nLock.nonneg
  obtain ⟨g, hg⟩ := hi.nLock.exists_of_pos (by omega)
  exact hnone g hg

/-- `pOpen->nLock--`, and the descriptors that were kept are closed. -/
theorem Inv.unixUnlockOpen (hpc : (s.file h).pc = .unlockOpen) : (s.unixUnlockOpen h).Inv := by
  obtain ⟨hm, hopen, hw⟩ := hi.entered hpc rfl
  unfold Within at hw
  rw [hpc] at hw
  obtain ⟨hlock, hb⟩ := hw
  have hc : (s.file h).counted = false := by
    simp only [UnixFile.counted, hpc]
  have ho : (s.file h).outstanding = true := by
    simp only [UnixFile.outstanding, hpc]
    exact decide_eq_true hlock
  have hl : (s.file h).level = sharedLock := by
    simp only [UnixFile.level, hpc]
  have habove := hi.above_same (h := h) (f := { s.file h with pc := .unlockEnd noLock })
    (.inr ⟨show noLock ≤ sharedLock by decide, hl.le⟩)
  have hpos := hi.nLock.pos (h := h) ho
  unfold UnixProc.unixUnlockOpen
  dsimp only
  -- closing the kept descriptors gives up all locks of the process
  by_cases hlast : s.pOpen.nLock - 1 = 0 ∧ 0 < s.pOpen.nPending
  · rw [if_pos hlast]
    refine hi.moveFile (f := { s.file h with pc := .unlockEnd noLock }) (.inr hm) hopen rfl rfl ?_
      ?_ rfl rfl habove (fun hx => absurd hx (lt_irrefl 0)) (.inl ⟨rfl, rfl, ?_⟩)
    · rw [hc]
      rfl
    · rw [ho]
      exact Int.sub_zero _
    · -- the handle was the last
      have hone : s.pOpen.nLock = 1 := by omega
      have hout := hi.nLock
      rw [hone] at hout
      have hzero := hi.cnt_eq_zero fun g hg => by
        rw [hout.one hg ho]
        exact hc
      have hno := hb.none_iff.mpr hzero
      change Backed s.pLock.locktype s.pLock.cnt _
      rw [hno, hzero]
      exact backed_noLock rfl rfl rfl
  · rw [if_neg hlast]
    refine hi.moveFile (f := { s.file h with pc := .unlockEnd noLock }) (.inr hm) hopen rfl rfl ?_
      ?_ rfl rfl habove (fun hx => ?_) (.inl ⟨rfl, rfl, hb⟩)
    · rw [hc]
      rfl
    · rw [ho]
      exact Int.sub_zero _
    · change 0 < s.pOpen.nPending at hx
      change 0 < s.pOpen.nLock - 1
      omega

/-- **A call of `unixUnlock`** keeps the invariant. -/
theorem Inv.unixUnlock (hopen : (s.file h).isOpen) (hpc : (s.file h).pc = .idle) {t : LockType}
    (hle : t ≤ sharedLock) (hcall : (s.file h).locktype ≤ t ∨ s.mutex = none) :
    (s.unixUnlock h t).Inv := by
  have hplain : (s.file h).pc.plain := by rw [hpc]; rfl
  have hout : (s.file h).pc.inside = false := by rw [hpc]; rfl
  obtain ⟨hc, ho, hl⟩ := UnixFile.of_plain hplain
  obtain ⟨hc', ho', hl'⟩ := UnixFile.of_plain (f := { s.file h with rc := .ok }) hplain
  have hrc := hi.outside (f := { s.file h with rc := .ok }) hopen hout hopen hout
    (hc'.trans hc.symm) (ho'.trans ho.symm) (hl'.trans hl.symm)
  unfold UnixProc.unixUnlock
  dsimp only
  by_cases hlow : (s.file h).locktype ≤ t
  · rwa [if_pos hlow]
  have hm := hcall.resolve_left hlow
  have hb := hi.backed hm
  rw [if_neg hlow]
  -- the code goes on with the state in which `rc` is set
  set s₁ := s.setFile h { s.file h with rc := .ok } with hs₁
  have hfile : s₁.file h = { s.file h with rc := .ok } := setFile_file s h _
  have hopen₁ : (s₁.file h).isOpen := by rw [hfile]; exact hopen
  have hplain₁ : (s₁.file h).pc.plain := by rw [hfile]; exact hplain
  have hlock₁ : (s₁.file h).locktype = (s.file h).locktype := by rw [hfile]
  have hno : (s.file h).locktype ≠ noLock := fun hno => by
    rw [hno] at hlow
    exact hlow (LockType.noLock_le t)
  by_cases hmore : sharedLock < (s.file h).locktype
  · rw [if_pos hmore]
    -- the handle is the one with more than SHARED, so it is the process's lock that is lowered
    have heq : (s.file h).locktype = s.pLock.locktype :=
      hl.symm.trans (hi.above.eq h (hl.symm ▸ hmore))
    by_cases ht : t = sharedLock
    · rw [if_pos ht]
      exact hrc.goto (.inl hm) hopen₁ hplain₁ rfl ⟨hlock₁.trans heq, heq ▸ hmore, hb⟩
    · rw [if_neg ht]
      have ht' : t = noLock := by
        revert hle ht
        cases t <;> decide
      exact hrc.goto (.inl hm) hopen₁ hplain₁ rfl ⟨hlock₁.trans heq, heq ▸ hmore, .inl ⟨ht', hb⟩⟩
  · rw [if_neg hmore]
    have hshared : (s.file h).level = sharedLock := by
      rw [hl]
      exact le_antisymm (not_lt.mp hmore) (by revert hno; cases (s.file h).locktype <;> decide)
    -- another handle may have RESERVED or PENDING, but not EXCLUSIVE
    have hne : s.pLock.locktype ≠ exclusiveLock := fun hex => by
      obtain ⟨g, hg⟩ := hi.above.owner (by rw [hex]; decide)
      have hcounted := hi.cnt
      rw [hb.single hex] at hcounted
      have hgc : (s.file g).counted = true :=
        counted_of_level (show sharedLock < (s.file g).level by rw [hg, hex]; decide)
      have hhc : (s.file h).counted = true := by
        rw [hc]
        exact decide_eq_true hno
      rw [hcounted.one hgc hhc, hshared, hex] at hg
      cases hg
    refine hrc.moveFile (f := { s₁.file h with pc := .unlockCount }) (.inl hm) hopen₁ rfl rfl ?_ ?_
      rfl rfl (hrc.above_same (.inr ⟨le_refl sharedLock, ?_⟩)) hrc.deferred
      (.inr ⟨rfl, hlock₁ ▸ hno, .inl ⟨hne, hb⟩⟩)
    · rw [hfile, hc']
      rfl
    · rw [hfile, ho']
      rfl
    · rw [hfile, hl']
      exact not_lt.mp hmore

/-- The last assignment of `unixUnlock`. -/
theorem Inv.unixUnlockEnd {t : LockType} (hpc : (s.file h).pc = .unlockEnd t) :
    (s.unixUnlockEnd h t).Inv := by
  have hopen : (s.file h).isOpen := hi.isOpen fun hidle => by cases hpc.symm.trans hidle
  have hout : (s.file h).pc.inside = false := by rw [hpc]; rfl
  refine hi.outside hopen hout hopen rfl ?_ ?_ ?_
  · simp only [UnixFile.counted, hpc]
  · simp only [UnixFile.outstanding, hpc]
  · simp only [UnixFile.level, hpc]

/-- A file is opened. -/
theorem Inv.unixOpen (hopen : (s.file h).isOpen = false) (hm : s.mutex = none) :
    (s.unixOpen h).Inv := by
  obtain ⟨hlock, hpc⟩ := hi.closed h hopen
  obtain ⟨hc, ho, hl⟩ := UnixFile.of_plain (f := s.file h) (by rw [hpc]; rfl)
  have hself : (s.unixOpen h).file h = ⟨.noLock, true, .idle, .ok⟩ := setFile_file s h _
  have hothers : ∀ g ≠ h, (s.unixOpen h).file g = s.file g := fun g hg =>
    setFile_file_of_ne s h hg _
  apply hi.move (.inl hm) hothers
  · rw [hself]
    exact fun _ => ⟨rfl, rfl⟩
  · rw [hself, hc, hlock]
    rfl
  · rw [hself, ho, hlock]
    rfl
  · rw [hself, hopen]
    exact Int.add_sub_assoc s.pLock.nRef 1 1
  · exact congrArg (· + 1) hi.nRef_eq
  · refine hi.above.same fun g => .inl ?_
    by_cases hg : g = h
    · rw [hg, hself, hl, hlock]
      rfl
    · rw [hothers g hg]
  · exact hi.deferred
  · rw [hself]
    exact .inl ⟨hm, rfl, hi.backed hm⟩

omit [DecidableEq H] in
/-- With its last handle a process gives up nothing. -/
theorem Inv.last (hlast : s.pLock.nRef = 1) (hopen : (s.file h).isOpen)
    (hpc : (s.file h).pc = .idle) (hlock : (s.file h).locktype = noLock) :
    s.pLock.cnt = 0 ∧ s.pOpen.nLock = 0 := by
  have hidle : ∀ g, (s.file g).locktype = noLock ∧ (s.file g).pc = .idle := fun g => by
    by_cases hg : (s.file g).isOpen
    · have href := hi.nRef
      rw [hlast] at href
      rw [href.one hg hopen]
      exact ⟨hlock, hpc⟩
    · exact hi.closed g (Bool.eq_false_of_not_eq_true hg)
  apply hi.counters_zero
  intro g
  simp [UnixFile.outstanding, hidle g]

/-- What a `close` does to the shared structures: it counts the handle out, and gives up the
locks of the process only if no handle has one. -/
theorem Inv.close_spec (hopen : (s.file h).isOpen) (hpc : (s.file h).pc = .idle)
    (hlock : (s.file h).locktype = noLock) (hm : s.mutex = none) (aNew : Bool) :
    (s.unixClose h aNew).pLock = { s.pLock with nRef := s.pLock.nRef - 1 } ∧
      (s.unixClose h aNew).pOpen.nRef = s.pLock.nRef - 1 ∧
      (s.unixClose h aNew).pOpen.nLock = s.pOpen.nLock ∧
      (0 < (s.unixClose h aNew).pOpen.nPending → 0 < s.pOpen.nLock) ∧
      ((s.unixClose h aNew).os = s.os ∨
        s.pOpen.nLock = 0 ∧ (s.unixClose h aNew).os = fun _ => unlck) := by
  have hnonneg := hi.nLock.nonneg
  have hdeferred := hi.deferred
  have href := hi.nRef_eq
  unfold unixClose releaseLockInfo releaseOpenCnt
  by_cases hzero : s.pOpen.nLock = 0
  · have hpending : s.pOpen.nPending = 0 := by omega
    by_cases hlast : s.pLock.nRef - 1 = 0
    -- both structures are freed
    · obtain ⟨hcnt, -⟩ := hi.last (by omega) hopen hpc hlock
      have hno := (hi.backed hm).none_iff.mpr hcnt
      simp [hzero, hlast, href, hcnt, hno]
    · simp [hzero, hlast, href, hpending]
  · have hlast : ¬ s.pLock.nRef - 1 = 0 := fun hlast =>
      hzero (hi.last (by omega) hopen hpc hlock).2
    have hpos : 0 < s.pOpen.nLock := by omega
    cases aNew <;> simp [hzero, hlast, href, hpos]

/-- A file is closed. -/
theorem Inv.unixClose (hopen : (s.file h).isOpen) (hpc : (s.file h).pc = .idle)
    (hlock : (s.file h).locktype = noLock) (hm : s.mutex = none) (aNew : Bool) :
    (s.unixClose h aNew).Inv := by
  obtain ⟨hpLock, href, hnLock, hdeferred, hos⟩ := hi.close_spec hopen hpc hlock hm aNew
  have hself : (s.unixClose h aNew).file h = { s.file h with isOpen := false } := by
    unfold UnixProc.unixClose
    dsimp only
    rw [setFile_file]
    unfold releaseOpenCnt releaseLockInfo
    split_ifs <;> rfl
  have hothers : ∀ g ≠ h, (s.unixClose h aNew).file g = s.file g := fun g hg => by
    unfold UnixProc.unixClose
    dsimp only
    rw [setFile_file_of_ne _ _ hg]
    unfold releaseOpenCnt releaseLockInfo
    split_ifs <;> rfl
  have hmutex : (s.unixClose h aNew).mutex = none := by
    unfold UnixProc.unixClose releaseOpenCnt releaseLockInfo
    dsimp only
    split_ifs <;> exact hm
  have hb := hi.backed hm
  -- one goal for each field of the invariant
  apply hi.move (.inl hm) hothers
  · rw [hself]
    exact fun _ => ⟨hlock, hpc⟩
  · rw [hself, hpLock]
    rfl
  · rw [hself, hnLock]
    rfl
  · rw [hself, hpLock, hopen]
    exact Int.sub_zero _
  · rw [href, hpLock]
  · rw [hpLock]
    refine hi.above.same fun g => .inl ?_
    by_cases hg : g = h
    · rw [hg, hself]
      rfl
    · rw [hothers g hg]
  · rw [hnLock]
    exact hdeferred
  · rw [hself, hpLock]
    refine .inl ⟨hmutex, by rw [hpc]; rfl, ?_⟩
    rcases hos with hos | ⟨hzero, hos⟩
    · rw [hos]
      exact hb
    · have hout := hi.nLock
      rw [hzero] at hout
      have hcnt := hi.cnt_eq_zero fun g hg => absurd hg (Bool.eq_false_iff.mp hout.none)
      have hno := hb.none_iff.mpr hcnt
      change Backed s.pLock.locktype s.pLock.cnt _
      rw [hos, hno, hcnt]
      exact backed_noLock rfl rfl rfl

end Answer

/-! ### Runs -/

omit [DecidableEq H] in
theorem inv_start : (UnixProc.start H).Inv where
  inside _ hin := by cases hin
  cnt := counts_zero fun _ => rfl
  nLock := counts_zero fun _ => rfl
  nRef := counts_zero fun _ => rfl
  nRef_eq := rfl
  closed _ _ := ⟨rfl, rfl⟩
  above :=
    ⟨fun _ hg => absurd hg (show ¬ sharedLock < noLock by decide),
      fun _ _ hg => absurd hg (show ¬ sharedLock < noLock by decide),
      fun hg => absurd hg (show ¬ sharedLock < noLock by decide)⟩
  deferred hx := absurd hx (lt_irrefl 0)
  phase := backed_noLock rfl rfl rfl

/-- **A step keeps the invariant**, if no call that gives up a lock fails and no open, and a
read-lock is granted wherever the process has a lock. -/
theorem Inv.step {granted : List Area → FLock → Prop} (hi : s.Inv)
    (hgranted : s.os sharedRange ≠ unlck → granted [sharedRange] rdlck)
    (hstep : Step Faults.none granted s s') : s'.Inv := by
  cases hstep with
  | lock t hopen hpc hcall => exact hi.unixLock hopen hpc hcall
  | unlock t hopen hpc hle hcall => exact hi.unixUnlock hopen hpc hle hcall
  | @done h _ _ hcall hgrant =>
    cases hpc : (s.file h).pc with
    | lockPending t => exact hi.answer_lockPending hpc .done
    | lockShared => exact hi.answer_lockShared hpc .done
    | lockDrop a => exact hi.answer_lockDrop hpc
    | lockWrite t => exact hi.answer_lockWrite hpc .done
    | unlockShared => exact hi.answer_unlockShared hpc
    | unlockBytes t => exact hi.answer_unlockBytes hpc
    | unlockAll => exact hi.answer_unlockAll hpc
    | _ =>
      rw [hpc] at hcall
      cases hcall
  | @fail h _ r hcall hfail hr =>
    cases hpc : (s.file h).pc with
    | lockPending t => exact hi.answer_lockPending hpc r
    | lockShared => exact hi.answer_lockShared hpc r
    | lockWrite t => exact hi.answer_lockWrite hpc r
    | unlockShared =>
      rw [hpc] at hfail
      -- the process still has its lock on the range
      obtain ⟨-, -, hw⟩ := hi.entered hpc rfl
      unfold Within at hw
      rw [hpc] at hw
      obtain ⟨-, ht, hb⟩ := hw
      have hos := hb.locked (LockType.ne_noLock_of_lt ht)
      exact absurd (hgranted hos) (hfail.resolve_left id)
    | _ =>
      rw [hpc] at hfail
      exact False.elim hfail
  | count hpc => exact hi.unixUnlockCount hpc
  | unlockOpen hpc => exact hi.unixUnlockOpen hpc
  | unlockEnd hpc => exact hi.unixUnlockEnd hpc
  | openFile hopen hm => exact hi.unixOpen hopen hm
  | openClose hfail => exact False.elim hfail
  | allocateFail hfail _ => exact False.elim hfail
  | allocateClose hfail _ => exact False.elim hfail
  | allocateRelease hfail _ _ => exact False.elim hfail
  | closeFile hopen hpc hlock hm => exact hi.unixClose hopen hpc hlock hm _

end UnixProc

end SqlCode.SqliteCore
