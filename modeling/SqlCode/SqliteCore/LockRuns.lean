import SqlCode.SqliteCore.LockSafety

/-!
# What the locks exclude

The invariants of the processes, and that the operating system's locks are compatible, hold in
every state that can be reached while no call that gives up a lock fails and no open that has
a descriptor (`UnixWorld.reachable_inv`). From there:

* `locks_exclude` — a handle with EXCLUSIVE is the only one with a lock, in all processes, and
  no two have PENDING, or RESERVED;
* `pending_blocks` — while a handle has PENDING, no other process gets its first SHARED lock;
* `unixCheckReservedLock_spec` — `unixCheckReservedLock` misses no RESERVED lock;
* `asserts_hold` — the assertions of the functions hold;
* `nothing_kept` — a process whose handles have no locks has nothing locked.

An open that fails undoes the deferred closing of descriptors: it gives up the locks of all handles,
and then two processes may have EXCLUSIVE (`locks_lost`).

Two handles may have RESERVED and PENDING at once: a hot journal is rolled back without
RESERVED.
-/

namespace SqlCode.SqliteCore

open Process LockType Area FLock

variable {H : Type} [DecidableEq H]

/-! ### The locks of the operating system -/

theorem FLock.Compatible.symm {l l' : FLock} (h : l.Compatible l') : l'.Compatible l := by
  cases l <;> cases l' <;> exact h

theorem FLock.compatible_unlck (l : FLock) : unlck.Compatible l := by
  cases l <;> trivial

theorem FLock.Compatible.eq_unlck {l : FLock} (h : wrlck.Compatible l) : l = unlck := by
  cases l <;> first | rfl | cases h

namespace UnixProc

variable {s s' : UnixProc H} {h : H}

theorem unixLockEnd_os (t : LockType) (rc : Rc) : (s.unixLockEnd h t rc).os = s.os := by
  unfold unixLockEnd
  split_ifs <;> rfl

theorem unixLockCall_os (t : LockType) : (s.unixLockCall h t).os = s.os := by
  unfold unixLockCall
  split_ifs <;> first | rfl | exact unixLockEnd_os _ _

theorem resume_os (r : Answer) : (s.resume h r).os = s.os := by
  unfold resume
  dsimp only
  cases (s.file h).pc <;> dsimp only <;> (try split_ifs) <;>
    first | rfl | exact unixLockEnd_os _ _ | exact unixLockCall_os _

/-- A step takes no lock that has not been granted. -/
theorem Step.os {faults : Faults} {granted : List Area → FLock → Prop}
    (hstep : Step faults granted s s') (a : Area) :
    s'.os a = s.os a ∨ s'.os a = unlck ∨
      ∃ h areas l, flock (s.file h).pc = some (areas, l) ∧ granted areas l ∧ a ∈ areas ∧
        s'.os a = l := by
  cases hstep with
  -- the code before the first call leaves the locks alone
  | lock _ _ _ _ =>
    left
    unfold unixLock
    dsimp only
    split_ifs <;> first | rfl | rw [unixLockCall_os]
  | unlock _ _ _ _ _ =>
    left
    unfold unixUnlock
    dsimp only
    split_ifs <;> rfl
  -- only here a lock may be new
  | @done h areas l hcall hgrant =>
    rw [answer_eq rfl hcall, resume_os, if_pos rfl]
    by_cases ha : a ∈ areas
    · exact .inr (.inr ⟨h, areas, l, hcall, hgrant, ha, if_pos ha⟩)
    · exact .inl (if_neg ha)
  | @fail h c r hcall _ hr =>
    left
    obtain ⟨areas, l⟩ := c
    rw [answer_eq rfl hcall, resume_os, if_neg hr]
  | count _ =>
    left
    unfold unixUnlockCount
    dsimp only
    split_ifs <;> rfl
  -- the descriptors that wait are closed with the last lock
  | unlockOpen _ =>
    unfold unixUnlockOpen
    dsimp only
    split_ifs
    · exact .inr (.inl rfl)
    · exact .inl rfl
  | unlockEnd _ => exact .inl rfl
  | openFile _ _ => exact .inl rfl
  -- the descriptor of an open that fails is closed
  | openClose _ => exact .inr (.inl rfl)
  | allocateFail _ _ => exact .inl rfl
  | allocateClose _ _ => exact .inr (.inl rfl)
  | allocateRelease _ _ _ =>
    left
    unfold allocateUnixFileRelease releaseOpenCnt releaseLockInfo
    rfl
  | closeFile _ _ _ _ =>
    unfold unixClose releaseOpenCnt releaseLockInfo
    dsimp only
    split_ifs <;> first | exact .inl rfl | exact .inr (.inl rfl)

end UnixProc

namespace UnixWorld

variable {P : Type} [DecidableEq P] {w w' : UnixWorld P H}

omit [DecidableEq H] [DecidableEq P] in
/-- A process with a lock on the shared range is granted a read-lock there. -/
theorem granted_shared (hcompat : ∀ p q, p ≠ q → ∀ a, ((w p).os a).Compatible ((w q).os a))
    {p : P} (hos : (w p).os sharedRange ≠ unlck) : Granted w p [sharedRange] rdlck := by
  intro q hq a ha
  rw [List.mem_singleton.mp ha]
  have hc := hcompat q p hq sharedRange
  revert hc hos
  cases (w q).os sharedRange <;> cases (w p).os sharedRange <;>
    first | exact fun _ _ => trivial | exact fun _ hc => hc | exact fun h => absurd rfl h

/-- **The invariants** of the processes hold, and their locks are compatible. -/
theorem reachable_inv (hw : Reachable Faults.none w) :
    (∀ p, (w p).Inv) ∧ ∀ p q, p ≠ q → ∀ a, ((w p).os a).Compatible ((w q).os a) := by
  refine pairwise_reachable (R := fun s t => ∀ a, (s.os a).Compatible (t.os a)) UnixProc.inv_start
    (fun _ => trivial) (fun _ _ h a => (h a).symm) ?_ hw
  rintro w _ hinv hcompat ⟨hstep⟩
  rename_i p s
  refine ⟨p, s, rfl, (hinv p).step (granted_shared hcompat) hstep, fun q hq a => ?_⟩
  -- the step leaves the lock on `a`, gives it up, or has been granted another one
  rcases hstep.os a with hsame | hun | ⟨h, areas, l, -, hgrant, ha, hl⟩
  · rw [hsame]
    exact hcompat p q hq.symm a
  · rw [hun]
    exact FLock.compatible_unlck _
  · rw [hl]
    exact (hgrant q hq a ha).symm

end UnixWorld

/-! ### What is behind a lock that is held -/

namespace UnixProc

variable {s : UnixProc H} {g h : H}

omit [DecidableEq H]

/-- A handle that has given up its lock is on the way to SHARED or less. -/
theorem Inv.unlockBytes_le (hi : s.Inv) {t : LockType} (hpc : (s.file h).pc = .unlockBytes t) :
    t ≤ sharedLock ∧ (s.file h).locktype ≠ noLock := by
  obtain ⟨-, -, hw⟩ := hi.entered hpc rfl
  unfold Within at hw
  rw [hpc] at hw
  obtain ⟨hlock, hlt, hcase⟩ := hw
  constructor
  · rcases hcase with ⟨rfl, -⟩ | ⟨rfl, -⟩ <;> decide
  · rw [hlock]
    exact LockType.ne_noLock_of_lt hlt

theorem Inv.counted_of_held (hi : s.Inv) (hh : (s.file h).held ≠ noLock) :
    (s.file h).counted := by
  unfold UnixFile.held at hh
  unfold UnixFile.counted
  cases hpc : (s.file h).pc with
  | unlockShared =>
    obtain ⟨-, -, hw⟩ := hi.entered hpc rfl
    unfold Within at hw
    rw [hpc] at hw
    exact decide_eq_true (hw.1.symm ▸ LockType.ne_noLock_of_lt hw.2.1)
  | unlockBytes t => exact decide_eq_true (hi.unlockBytes_le hpc).2
  | _ =>
    rw [hpc] at hh
    first | exact decide_eq_true hh | exact absurd rfl hh

/-- More than a SHARED lock is the lock of the process. -/
theorem Inv.level_of_held (hi : s.Inv) (hh : sharedLock < (s.file h).held) :
    (s.file h).level = (s.file h).held ∧ (s.file h).held = s.pLock.locktype := by
  have heq : (s.file h).level = (s.file h).held := by
    have hno : ¬ sharedLock < noLock := by decide
    unfold UnixFile.held at hh ⊢
    unfold UnixFile.level
    cases hpc : (s.file h).pc <;> rw [hpc] at hh <;>
      first
      | rfl
      | exact absurd hh (lt_irrefl sharedLock)
      | exact absurd hh hno
      | exact absurd hh (not_lt.mpr (hi.unlockBytes_le hpc).1)
  exact ⟨heq, heq.symm.trans (hi.above.eq h (heq.symm ▸ hh))⟩

/-- While a handle has a lock, the operating system's locks are those of the process, up to
a thread that asks for EXCLUSIVE or is about to give up a lock. -/
theorem Inv.cases_held (hi : s.Inv) (hh : (s.file h).held ≠ noLock) :
    Backed s.pLock.locktype s.pLock.cnt s.os ∨
      (s.pLock.locktype ≠ exclusiveLock ∧ s.os sharedRange = rdlck ∧
        s.os pendingByte = wrlck ∧ ReservedOf s.pLock.locktype (s.os reservedByte)) ∨
      ∃ g, (s.file g).held ≤ sharedLock ∧ (s.file g).level = s.pLock.locktype ∧
        s.os sharedRange = rdlck := by
  have hcounted := hi.counted_of_held hh
  have hpos := hi.cnt.pos (h := h) hcounted
  cases hm : s.mutex with
  | none => exact .inl (hi.backed hm)
  | some g =>
    have hw := hi.phase
    rw [hm] at hw
    change Within (s.file g) _ _ _ at hw
    unfold Within at hw
    cases hpc : (s.file g).pc with
    -- outside the critical section
    | idle =>
      rw [hpc] at hw
      exact hw.elim
    | unlockEnd t =>
      rw [hpc] at hw
      exact hw.elim
    | lockPending t =>
      rw [hpc] at hw
      exact .inl hw.2.1
    -- the first SHARED lock is asked for when no handle is counted
    | lockShared =>
      rw [hpc] at hw
      exact absurd hw.2.2.1 hpos.ne'
    | lockDrop a =>
      rw [hpc] at hw
      exact absurd hw.2.2.1 hpos.ne'
    -- a thread that asks for EXCLUSIVE has `PENDING_BYTE` already
    | lockWrite t =>
      rw [hpc] at hw
      rcases hw with ⟨-, ⟨-, -, hb⟩ | ⟨-, -, -, hne, hos, hop, hor⟩⟩
      · exact .inl hb
      · exact .inr (.inl ⟨hne, hos, hop, hor⟩)
    | unlockShared =>
      rw [hpc] at hw
      exact .inl hw.2.2
    | unlockBytes t =>
      rw [hpc] at hw
      rcases hw with ⟨hlock, -, ⟨-, hb⟩ | ⟨rfl, -, hos⟩⟩
      · exact .inl hb
      -- and one that has returned to a read-lock is on the way to SHARED
      · refine .inr (.inr ⟨g, ?_, ?_, hos⟩)
        · unfold UnixFile.held
          rw [hpc]
        · unfold UnixFile.level
          rw [hpc]
          exact hlock
    | unlockCount =>
      rw [hpc] at hw
      rcases hw with ⟨hlock, ⟨-, hb⟩ | ⟨hone, -⟩⟩
      · exact .inl hb
      · -- the thread in the critical section is the only one that is counted
        have hc := hi.cnt
        rw [hone] at hc
        have hg : (s.file g).counted = true := by
          unfold UnixFile.counted
          rw [hpc]
          exact decide_eq_true hlock
        rw [hc.one hcounted hg] at hh
        unfold UnixFile.held at hh
        rw [hpc] at hh
        exact absurd rfl hh
    -- and the whole file is unlocked when no handle is counted any more
    | unlockAll =>
      rw [hpc] at hw
      exact absurd hw.2.1 hpos.ne'
    | unlockOpen =>
      rw [hpc] at hw
      exact .inl hw.2

/-- A handle with a lock has the process lock the shared range. -/
theorem Inv.os_of_held (hi : s.Inv) (hh : (s.file h).held ≠ noLock) :
    s.os sharedRange ≠ unlck := by
  rcases hi.cases_held hh with hb | ⟨-, hos, -⟩ | ⟨g, -, -, hos⟩
  · have hpos := hi.cnt.pos (h := h) (hi.counted_of_held hh)
    exact hb.locked fun hno => hpos.ne' (hb.none_iff.mp hno)
  · rw [hos]
    decide
  · rw [hos]
    decide

/-- Nobody else is about to give up a lock while a handle has more than SHARED. -/
theorem Inv.not_lowering (hi : s.Inv) (hh : sharedLock < (s.file h).held) :
    ¬ ((s.file g).held ≤ sharedLock ∧ (s.file g).level = s.pLock.locktype) := by
  rintro ⟨hle, hl⟩
  obtain ⟨heq, hp⟩ := hi.level_of_held hh
  have hlt : sharedLock < (s.file g).level := by
    rw [hl, ← hp]
    exact hh
  have hgh := hi.above.unique g h hlt (heq.symm ▸ hh)
  rw [hgh] at hle
  exact absurd hh (not_lt.mpr hle)

/-- EXCLUSIVE. -/
theorem Inv.os_of_exclusive (hi : s.Inv) (hh : (s.file h).held = exclusiveLock) :
    s.os sharedRange = wrlck ∧ s.pLock.cnt = 1 := by
  have hlt : sharedLock < (s.file h).held := by
    rw [hh]
    decide
  have hp := (hi.level_of_held hlt).2
  rw [hh] at hp
  rcases hi.cases_held (LockType.ne_noLock_of_lt hlt) with hb | ⟨hne, -⟩ | ⟨g, hle, hl, -⟩
  · exact ⟨by rw [hb.shared, ← hp]; rfl, hb.single hp.symm⟩
  · exact absurd hp.symm hne
  · exact absurd ⟨hle, hl⟩ (hi.not_lowering hlt)

/-- PENDING or EXCLUSIVE. -/
theorem Inv.os_of_pending (hi : s.Inv) (hh : pendingLock ≤ (s.file h).held) :
    s.os pendingByte = wrlck := by
  have hlt : sharedLock < (s.file h).held := lt_of_lt_of_le (by decide) hh
  have hp := (hi.level_of_held hlt).2
  rcases hi.cases_held (LockType.ne_noLock_of_lt hlt) with hb | ⟨-, -, hop, -⟩ | ⟨g, hle, hl, -⟩
  · rw [hb.pending, ← hp]
    revert hh
    cases (s.file h).held <;> decide
  · exact hop
  · exact absurd ⟨hle, hl⟩ (hi.not_lowering hlt)

/-- RESERVED. -/
theorem Inv.os_of_reserved (hi : s.Inv) (hh : (s.file h).held = reservedLock) :
    s.os reservedByte = wrlck := by
  have hlt : sharedLock < (s.file h).held := by
    rw [hh]
    decide
  have hp := (hi.level_of_held hlt).2
  rw [hh] at hp
  rcases hi.cases_held (LockType.ne_noLock_of_lt hlt) with hb | ⟨-, -, -, hor⟩ | ⟨g, hle, hl, -⟩
  · have hor := hb.reserved
    rwa [← hp] at hor
  · rwa [← hp] at hor
  · exact absurd ⟨hle, hl⟩ (hi.not_lowering hlt)

/-- A call locks the shared range with the temporary lock, or in a process that has locked it. -/
theorem Inv.call_sharedRange (hi : s.Inv) {areas : List Area} {l : FLock}
    (hcall : flock (s.file h).pc = some (areas, l)) (ha : sharedRange ∈ areas) :
    l = unlck ∨ s.os pendingByte = rdlck ∨ s.os sharedRange ≠ unlck := by
  cases hpc : (s.file h).pc with
  -- a first reader has the temporary lock on `PENDING_BYTE`
  | lockShared =>
    obtain ⟨-, -, hin⟩ := hi.entered hpc rfl
    unfold Within at hin
    rw [hpc] at hin
    exact .inr (.inl hin.2.2.2.1)
  | lockWrite t =>
    obtain ⟨-, -, hin⟩ := hi.entered hpc rfl
    unfold Within at hin
    rw [hpc] at hin hcall
    rcases hin with ⟨-, ⟨rfl, -⟩ | ⟨-, -, -, -, hos, -⟩⟩
    · -- for RESERVED the call is about another byte
      cases hcall
      cases List.mem_singleton.mp ha
    · rw [hos]
      exact .inr (.inr (by decide))
  | unlockShared =>
    obtain ⟨-, -, hin⟩ := hi.entered hpc rfl
    unfold Within at hin
    rw [hpc] at hin
    exact .inr (.inr (hin.2.2.locked (LockType.ne_noLock_of_lt hin.2.1)))
  | unlockAll =>
    rw [hpc] at hcall
    cases hcall
    exact .inl rfl
  -- the other calls are about the two bytes
  | lockPending t =>
    rw [hpc] at hcall
    cases hcall
    cases List.mem_singleton.mp ha
  | lockDrop a =>
    rw [hpc] at hcall
    cases hcall
    cases List.mem_singleton.mp ha
  | unlockBytes t =>
    rw [hpc] at hcall
    cases hcall
    exact absurd ha (by decide)
  | _ =>
    rw [hpc] at hcall
    cases hcall

end UnixProc

/-! ### Safety -/

namespace UnixWorld

variable {P : Type} [DecidableEq P] {w w' : UnixWorld P H} {p q : P} {g h : H}

/-- **The locks exclude** each other, of any two handles in any processes. -/
theorem locks_exclude (hw : Reachable Faults.none w) (hne : p = q → h ≠ g) :
    (((w p).file h).held = exclusiveLock → ((w q).file g).held = noLock) ∧
    (pendingLock ≤ ((w p).file h).held → ((w q).file g).held < pendingLock) ∧
    (((w p).file h).held = reservedLock → ((w q).file g).held ≠ reservedLock) := by
  obtain ⟨hinv, hcompat⟩ := reachable_inv hw
  have hp := hinv p
  have hq := hinv q
  by_cases hpq : p = q
  · subst hpq
    have hhg := hne rfl
    -- within a process it is the handles that are compared, since its locks are all its own
    have hunique : sharedLock < ((w p).file h).held → ¬ sharedLock < ((w p).file g).held := by
      intro hh hg
      have hlh := (hp.level_of_held hh).1
      have hlg := (hp.level_of_held hg).1
      exact hhg (hp.above.unique h g (hlh.symm ▸ hh) (hlg.symm ▸ hg))
    refine ⟨fun hh => ?_, fun hh => ?_, fun hh hg => ?_⟩
    -- EXCLUSIVE is got with a counter of one
    · by_contra hg
      have hc := hp.cnt
      rw [(hp.os_of_exclusive hh).2] at hc
      have hhc : ((w p).file h).counted := hp.counted_of_held (by rw [hh]; decide)
      exact hhg (hc.one hhc (hp.counted_of_held hg))
    · have hg := hunique (lt_of_lt_of_le (by decide) hh)
      exact lt_of_le_of_lt (not_lt.mp hg) (by decide)
    · exact hunique (by rw [hh]; decide) (by rw [hg]; decide)
  -- between processes each claim is about one of the three bytes
  · refine ⟨fun hh => ?_, fun hh => ?_, fun hh hg => ?_⟩
    · by_contra hg
      have hc := hcompat p q hpq sharedRange
      rw [(hp.os_of_exclusive hh).1] at hc
      exact hq.os_of_held hg hc.eq_unlck
    · by_contra hg
      have hc := hcompat p q hpq pendingByte
      rw [hp.os_of_pending hh, hq.os_of_pending (not_lt.mp hg)] at hc
      exact hc
    · have hc := hcompat p q hpq reservedByte
      rw [hp.os_of_reserved hh, hq.os_of_reserved hg] at hc
      exact hc

/-- A step while another process has `PENDING_BYTE`. -/
theorem step_of_pending (hw : Reachable Faults.none w) (hpq : p ≠ q)
    (hp : (w p).os pendingByte = wrlck) (hq : (w q).os sharedRange = unlck)
    (hstep : Step Faults.none w w') : (w' q).os sharedRange = unlck := by
  obtain ⟨hinv, hcompat⟩ := reachable_inv hw
  obtain ⟨hstep⟩ := hstep
  rename_i r s
  by_cases hr : q = r
  · subst hr
    rw [Function.update_self]
    have hqp := hcompat p q hpq pendingByte
    rw [hp] at hqp
    rcases hstep.os sharedRange with hsame | hun | ⟨h, areas, l, hcall, -, ha, hl⟩
    · rw [hsame]
      exact hq
    · exact hun
    · rcases (hinv q).call_sharedRange hcall ha with hlun | hpending | hos
      · exact hl.trans hlun
      · -- the process would have the temporary lock on the byte that the other has locked
        rw [hpending] at hqp
        cases hqp
      · exact absurd hq hos
  · rw [Function.update_of_ne hr]
    exact hq

/-- **PENDING keeps new readers out.** As long as a handle has PENDING, a process that has not
locked the shared range does not lock it, whatever else all processes do. -/
theorem pending_blocks (hw : Reachable Faults.none w) (hpq : p ≠ q)
    (hh : pendingLock ≤ ((w p).file h).held) (hq : (w q).os sharedRange = unlck)
    (hrun : Relation.ReflTransGen
      (fun w w' => Step Faults.none w w' ∧ pendingLock ≤ ((w' p).file h).held) w w') :
    (w' q).os sharedRange = unlck ∧ ∀ g, ((w' q).file g).held = noLock := by
  have hkeep : Reachable Faults.none w' ∧ pendingLock ≤ ((w' p).file h).held ∧
      (w' q).os sharedRange = unlck := by
    -- along the run the shared range of `q` stays unlocked
    induction hrun with
    | refl => exact ⟨hw, hh, hq⟩
    | tail _ hs ih =>
      obtain ⟨hw, hh, hq⟩ := ih
      have hp := ((reachable_inv hw).1 p).os_of_pending hh
      exact ⟨hw.tail hs.1, hs.2, step_of_pending hw hpq hp hq hs.1⟩
  refine ⟨hkeep.2.2, fun g => ?_⟩
  by_contra hg
  exact ((reachable_inv hkeep.1).1 q).os_of_held hg hkeep.2.2

omit [DecidableEq H] [DecidableEq P] in
/-- A process that has locked `RESERVED_BYTE` has more than a SHARED lock. -/
theorem above_of_reservedByte {s : UnixProc H} (hi : s.Inv) (hr : s.os reservedByte ≠ unlck) :
    sharedLock < s.pLock.locktype := by
  have habove : ∀ t, ReservedOf t (s.os reservedByte) → sharedLock < t := fun t ht => by
    revert ht
    cases t <;> first | exact fun ht => absurd ht hr | exact fun _ => by decide
  cases hm : s.mutex with
  | none => exact habove _ (hi.backed hm).reserved
  | some g =>
    have hin := hi.phase
    rw [hm] at hin
    change Within (s.file g) _ _ _ at hin
    unfold Within at hin
    -- the program points in the order of their declaration
    cases hpc : (s.file g).pc <;> rw [hpc] at hin
    · exact hin.elim
    · exact habove _ hin.2.1.reserved
    · exact absurd hin.2.2.2.2.2 hr
    · exact absurd hin.2.2.2.2.2 hr
    · rcases hin with ⟨-, ⟨-, -, hb⟩ | ⟨-, -, -, -, -, -, hor⟩⟩
      · exact habove _ hb.reserved
      · exact habove _ hor
    · exact hin.2.1
    · exact hin.2.1
    · rcases hin with ⟨-, ⟨-, hb⟩ | ⟨-, -, hor⟩⟩
      · exact habove _ hb.reserved
      · exact absurd hor hr
    · exact absurd hin.2.2 hr
    · exact habove _ hin.2.reserved
    · exact hin.elim

/-- **`unixCheckReservedLock`** finds every RESERVED lock, whatever `F_GETLK` answers. If that
does not fail, and something is found, then a handle has more than a SHARED lock, which it may
be about to give up. -/
theorem unixCheckReservedLock_spec (hw : Reachable Faults.none w) (p : P) :
    ((∃ q h, ((w q).file h).held = reservedLock) → ∀ r, w.unixCheckReservedLock p r) ∧
    (w.unixCheckReservedLock p .done → ∃ q h, sharedLock < ((w q).file h).level) := by
  obtain ⟨hinv, -⟩ := reachable_inv hw
  constructor
  · rintro ⟨q, h, hh⟩ r
    by_cases hqp : q = p
    · subst hqp
      left
      rw [← ((hinv q).level_of_held (by rw [hh]; decide)).2, hh]
      decide
    · refine .inr (.inr ⟨q, hqp, ?_⟩)
      rw [(hinv q).os_of_reserved hh]
      exact id
  · have howner : ∀ q, sharedLock < (w q).pLock.locktype →
        ∃ q h, sharedLock < ((w q).file h).level := fun q hq => by
      obtain ⟨h, hl⟩ := (hinv q).above.owner hq
      exact ⟨q, h, hl.symm ▸ hq⟩
    rintro (hl | hr | ⟨q, -, hr⟩)
    · exact howner p hl
    · exact absurd rfl hr
    · refine howner q (above_of_reservedByte (hinv q) fun hun => hr ?_)
      rw [hun]
      trivial

/-- The assertions of `unixLock` and `unixUnlock` in a state, without those that are about
their callers. -/
structure Asserts (s : UnixProc H) : Prop where
  /-- Before a handle is counted as a further reader. -/
  lock_count : ∀ h, s.mutex = none → ¬ sharedLock ≤ (s.file h).locktype →
    s.pLock.locktype = sharedLock ∨ s.pLock.locktype = reservedLock →
      (s.file h).locktype = noLock ∧ 0 < s.pLock.cnt
  /-- Before the read-lock. -/
  lock_shared : ∀ h, (s.file h).pc = .lockShared → s.pLock.cnt = 0 ∧ s.pLock.locktype = noLock
  /-- Before a write-lock. -/
  lock_write : ∀ h t, (s.file h).pc = .lockWrite t →
    (s.file h).locktype ≠ noLock ∧ (t = reservedLock ∨ t = exclusiveLock)
  /-- At the beginning of `unixUnlock`. -/
  unlock : ∀ h t, (s.file h).pc = .idle → s.mutex = none → ¬ (s.file h).locktype ≤ t →
    s.pLock.cnt ≠ 0 ∧
      (sharedLock < (s.file h).locktype → s.pLock.locktype = (s.file h).locktype)
  /-- At its end. -/
  unlock_open : ∀ h, (s.file h).pc = .unlockOpen → 0 ≤ s.pOpen.nLock - 1

/-- **The assertions hold.** -/
theorem asserts_hold (hw : Reachable Faults.none w) (p : P) : Asserts (w p) := by
  have hi := (reachable_inv hw).1 p
  constructor
  · intro h hm hlow hl
    refine ⟨LockType.eq_noLock hlow, ?_⟩
    have hb := hi.backed hm
    -- a lock of the process has a positive counter
    have hnonneg := hi.cnt.nonneg
    have hne := hb.cnt_ne_zero fun hno => by
      rw [hno] at hl
      exact absurd hl (by decide)
    omega
  -- before a call the invariant of the critical section says what is asserted
  · intro h hpc
    obtain ⟨-, -, hin⟩ := hi.entered hpc rfl
    unfold Within at hin
    rw [hpc] at hin
    exact ⟨hin.2.2.1, hin.2.1⟩
  · intro h t hpc
    obtain ⟨-, -, hin⟩ := hi.entered hpc rfl
    unfold Within at hin
    rw [hpc] at hin
    obtain ⟨hlock, ⟨rfl, hl, -⟩ | ⟨rfl, -, hno, -⟩⟩ := hin
    · exact ⟨by rw [hlock, hl]; decide, .inl rfl⟩
    · exact ⟨hlock.symm ▸ hno, .inr rfl⟩
  · intro h t hpc hm hlow
    obtain ⟨hc, -, hl⟩ := UnixFile.of_plain (f := (w p).file h) (by rw [hpc]; rfl)
    have hno : ((w p).file h).locktype ≠ noLock := fun hno => by
      rw [hno] at hlow
      exact hlow (LockType.noLock_le t)
    -- a handle with a lock is counted, so the counter is positive
    have hcounted : ((w p).file h).counted = true := by
      rw [hc]
      exact decide_eq_true hno
    refine ⟨(hi.cnt.pos (h := h) hcounted).ne', fun hlt => ?_⟩
    exact ((hi.above.eq h (hl.symm ▸ hlt)).symm.trans hl)
  · intro h hpc
    obtain ⟨-, -, hin⟩ := hi.entered hpc rfl
    unfold Within at hin
    rw [hpc] at hin
    have hout : ((w p).file h).outstanding = true := by
      unfold UnixFile.outstanding
      rw [hpc]
      exact decide_eq_true hin.1
    have hpos := hi.nLock.pos (h := h) hout
    omega

/-- **Nothing is kept.** A process in which no call is in progress and no handle has a lock has
locked nothing, and no descriptor waits to be closed. -/
theorem nothing_kept (hw : Reachable Faults.none w)
    (hidle : ∀ h, ((w p).file h).pc = .idle ∧ ((w p).file h).locktype = noLock) :
    (∀ a, (w p).os a = unlck) ∧ (w p).pLock.locktype = noLock ∧ (w p).pLock.cnt = 0 ∧
      (w p).pOpen.nLock = 0 ∧ (w p).pOpen.nPending = 0 := by
  have hi := (reachable_inv hw).1 p
  -- a thread in the critical section would have a call in progress
  have hm : (w p).mutex = none := by
    by_contra hne
    obtain ⟨h, hm⟩ := Option.ne_none_iff_exists'.mp hne
    have hin := hi.phase
    rw [hm] at hin
    change Within ((w p).file h) _ _ _ at hin
    unfold Within at hin
    rw [(hidle h).1] at hin
    exact hin
  obtain ⟨hcnt, hnLock⟩ := hi.counters_zero fun h => by
    simp [UnixFile.outstanding, hidle h]
  have hb := hi.backed hm
  have hl := hb.none_iff.mpr hcnt
  have hdeferred := hi.deferred
  rw [hl, hcnt] at hb
  refine ⟨fun a => ?_, hl, hcnt, hnLock, by omega⟩
  cases a with
  | pendingByte => exact hb.pending
  | reservedByte => exact hb.reserved
  | sharedRange => exact hb.shared

/-! ### Runs -/

/-- A process to which nobody is in the way takes a step. -/
theorem Reachable.alone {faults : Faults} {s s' : UnixProc H}
    (h : Reachable faults (Function.update w p s)) (hfree : ∀ q ≠ p, ∀ a, (w q).os a = unlck)
    (hstep : UnixProc.Step faults (fun _ _ => True) s s') :
    Reachable faults (Function.update w p s') := by
  have hgranted : Granted (Function.update w p s) p = fun _ _ => True := by
    funext areas l
    refine eq_true fun q hq a _ => ?_
    rw [Function.update_of_ne hq, hfree q hq a]
    exact FLock.compatible_unlck l
  have hself : Function.update w p s p = s := Function.update_self ..
  have hnext : Step faults (Function.update w p s)
      (Function.update (Function.update w p s) p s') :=
    .proc (by rw [hgranted, hself]; exact hstep)
  rw [Function.update_idem] at hnext
  exact h.tail hnext

open UnixProc in
/-- A handle that is opened gets SHARED and then EXCLUSIVE, if no other process has a lock. -/
theorem reachable_exclusive {faults : Faults} {w : UnixWorld P Unit} (hw : Reachable faults w)
    (hstart : w p = UnixProc.start Unit) (hfree : ∀ q ≠ p, ∀ a, (w q).os a = unlck) :
    ∃ s : UnixProc Unit, (s.file ()).held = exclusiveLock ∧ s.pLock.locktype = exclusiveLock ∧
      Reachable faults (Function.update w p s) := by
  have h0 : Reachable faults (Function.update w p (UnixProc.start Unit)) := by
    rw [← hstart, Function.update_eq_self]
    exact hw
  have h1 := h0.alone hfree (UnixProc.Step.openFile (h := ()) rfl rfl)
  have h2 := h1.alone hfree (UnixProc.Step.lock (h := ()) sharedLock rfl rfl
    (.inr ⟨⟨.inr rfl, by decide, nofun⟩, rfl⟩))
  have h3 := h2.alone hfree (UnixProc.Step.done (h := ()) rfl trivial)
  have h4 := h3.alone hfree (UnixProc.Step.done (h := ()) rfl trivial)
  have h5 := h4.alone hfree (UnixProc.Step.done (h := ()) rfl trivial)
  have h6 := h5.alone hfree (UnixProc.Step.lock (h := ()) exclusiveLock rfl rfl
    (.inr ⟨⟨.inl (by decide), by decide, nofun⟩, rfl⟩))
  have h7 := h6.alone hfree (UnixProc.Step.done (h := ()) rfl trivial)
  have h8 := h7.alone hfree (UnixProc.Step.done (h := ()) rfl trivial)
  exact ⟨_, rfl, rfl, h8⟩

/-- One of two processes has EXCLUSIVE, and the other has done nothing. -/
theorem reachable_exclusive_true (faults : Faults) : ∃ s : UnixProc Unit,
    (s.file ()).held = exclusiveLock ∧ s.pLock.locktype = exclusiveLock ∧
      Reachable faults (Function.update (fun _ : Bool => UnixProc.start Unit) true s) :=
  reachable_exclusive .refl rfl fun _ _ _ => rfl

/-- The handle of the other process has no lock. -/
theorem locks_exclude_run : ∃ w : UnixWorld Bool Unit, Reachable Faults.none w ∧
    ((w true).file ()).held = exclusiveLock ∧ ((w false).file ()).held = noLock := by
  obtain ⟨s, hs, -, hw⟩ := reachable_exclusive_true .none
  have hheld : ((Function.update (fun _ : Bool => UnixProc.start Unit) true s true).file ()).held =
      exclusiveLock := by
    rw [Function.update_self]
    exact hs
  exact ⟨_, hw, hheld, (locks_exclude hw (by decide)).1 hheld⟩

/-- An open that fails in the process with EXCLUSIVE lets the other process get it, too. -/
theorem locks_lost : ∃ w : UnixWorld Bool Unit, Reachable ⟨False, True⟩ w ∧
    ((w true).file ()).held = exclusiveLock ∧ ((w false).file ()).held = exclusiveLock := by
  obtain ⟨s, hs, -, hw⟩ := reachable_exclusive_true ⟨False, True⟩
  have hlost := hw.alone (fun _ _ _ => rfl) (UnixProc.Step.openClose trivial)
  obtain ⟨t, ht, -, hw'⟩ := reachable_exclusive (p := false) hlost rfl fun q hq a => by
    rw [Bool.eq_true_of_not_eq_false hq, Function.update_self]
    rfl
  refine ⟨_, hw', ?_, ?_⟩
  · rw [Function.update_of_ne (by decide), Function.update_self]
    exact hs
  · rw [Function.update_self]
    exact ht

/-- The other process has not locked the shared range. -/
theorem pending_blocks_run : ∃ w : UnixWorld Bool Unit, Reachable Faults.none w ∧
    ((w true).file ()).held = exclusiveLock ∧ (w false).os sharedRange = unlck := by
  obtain ⟨s, hs, -, hw⟩ := reachable_exclusive_true .none
  have hheld : ((Function.update (fun _ : Bool => UnixProc.start Unit) true s true).file ()).held =
      exclusiveLock := by
    rw [Function.update_self]
    exact hs
  exact ⟨_, hw, hheld, (pending_blocks (h := ()) hw (show true ≠ false by decide)
    (by rw [hheld]; decide) rfl .refl).1⟩

/-- The assertions hold there. -/
theorem asserts_hold_run : ∃ w : UnixWorld Bool Unit, Reachable Faults.none w ∧ Asserts (w true) := by
  obtain ⟨s, -, -, hw⟩ := reachable_exclusive_true .none
  exact ⟨_, hw, asserts_hold hw true⟩

/-- When the lock is found, a handle has it. -/
theorem unixCheckReservedLock_run : ∃ w : UnixWorld Bool Unit, Reachable Faults.none w ∧
    ∃ q h, sharedLock < ((w q).file h).level := by
  obtain ⟨s, -, hs, hw⟩ := reachable_exclusive_true .none
  refine ⟨_, hw, (unixCheckReservedLock_spec hw true).2 (.inl ?_)⟩
  rw [Function.update_self, hs]
  decide

/-- The other process has locked nothing. -/
theorem nothing_kept_run : ∃ w : UnixWorld Bool Unit, Reachable Faults.none w ∧
    ∀ a, (w false).os a = unlck := by
  obtain ⟨s, -, -, hw⟩ := reachable_exclusive_true .none
  exact ⟨_, hw, (nothing_kept hw fun _ => ⟨rfl, rfl⟩).1⟩

end UnixWorld

end SqlCode.SqliteCore
