import SqlCode.StrictTyping.Install
import Mathlib.Data.List.Pairwise

/-!
# Dropping what was added

`drop_strict_type_check` with `'*'` goes through the same columns as `add_strict_type_check`. A
column that has both of its triggers loses them, and for one that has neither the drop fails
and nothing changes (`uninstall_catalog`). Both loops go on after an error, so a run of the
second one takes away exactly the names of the columns (`uninstallAll_catalog`). It returns unless
one of its failures is fatal, that is, unless a column has no validator and the store behind the
buffer ends the process (`uninstallAll_returns_iff`).

If none of the names was there before the first loop, the second one takes everything back. But
the statement that drops ends in an error for each column without triggers, and where that is
rolled back while the one that added was not, the triggers stay (`drop_undoes_add_iff`).
-/

namespace SqlCode.StrictTyping

open Text

variable {E : Sqlite} {cat : Catalog} {p q : Target} {st st' : State}

/-- The column has both of its triggers or neither. -/
def Paired (cat : Catalog) (p : Target) : Prop :=
  key .insert p ∈ cat ↔ key .update p ∈ cat

theorem Paired.all (hp : Paired cat p) (h : key .insert p ∈ cat) (k : Kind) : key k p ∈ cat := by
  cases k with
  | insert => exact h
  | update => exact hp.mp h

/-! ### One column -/

/-- A column with both triggers loses them. -/
theorem uninstall_present (h : ∀ k, key k p ∈ st.catalog) : uninstallTypeTrigger E p st =
    some (0, { st with catalog := (st.catalog.erase (key .insert p)).erase (key .update p) }) := by
  have hupd : key .update p ∈ st.catalog.erase (key .insert p) :=
    Finset.mem_erase.mpr ⟨(key_insert_ne_update p).symm, h .update⟩
  unfold uninstallTypeTrigger dropTrigger
  rw [if_pos (h .insert)]
  dsimp only
  rw [if_pos hupd]
  rfl

/-- For a column without the first trigger the drop fails. -/
theorem uninstall_absent (h : key .insert p ∉ st.catalog) : uninstallTypeTrigger E p st =
    triggerFailed E (noSuchMsg (triggerName .insert p)) st := by
  unfold uninstallTypeTrigger dropTrigger
  rw [if_neg h]

/-- **What a column loses**: its own names, and nothing else. -/
theorem uninstall_catalog {rc : ℤ} (hp : Paired st.catalog p)
    (h : uninstallTypeTrigger E p st = some (rc, st')) (x : List Byte) :
    x ∈ st'.catalog ↔ x ∈ st.catalog ∧ ∀ k, x ≠ key k p := by
  by_cases hins : key .insert p ∈ st.catalog
  · rw [uninstall_present (hp.all hins)] at h
    obtain ⟨-, rfl⟩ := Prod.mk.inj (Option.some.inj h)
    simp only [Finset.mem_erase]
    constructor
    · rintro ⟨hupd, hins, hx⟩
      exact ⟨hx, fun k => by cases k <;> assumption⟩
    · rintro ⟨hx, hne⟩
      exact ⟨hne .update, hne .insert, hx⟩
  · -- nothing to lose
    have hcat : st'.catalog = st.catalog := by
      rw [uninstall_absent hins, triggerFailed] at h
      split_ifs at h
      obtain ⟨-, rfl⟩ := Prod.mk.inj (Option.some.inj h)
      rfl
    rw [hcat]
    refine (and_iff_left_of_imp fun hx k => ?_).symm
    rintro rfl
    cases k with
    | insert => exact hins hx
    | update => exact hins (hp.mpr hx)

/-- A column that misses its triggers leaves an error. -/
theorem uninstall_error {rc : ℤ} (hp : Paired st.catalog p)
    (h : uninstallTypeTrigger E p st = some (rc, st')) :
    st'.ctx.isError = true ↔ st.ctx.isError = true ∨ key .insert p ∉ st.catalog := by
  by_cases hins : key .insert p ∈ st.catalog
  · rw [uninstall_present (hp.all hins)] at h
    obtain ⟨-, rfl⟩ := Prod.mk.inj (Option.some.inj h)
    exact (or_iff_left (not_not_intro hins)).symm
  · rw [uninstall_absent hins, triggerFailed] at h
    split_ifs at h
    obtain ⟨-, rfl⟩ := Prod.mk.inj (Option.some.inj h)
    exact iff_of_true rfl (.inr hins)

/-- A failure is the end of the process if the store is fatal. -/
theorem uninstall_crashes (hfatal : E.fatalStore = true) (h : key .insert p ∉ st.catalog) :
    uninstallTypeTrigger E p st = none := by
  rw [uninstall_absent h, triggerFailed_fatal hfatal]

/-- Otherwise the drop returns. -/
theorem uninstall_returns (hp : Paired st.catalog p)
    (h : E.fatalStore = true → key .insert p ∈ st.catalog) :
    ∃ r, uninstallTypeTrigger E p st = some r := by
  by_cases hins : key .insert p ∈ st.catalog
  · exact ⟨_, uninstall_present (hp.all hins)⟩
  · rw [uninstall_absent hins, triggerFailed_harmless fun hfatal => hins (h hfatal)]
    exact ⟨_, rfl⟩

/-! ### All columns of a table -/

variable (E) in
/-- The columns one after the other, as the loop for `'*'` does it. -/
def uninstallAll (ps : List Target) (st : State) : Option State :=
  ps.foldlM (fun st p => (uninstallTypeTrigger E p st).map Prod.snd) st

variable {ps : List Target}

/-- What a column has does not depend on one that is apart from it. -/
theorem key_mem_of_uninstall {rc : ℤ} (hp : Paired st.catalog p) (hpq : Apart p q)
    (h : uninstallTypeTrigger E p st = some (rc, st')) (k : Kind) :
    key k q ∈ st'.catalog ↔ key k q ∈ st.catalog := by
  rw [uninstall_catalog hp h]
  exact and_iff_left fun l => (hpq l k).symm

/-- A column leaves the others paired. -/
theorem paired_of_uninstall {rc : ℤ} (hp : ∀ p ∈ q :: ps, Paired st.catalog p)
    (hq : ∀ p ∈ ps, Apart q p) (h : uninstallTypeTrigger E q st = some (rc, st')) :
    ∀ p ∈ ps, Paired st'.catalog p := by
  intro p hmem
  have hpq := hp q List.mem_cons_self
  calc key .insert p ∈ st'.catalog
    _ ↔ key .insert p ∈ st.catalog := key_mem_of_uninstall hpq (hq p hmem) h .insert
    _ ↔ key .update p ∈ st.catalog := hp p (List.mem_cons_of_mem _ hmem)
    _ ↔ key .update p ∈ st'.catalog := (key_mem_of_uninstall hpq (hq p hmem) h .update).symm

/-- **What the loop takes away**: the names of its columns. -/
theorem uninstallAll_catalog (hapart : ps.Pairwise Apart) (hp : ∀ p ∈ ps, Paired st.catalog p)
    (h : uninstallAll E ps st = some st') (x : List Byte) :
    x ∈ st'.catalog ↔ x ∈ st.catalog ∧ ∀ p ∈ ps, ∀ k, x ≠ key k p := by
  induction ps generalizing st with
  | nil =>
    obtain rfl := Option.some.inj h
    simp
  | cons q ps ih =>
    obtain ⟨hq, hps⟩ := List.pairwise_cons.mp hapart
    unfold uninstallAll at h
    rw [List.foldlM_cons] at h
    obtain ⟨st₁, hst₁, hrest⟩ := Option.bind_eq_some_iff.mp h
    obtain ⟨⟨rc, _⟩, hrun, rfl⟩ := Option.map_eq_some_iff.mp hst₁
    rw [ih hps (paired_of_uninstall hp hq hrun) hrest,
      uninstall_catalog (hp q List.mem_cons_self) hrun, List.forall_mem_cons, and_assoc]

/-- The loop leaves an error if some of its columns misses its triggers. -/
theorem uninstallAll_error (hapart : ps.Pairwise Apart) (hp : ∀ p ∈ ps, Paired st.catalog p)
    (h : uninstallAll E ps st = some st') :
    st'.ctx.isError = true ↔ st.ctx.isError = true ∨ ∃ p ∈ ps, key .insert p ∉ st.catalog := by
  induction ps generalizing st with
  | nil =>
    obtain rfl := Option.some.inj h
    simp
  | cons q ps ih =>
    obtain ⟨hq, hps⟩ := List.pairwise_cons.mp hapart
    have hpq := hp q List.mem_cons_self
    unfold uninstallAll at h
    rw [List.foldlM_cons] at h
    obtain ⟨st₁, hst₁, hrest⟩ := Option.bind_eq_some_iff.mp h
    obtain ⟨⟨rc, _⟩, hrun, rfl⟩ := Option.map_eq_some_iff.mp hst₁
    rw [ih hps (paired_of_uninstall hp hq hrun) hrest, uninstall_error hpq hrun,
      List.exists_mem_cons_iff, or_assoc]
    -- the others have what they had
    refine or_congr_right (or_congr_right (exists_congr fun p => and_congr_right fun hmem => ?_))
    exact not_congr (key_mem_of_uninstall hpq (hq p hmem) hrun .insert)

/-- **When the loop returns**: failures are harmless, or there are none. -/
theorem uninstallAll_returns_iff (hapart : ps.Pairwise Apart)
    (hp : ∀ p ∈ ps, Paired st.catalog p) :
    (∃ st', uninstallAll E ps st = some st') ↔
      (E.fatalStore = true → ∀ p ∈ ps, key .insert p ∈ st.catalog) := by
  induction ps generalizing st with
  | nil => exact iff_of_true ⟨st, rfl⟩ (by simp)
  | cons q ps ih =>
    obtain ⟨hq, hps⟩ := List.pairwise_cons.mp hapart
    have hpq := hp q List.mem_cons_self
    unfold uninstallAll
    rw [List.foldlM_cons, List.forall_mem_cons]
    by_cases hcrash : E.fatalStore = true ∧ key .insert q ∉ st.catalog
    · rw [uninstall_crashes hcrash.1 hcrash.2]
      exact iff_of_false (by simp) fun h => hcrash.2 (h hcrash.1).1
    · have hone : E.fatalStore = true → key .insert q ∈ st.catalog :=
        fun hfatal => not_not.mp fun hins => hcrash ⟨hfatal, hins⟩
      obtain ⟨⟨rc, st₁⟩, hrun⟩ := uninstall_returns hpq hone
      rw [hrun]
      -- the others have what they had
      refine (ih hps (paired_of_uninstall hp hq hrun)).trans (imp_congr_right fun hfatal => ?_)
      rw [and_iff_right (hone hfatal)]
      exact forall_congr' fun p => imp_congr_right fun hmem =>
        key_mem_of_uninstall hpq (hq p hmem) hrun .insert

variable {table : List Byte}

/-- **What a call for `'*'` takes away**: the names of the columns that it goes through. -/
theorem drop_catalog (hp : ∀ p ∈ processed E table [star], Paired cat p)
    (h : dropStrictTypeCheck E table [star] cat = some st') (x : List Byte) :
    x ∈ st'.catalog ↔ x ∈ cat ∧ ∀ p ∈ processed E table [star], ∀ k, x ≠ key k p := by
  obtain ⟨st₀, rfl, -, hcall⟩ := @udf_star E cat table [star] (uninstallTypeTrigger E) rfl
  rw [dropStrictTypeCheck, hcall] at h
  obtain ⟨st₁, hst₁, rfl⟩ := Option.map_eq_some_iff.mp h
  exact uninstallAll_catalog processed_apart hp hst₁ x

/-- When a call for `'*'` ends in an error. -/
theorem drop_error (hp : ∀ p ∈ processed E table [star], Paired cat p)
    (h : dropStrictTypeCheck E table [star] cat = some st') :
    st'.ctx.isError = true ↔
      ¬ Listed E table [star] ∨ ∃ p ∈ processed E table [star], key .insert p ∉ cat := by
  obtain ⟨st₀, rfl, herr, hcall⟩ := @udf_star E cat table [star] (uninstallTypeTrigger E) rfl
  rw [dropStrictTypeCheck, hcall] at h
  obtain ⟨st₁, hst₁, rfl⟩ := Option.map_eq_some_iff.mp h
  have hloop : uninstallAll E (processed E table [star]) st₀ = some st₁ := hst₁
  change st₁.ctx.isError = true ↔ _
  rw [← herr, uninstallAll_error processed_apart hp hloop]

/-- When a call for `'*'` returns. -/
theorem drop_returns_iff (hp : ∀ p ∈ processed E table [star], Paired cat p) :
    (∃ st', dropStrictTypeCheck E table [star] cat = some st') ↔
      (E.fatalStore = true → ∀ p ∈ processed E table [star], key .insert p ∈ cat) := by
  obtain ⟨st₀, rfl, -, hcall⟩ := @udf_star E cat table [star] (uninstallTypeTrigger E) rfl
  rw [dropStrictTypeCheck, hcall, ← uninstallAll_returns_iff processed_apart hp]
  constructor
  · rintro ⟨_, h⟩
    obtain ⟨st₁, hst₁, -⟩ := Option.map_eq_some_iff.mp h
    exact ⟨st₁, hst₁⟩
  · rintro ⟨st₁, hst₁⟩
    exact ⟨_, Option.map_eq_some_iff.mpr ⟨st₁, hst₁, rfl⟩⟩

/-! ### Adding and dropping -/

/-- Two different columns that the function goes through are apart, in either order. -/
theorem apart_of_ne {column : List Byte} (hp : p ∈ processed E table column)
    (hq : q ∈ processed E table column) (hpq : p ≠ q) : Apart p q := by
  have hsymm : Std.Symm Apart := ⟨fun p q h k l => (h l k).symm⟩
  exact processed_apart.forall hp hq hpq

/-- After an addition to a catalog without the names, the columns with a validator have both
triggers and the others have neither. -/
theorem key_mem_iff_checkable (hfree : ∀ p ∈ processed E table [star], ∀ k, key k p ∉ cat)
    (hst : ∀ x, x ∈ st.catalog ↔
      x ∈ cat ∨ ∃ p ∈ processed E table [star], Adds E cat p ∧ ∃ k, x = key k p)
    (hp : p ∈ processed E table [star]) (k : Kind) :
    key k p ∈ st.catalog ↔ checkable E p = true := by
  rw [hst]
  constructor
  · rintro (h | ⟨q, hq, hadds, l, hkey⟩)
    · exact absurd h (hfree p hp k)
    · -- only the column itself has its names
      by_cases hpq : p = q
      · rw [hpq]
        exact hadds.1
      · exact absurd hkey (apart_of_ne hp hq hpq k l)
  · exact fun h => .inr ⟨p, hp, ⟨h, hfree p hp .insert⟩, k, rfl⟩

/-- Nothing crashes as long as no name is taken. -/
theorem free_runs (hdecl : ∀ p ∈ processed E table [star], E.declType p ≠ some none)
    (hfree : ∀ p ∈ processed E table [star], ∀ k, key k p ∉ cat) :
    ∀ p ∈ processed E table [star], ¬ Crashes E cat p := by
  rintro p hp (h | ⟨-, -, h | h⟩)
  · exact hdecl p hp h
  · exact hfree p hp .insert h
  · exact hfree p hp .update h

/-- Columns that cannot be listed are none. -/
theorem processed_of_not_listed {column : List Byte} (h : ¬ Listed E table column) :
    processed E table column = [] := by
  unfold Listed at h
  rw [Classical.not_imp] at h
  obtain ⟨hstar, hno⟩ := h
  unfold processed
  rw [if_pos hstar]
  cases hinfo : E.tableInfo table with
  | error err => rfl
  | ok rows => exact absurd ⟨rows, hinfo⟩ hno

/-- **A statement that drops**, from a catalog that is `cat` without the names of the columns: it
gets there unless it crashes, or its own error rolls it back. -/
theorem selectDrop_iff {db : Connection} {cat₁ : Catalog}
    (hp : ∀ p ∈ processed E table [star], Paired cat₁ p)
    (hwithout : ∀ x, x ∈ cat ↔ x ∈ cat₁ ∧ ∀ p ∈ processed E table [star], ∀ k, x ≠ key k p) :
    (∃ st', selectDrop E db table [star] cat₁ = some st' ∧ st'.catalog = cat) ↔
      (E.fatalStore = true → ∀ p ∈ processed E table [star], key .insert p ∈ cat₁) ∧
        (db.ownTransaction = true →
          (¬ Listed E table [star] ∨ ∃ p ∈ processed E table [star], key .insert p ∉ cat₁) →
            cat₁ = cat) := by
  rw [← drop_returns_iff hp]
  unfold selectDrop
  cases hdrop : dropStrictTypeCheck E table [star] cat₁ with
  | none => simp
  | some st' =>
    have hcat : st'.catalog = cat := by
      ext x
      rw [drop_catalog hp hdrop, hwithout]
    have hreturns : ∃ st₁, some st' = some st₁ := ⟨st', rfl⟩
    rw [Option.map_some, and_iff_right hreturns]
    simp only [Option.some.injEq, exists_eq_left']
    by_cases hroll : db.ownTransaction = true ∧ st'.ctx.isError = true
    · rw [vdbeHalt_own hroll]
      exact ⟨fun h _ _ => h, fun h => h hroll.1 ((drop_error hp hdrop).mp hroll.2)⟩
    · rw [vdbeHalt_other hroll]
      exact iff_of_true hcat fun hown herr =>
        absurd ⟨hown, (drop_error hp hdrop).mpr herr⟩ hroll

/-- The drop after an addition that was rolled back: the columns have nothing to lose. -/
theorem selectDrop_free_iff {db : Connection}
    (hfree : ∀ p ∈ processed E table [star], ∀ k, key k p ∉ cat) :
    (∃ st', selectDrop E db table [star] cat = some st' ∧ st'.catalog = cat) ↔
      (E.fatalStore = true → processed E table [star] = []) := by
  have hpaired : ∀ p ∈ processed E table [star], Paired cat p := fun p hp =>
    iff_of_false (hfree p hp .insert) (hfree p hp .update)
  have hwithout : ∀ x, x ∈ cat ↔ x ∈ cat ∧ ∀ p ∈ processed E table [star], ∀ k, x ≠ key k p :=
    fun x => ⟨fun hx => ⟨hx, fun p hp k hk => hfree p hp k (hk ▸ hx)⟩, And.left⟩
  rw [selectDrop_iff hpaired hwithout, and_iff_left fun _ _ => rfl, List.eq_nil_iff_forall_not_mem]
  refine imp_congr_right fun _ => forall_congr' fun p => ?_
  exact imp_congr_right fun hp => iff_false_intro (hfree p hp .insert)

/-- The drop after an addition that was kept: the columns with a validator have both triggers, and
each of the others is an error. -/
theorem selectDrop_added_iff {db : Connection}
    (hfree : ∀ p ∈ processed E table [star], ∀ k, key k p ∉ cat)
    (hcat : ∀ x, x ∈ st.catalog ↔
      x ∈ cat ∨ ∃ p ∈ processed E table [star], Adds E cat p ∧ ∃ k, x = key k p) :
    (∃ st', selectDrop E db table [star] st.catalog = some st' ∧ st'.catalog = cat) ↔
      (∀ p ∈ processed E table [star], checkable E p = true) ∨
        E.fatalStore = false ∧ (db.ownTransaction = true →
          ∀ p ∈ processed E table [star], checkable E p = false) := by
  have hkeys {p : Target} (hp : p ∈ processed E table [star]) (k : Kind) :=
    key_mem_iff_checkable hfree hcat hp k
  have hpaired : ∀ p ∈ processed E table [star], Paired st.catalog p := fun p hp =>
    (hkeys hp .insert).trans (hkeys hp .update).symm
  have hwithout : ∀ x, x ∈ cat ↔
      x ∈ st.catalog ∧ ∀ p ∈ processed E table [star], ∀ k, x ≠ key k p := by
    intro x
    rw [hcat]
    constructor
    · refine fun hx => ⟨.inl hx, fun p hp k => ?_⟩
      rintro rfl
      exact hfree p hp k hx
    · rintro ⟨hx | ⟨p, hp, -, k, rfl⟩, hne⟩
      · exact hx
      · exact absurd rfl (hne p hp k)
  -- what the drop asks of the catalog, in terms of the validators
  have hall : (∀ p ∈ processed E table [star], key .insert p ∈ st.catalog) ↔
      ∀ p ∈ processed E table [star], checkable E p = true :=
    forall_congr' fun p => imp_congr_right fun hp => hkeys hp .insert
  have hmiss : (∃ p ∈ processed E table [star], key .insert p ∉ st.catalog) ↔
      ¬ ∀ p ∈ processed E table [star], checkable E p = true := by
    rw [← hall]
    push Not
    exact Iff.rfl
  have hsame : st.catalog = cat ↔ ∀ p ∈ processed E table [star], checkable E p = false := by
    rw [catalog_eq_iff hcat]
    refine forall_congr' fun p => imp_congr_right fun hp => ?_
    rw [Adds, and_iff_left (hfree p hp .insert), Bool.not_eq_true]
  rw [selectDrop_iff hpaired hwithout, hmiss, hsame, hall]
  by_cases hvalid : ∀ p ∈ processed E table [star], checkable E p = true
  · refine iff_of_true ⟨fun _ => hvalid, fun _ hor => ?_⟩ (.inl hvalid)
    rw [processed_of_not_listed (hor.resolve_right (not_not_intro hvalid))]
    exact fun p hp => absurd hp List.not_mem_nil
  · simp [hvalid]

/-- The catalog after adding and dropping is the one before. The first statement is made on the
connection `db`, the second one on `db'`. -/
def Undone (E : Sqlite) (db db' : Connection) (table : List Byte) (cat : Catalog) : Prop :=
  ∃ st, selectAdd E db table [star] cat = some st ∧
    ∃ st', selectDrop E db' table [star] st.catalog = some st' ∧ st'.catalog = cat

/-- **When dropping undoes adding.** For a table whose columns that are not flagged primary key have
no trigger in the catalog, and a type if they can be selected: if each of them has a validator;
else if the store behind the buffer is harmless and, should the drop be a transaction of its own
and roll back its error, there was nothing to drop. -/
theorem drop_undoes_add_iff (db db' : Connection)
    (hdecl : ∀ p ∈ processed E table [star], E.declType p ≠ some none)
    (hfree : ∀ p ∈ processed E table [star], ∀ k, key k p ∉ cat) :
    Undone E db db' table cat ↔
      (∀ p ∈ processed E table [star], checkable E p = true) ∨
        E.fatalStore = false ∧ (db'.ownTransaction = true →
          db.ownTransaction = true ∨ ∀ p ∈ processed E table [star], checkable E p = false) := by
  obtain ⟨st, hst, hcat, herr⟩ := add_runs (free_runs hdecl hfree)
  have hadd : Undone E db db' table cat ↔ ∃ st',
      selectDrop E db' table [star] (vdbeHalt db cat st).catalog = some st' ∧ st'.catalog = cat := by
    unfold Undone selectAdd
    rw [hst, Option.map_some]
    simp only [Option.some.injEq, exists_eq_left']
  -- the addition ends in an error exactly if a validator is missing
  have herror : st.ctx.isError = true ↔
      ¬ Listed E table [star] ∨ ¬ ∀ p ∈ processed E table [star], checkable E p = true := by
    rw [herr]
    push Not
    refine or_congr_right (exists_congr fun p => and_congr_right fun hp => not_congr ?_)
    rw [Fresh, Adds, and_iff_left (hfree p hp .update), and_iff_left (hfree p hp .insert)]
  rw [hadd]
  by_cases hroll : db.ownTransaction = true ∧ st.ctx.isError = true
  · rw [vdbeHalt_own hroll, selectDrop_free_iff hfree]
    rcases herror.mp hroll.2 with hlist | hvalid
    · rw [processed_of_not_listed hlist]
      simp
    · have hsome : processed E table [star] ≠ [] := by
        intro hnil
        rw [hnil] at hvalid
        exact hvalid fun p hp => absurd hp List.not_mem_nil
      simp [hvalid, hsome, hroll.1]
  · rw [vdbeHalt_other hroll, selectDrop_added_iff hfree hcat]
    refine or_congr_right' fun hvalid => and_congr_right fun _ => imp_congr_right fun _ => ?_
    have hown : ¬ db.ownTransaction = true := fun h => hroll ⟨h, herror.mpr (.inr hvalid)⟩
    exact (or_iff_right hown).symm

/-- With both statements inside one transaction, or each a transaction of its own, dropping undoes
adding on `t`, where the second column has no validator. -/
theorem drop_undoes_add_sample :
    Undone sample ⟨false, 1⟩ ⟨false, 1⟩ (bytes ['t']) ∅ ∧
      Undone sample ⟨true, 1⟩ ⟨true, 1⟩ (bytes ['t']) ∅ :=
  ⟨(drop_undoes_add_iff ⟨false, 1⟩ ⟨false, 1⟩ (by decide)
      fun p _ k => Finset.notMem_empty _).mpr (.inr ⟨rfl, by decide⟩),
    (drop_undoes_add_iff ⟨true, 1⟩ ⟨true, 1⟩ (by decide)
      fun p _ k => Finset.notMem_empty _).mpr (.inr ⟨rfl, by decide⟩)⟩

/-- Added inside `BEGIN`, which is then committed, the triggers of the first column are not dropped
by a statement of its own: it ends in an error for the second one, and is rolled back. -/
theorem drop_undoes_add_fails : ¬ Undone sample ⟨false, 1⟩ ⟨true, 1⟩ (bytes ['t']) ∅ := by
  rintro ⟨st, hst, st', hst', hcat⟩
  have hadd : (selectAdd sample ⟨false, 1⟩ (bytes ['t']) [star] ∅).map State.catalog =
      some {key .update ⟨bytes ['t'], bytes ['a']⟩, key .insert ⟨bytes ['t'], bytes ['a']⟩} := by
    decide
  have hdrop : (selectDrop sample ⟨true, 1⟩ (bytes ['t']) [star]
      {key .update ⟨bytes ['t'], bytes ['a']⟩, key .insert ⟨bytes ['t'], bytes ['a']⟩}).map
        State.catalog =
      some {key .update ⟨bytes ['t'], bytes ['a']⟩, key .insert ⟨bytes ['t'], bytes ['a']⟩} := by
    decide
  rw [hst] at hadd
  rw [Option.some.inj hadd] at hst'
  rw [hst', Option.map_some, hcat] at hdrop
  exact absurd hdrop (by decide)

end SqlCode.StrictTyping
