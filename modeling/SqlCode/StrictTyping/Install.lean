import SqlCode.StrictTyping.Model

/-!
# When strict typing is all or nothing

`add_strict_type_check` installs two triggers on each column that it processes. What it does to a
column depends on the catalog and the schema only (`install_crashes`, `install_runs`): it may
crash, it may refuse, it may add both triggers (`Adds`), and only with both names free it
returns without an error (`Fresh`).

In the loop for `'*'` these conditions may be read off the catalog before the first column, because
the columns of a table have different names and so do their triggers (`Apart`). The run lemmas
(`installAll_crashes`, `installAll_runs`) carry them through the loop, and
`addStrictTypeCheck_iff` is the exact condition for all or nothing. A statement that is a
transaction of its own undoes a call that ends in an error, so that only a crash is left to go
wrong; inside `BEGIN`, or next to another statement, what was installed stays.
-/

namespace SqlCode.StrictTyping

open Text

variable (E : Sqlite)

/-- The column has a declared type, and that type has a validator. -/
def checkable (p : Target) : Bool :=
  match E.declType p with
  | some (some sqlType) => E.validator (sqlType.map toLower)
  | _ => false

/-- The column gets its insert trigger, and its update trigger unless that is there. -/
def Adds (cat : Catalog) (p : Target) : Prop :=
  checkable E p = true ∧ key .insert p ∉ cat

/-- The column gets both triggers, and there is no error. -/
def Fresh (cat : Catalog) (p : Target) : Prop :=
  Adds E cat p ∧ key .update p ∉ cat

/-- The call does not return: the column has no declared type, or one of its triggers cannot be
created and the store behind the buffer is fatal. -/
def Crashes (cat : Catalog) (p : Target) : Prop :=
  E.declType p = some none ∨
    E.fatalStore = true ∧ checkable E p = true ∧ (key .insert p ∈ cat ∨ key .update p ∈ cat)

instance (cat : Catalog) (p : Target) : Decidable (Adds E cat p) :=
  inferInstanceAs (Decidable (_ ∧ _))

/-- The catalog after a column has been processed. -/
def catalogAfter (cat : Catalog) (p : Target) : Catalog :=
  if Adds E cat p then insert (key .update p) (insert (key .insert p) cat) else cat

variable {E} {cat : Catalog} {p q : Target} {st : State}

/-! ### One column -/

theorem triggerFailed_fatal (h : E.fatalStore = true) (err : List Byte) :
    triggerFailed E err st = none :=
  if_pos h

theorem triggerFailed_harmless (h : ¬ E.fatalStore = true) (err : List Byte) :
    triggerFailed E err st = some (1, st.resultError (copyMessage E err)) :=
  if_neg h

theorem createTrigger_taken {k : Kind} (h : key k p ∈ st.catalog) :
    createTrigger k p st = .error (existsMsg (triggerName k p)) :=
  if_pos h

theorem createTrigger_free {k : Kind} (h : key k p ∉ st.catalog) :
    createTrigger k p st = .ok { st with catalog := insert (key k p) st.catalog } :=
  if_neg h

/-- The two names of a column are different. -/
theorem key_insert_ne_update (p : Target) : key .insert p ≠ key .update p := by
  intro h
  exact absurd ((key_eq_key_of_table rfl).mp h).1 (by decide)

/-- A column without a validator is refused. -/
theorem install_not_checkable (hd : E.declType p ≠ some none) (h : ¬ checkable E p = true) :
    ∃ msg, installTypeTrigger E p st = some (1, st.resultError msg) := by
  unfold installTypeTrigger columnType
  unfold checkable at h
  cases hdecl : E.declType p with
  | none => exact ⟨_, rfl⟩
  | some sqlType =>
    cases sqlType with
    | none => exact absurd hdecl hd
    | some sqlType =>
      rw [hdecl] at h
      exact ⟨noValidatorMsg, if_pos (Bool.eq_false_iff.mpr h)⟩

/-- A column with a validator goes on to its triggers. -/
theorem install_checkable (h : checkable E p = true) : installTypeTrigger E p st =
    match createTrigger .insert p st with
    | .error err => triggerFailed E err st
    | .ok st =>
      match createTrigger .update p st with
      | .error err => triggerFailed E err st
      | .ok st => some (0, st) := by
  unfold installTypeTrigger columnType
  unfold checkable at h
  cases hdecl : E.declType p with
  | none => rw [hdecl] at h; cases h
  | some sqlType =>
    cases sqlType with
    | none => rw [hdecl] at h; cases h
    | some sqlType =>
      rw [hdecl] at h
      exact if_neg (ne_of_eq_of_ne h Bool.true_eq_false.mp)

/-- **A column that crashes.** -/
theorem install_crashes (h : Crashes E st.catalog p) : installTypeTrigger E p st = none := by
  rcases h with h | ⟨hfatal, hcheck, htaken⟩
  · -- no declared type
    unfold installTypeTrigger columnType
    rw [h]
    rfl
  · rw [install_checkable hcheck]
    by_cases hins : key .insert p ∈ st.catalog
    · rw [createTrigger_taken hins]
      exact triggerFailed_fatal hfatal _
    · -- the name of the update trigger is the one that is taken
      have hupd := htaken.resolve_left hins
      rw [createTrigger_free hins]
      dsimp only
      rw [createTrigger_taken (Finset.mem_insert_of_mem hupd)]
      exact triggerFailed_fatal hfatal _

/-- **A column that does not crash**: what it adds, and when it reports an error. -/
theorem install_runs (h : ¬ Crashes E st.catalog p) :
    ∃ rc ctx, installTypeTrigger E p st = some (rc, ⟨catalogAfter E st.catalog p, ctx⟩) ∧
      (rc = 0 ∧ ctx = st.ctx ∧ Fresh E st.catalog p ∨
        rc ≠ 0 ∧ ctx.isError = true ∧ ¬ Fresh E st.catalog p) := by
  have hdecl : E.declType p ≠ some none := fun hd => h (.inl hd)
  by_cases hcheck : checkable E p = true
  · have hharmless : key .insert p ∈ st.catalog ∨ key .update p ∈ st.catalog →
        ¬ E.fatalStore = true := fun htaken hfatal => h (.inr ⟨hfatal, hcheck, htaken⟩)
    rw [install_checkable hcheck]
    by_cases hins : key .insert p ∈ st.catalog
    · -- the first trigger cannot be created
      have hadds : ¬ Adds E st.catalog p := fun ha => ha.2 hins
      have hafter : catalogAfter E st.catalog p = st.catalog := if_neg hadds
      rw [createTrigger_taken hins, hafter]
      exact ⟨1, _, triggerFailed_harmless (hharmless (.inl hins)) _,
        .inr ⟨one_ne_zero, rfl, fun hf => hadds hf.1⟩⟩
    · have hadds : Adds E st.catalog p := ⟨hcheck, hins⟩
      have hafter : catalogAfter E st.catalog p =
          insert (key .update p) (insert (key .insert p) st.catalog) := if_pos hadds
      rw [createTrigger_free hins, hafter]
      dsimp only
      by_cases hupd : key .update p ∈ st.catalog
      · -- the second one cannot, and the first stays
        have hmem := Finset.mem_insert_of_mem (b := key .insert p) hupd
        rw [createTrigger_taken hmem, Finset.insert_eq_self.mpr hmem]
        exact ⟨1, _, triggerFailed_harmless (hharmless (.inr hupd)) _,
          .inr ⟨one_ne_zero, rfl, fun hf => hf.2 hupd⟩⟩
      · have hnot : key .update p ∉ insert (key .insert p) st.catalog := by
          rw [Finset.mem_insert, not_or]
          exact ⟨(key_insert_ne_update p).symm, hupd⟩
        rw [createTrigger_free hnot]
        exact ⟨0, st.ctx, rfl, .inl ⟨rfl, rfl, hadds, hupd⟩⟩
  · -- refused
    obtain ⟨msg, hmsg⟩ := @install_not_checkable E p st hdecl hcheck
    have hadds : ¬ Adds E st.catalog p := fun ha => hcheck ha.1
    refine ⟨1, ⟨true, .text msg⟩, ?_, .inr ⟨one_ne_zero, rfl, fun hf => hadds hf.1⟩⟩
    rw [hmsg, catalogAfter, if_neg hadds]
    rfl

/-! ### All columns of a table -/

/-- The triggers of the columns have different names. -/
def Apart (p q : Target) : Prop := ∀ k l, key k p ≠ key l q

theorem mem_catalogAfter {x : List Byte} :
    x ∈ catalogAfter E cat p ↔ x ∈ cat ∨ Adds E cat p ∧ ∃ k, x = key k p := by
  unfold catalogAfter
  split_ifs with hadds
  · rw [Finset.mem_insert, Finset.mem_insert]
    constructor
    · rintro (hx | hx | hx)
      · exact .inr ⟨hadds, .update, hx⟩
      · exact .inr ⟨hadds, .insert, hx⟩
      · exact .inl hx
    · rintro (hx | ⟨-, k, hx⟩)
      · exact .inr (.inr hx)
      · cases k with
        | insert => exact .inr (.inl hx)
        | update => exact .inl hx
  · exact ⟨.inl, fun hx => hx.resolve_right fun ha => hadds ha.1⟩

/-- A column does not touch the names of another one. -/
theorem mem_catalogAfter_apart (h : Apart p q) (k : Kind) :
    key k q ∈ catalogAfter E cat p ↔ key k q ∈ cat := by
  rw [mem_catalogAfter]
  exact ⟨fun hx => hx.resolve_right fun ⟨_, l, hl⟩ => h l k hl.symm, .inl⟩

/-- What happens to a column depends on its own two names only. -/
theorem conditions_congr {cat' : Catalog} (h : ∀ k, key k q ∈ cat' ↔ key k q ∈ cat) :
    (Adds E cat' q ↔ Adds E cat q) ∧ (Fresh E cat' q ↔ Fresh E cat q) ∧
      (Crashes E cat' q ↔ Crashes E cat q) := by
  unfold Fresh Crashes Adds
  simp only [h, and_self]

/-- What happens to a column does not depend on one that is apart from it. -/
theorem conditions_apart (h : Apart p q) :
    (Adds E (catalogAfter E cat p) q ↔ Adds E cat q) ∧
      (Fresh E (catalogAfter E cat p) q ↔ Fresh E cat q) ∧
      (Crashes E (catalogAfter E cat p) q ↔ Crashes E cat q) :=
  conditions_congr (mem_catalogAfter_apart h)

variable (E)

/-- The columns one after the other, as the loop for `'*'` does it. -/
def installAll (ps : List Target) (st : State) : Option State :=
  ps.foldlM (fun st p => (installTypeTrigger E p st).map Prod.snd) st

variable {E} {ps : List Target}

/-- **A crash in the loop.** -/
theorem installAll_crashes (hapart : ps.Pairwise Apart) (h : ∃ p ∈ ps, Crashes E st.catalog p) :
    installAll E ps st = none := by
  induction ps generalizing st with
  | nil =>
    obtain ⟨p, hp, -⟩ := h
    cases hp
  | cons q ps ih =>
    obtain ⟨hq, hps⟩ := List.pairwise_cons.mp hapart
    unfold installAll
    rw [List.foldlM_cons]
    by_cases hcrash : Crashes E st.catalog q
    · rw [install_crashes hcrash]
      rfl
    · obtain ⟨rc, ctx, hrun, -⟩ := install_runs hcrash
      rw [hrun]
      -- the column that crashes is a later one, and still does
      obtain ⟨p, hp, hpc⟩ := h
      rcases List.mem_cons.mp hp with rfl | hp
      · exact absurd hpc hcrash
      · exact ih hps ⟨p, hp, (conditions_apart (hq p hp)).2.2.mpr hpc⟩

/-- **The loop without a crash.** -/
theorem installAll_runs (hapart : ps.Pairwise Apart) (h : ∀ p ∈ ps, ¬ Crashes E st.catalog p) :
    ∃ st', installAll E ps st = some st' ∧
      (∀ x, x ∈ st'.catalog ↔ x ∈ st.catalog ∨ ∃ p ∈ ps, Adds E st.catalog p ∧ ∃ k, x = key k p) ∧
      (st'.ctx.isError = true ↔
        st.ctx.isError = true ∨ ∃ p ∈ ps, ¬ Fresh E st.catalog p) := by
  induction ps generalizing st with
  | nil => exact ⟨st, rfl, by simp, by simp⟩
  | cons q ps ih =>
    obtain ⟨hq, hps⟩ := List.pairwise_cons.mp hapart
    obtain ⟨rc, ctx, hrun, hctx⟩ := install_runs (h q List.mem_cons_self)
    obtain ⟨st', hst', hcat, herr⟩ := @ih ⟨catalogAfter E st.catalog q, ctx⟩ hps fun p hp =>
      fun hc => h p (List.mem_cons_of_mem _ hp) ((conditions_apart (hq p hp)).2.2.mp hc)
    refine ⟨st', ?_, fun x => ?_, ?_⟩
    · unfold installAll
      rw [List.foldlM_cons, hrun]
      exact hst'
    · rw [hcat, mem_catalogAfter, List.exists_mem_cons_iff, or_assoc]
      refine or_congr_right (or_congr_right (exists_congr fun p => ?_))
      exact and_congr_right fun hp => and_congr_left' (conditions_apart (hq p hp)).1
    · have hrest : (∃ p ∈ ps, ¬ Fresh E (catalogAfter E st.catalog q) p) ↔
          ∃ p ∈ ps, ¬ Fresh E st.catalog p :=
        exists_congr fun p => and_congr_right fun hp =>
          not_congr (conditions_apart (hq p hp)).2.1
      rw [herr, hrest, List.exists_mem_cons_iff]
      rcases hctx with ⟨-, rfl, hfresh⟩ | ⟨-, hset, hfresh⟩
      · exact or_congr_right ⟨.inr, fun hor => hor.resolve_left (not_not_intro hfresh)⟩
      · -- an error stays one
        exact iff_of_true (.inl hset) (.inr (.inl hfresh))

/-! ### The function -/

variable (E)

/-- The columns for `'*'`. -/
def starTargets (table : List Byte) (rows : List Column) : List Target :=
  (rows.filter fun c => c.pk ≠ 1).map fun c => ⟨table, c.name⟩

/-- The columns that the function goes through: for an argument that begins with a star those that
are not flagged primary key, and else the one that is named. -/
def processed (table column : List Byte) : List Target :=
  if column.head? = some star then
    match E.tableInfo table with
    | .ok rows => starTargets table rows
    | .error _ => []
  else [⟨table, column⟩]

/-- The columns that are asked for: with `'*'` those that are not flagged primary key, and else
the one that is named. -/
def targeted (table column : List Byte) : List Target :=
  if column = [star] then processed E table column else [⟨table, column⟩]

/-- If the columns are to be listed, that can be done. -/
def Listed (table column : List Byte) : Prop :=
  column.head? = some star → ∃ rows, E.tableInfo table = .ok rows

variable {E} {table column : List Byte}

theorem foldlM_checkRow (f : Target → State → Option (ℤ × State)) (rows : List Column)
    (st : State) : rows.foldlM (checkRow f table) st =
      (starTargets table rows).foldlM (fun st p => (f p st).map Prod.snd) st := by
  induction rows generalizing st with
  | nil => rfl
  | cons c rows ih =>
    rw [List.foldlM_cons]
    by_cases hpk : c.pk ≠ 1
    · have htargets :
          starTargets table (c :: rows) = ⟨table, c.name⟩ :: starTargets table rows := by
        simp [starTargets, hpk]
      rw [htargets, List.foldlM_cons, checkRow, if_pos hpk]
      exact congrArg _ (funext ih)
    · have htargets : starTargets table (c :: rows) = starTargets table rows := by
        simp [starTargets, hpk]
      rw [htargets, checkRow, if_neg hpk]
      exact ih st

/-- The columns of a table have different names, and so have their triggers. -/
theorem processed_apart : (processed E table column).Pairwise Apart := by
  unfold processed
  split_ifs
  · cases hinfo : E.tableInfo table with
    | error err => exact List.Pairwise.nil
    | ok rows =>
      have hnodup := E.nodup table rows hinfo
      rw [List.Nodup, List.pairwise_map] at hnodup
      refine List.pairwise_map.mpr ((hnodup.filter _).imp fun {a b} hne k l h => hne ?_)
      have htable : (Target.folded ⟨table, a.name⟩).table = (Target.folded ⟨table, b.name⟩).table :=
        rfl
      exact ((key_eq_key_of_table htable).mp h).2
  · exact List.pairwise_singleton _ _

/-- The state in which the function starts. -/
def start (cat : Catalog) : State := ⟨cat, ⟨false, .null⟩⟩

/-- **A call for `'*'`** goes through the columns, from a state with the same catalog, in which there
is an error if they could not be listed. -/
theorem udf_star (f : Target → State → Option (ℤ × State)) (hstar : column.head? = some star) :
    ∃ st₀ : State, st₀.catalog = cat ∧ (st₀.ctx.isError = true ↔ ¬ Listed E table column) ∧
      strictTypeCheckUdf E f table column cat =
        ((processed E table column).foldlM (fun st p => (f p st).map Prod.snd) st₀).map
          (State.resultInt · 0) := by
  unfold strictTypeCheckUdf processed Listed
  rw [if_pos hstar, if_pos hstar]
  cases E.tableInfo table with
  | error err =>
    exact ⟨(start cat).resultError err, rfl, iff_of_true rfl (by simp [hstar]), rfl⟩
  | ok rows =>
    refine ⟨start cat, rfl, iff_of_false Bool.false_ne_true (by simp), ?_⟩
    dsimp only
    rw [foldlM_checkRow]
    exact (Option.map_eq_bind (f := fun st => State.resultInt st 0)).symm

/-- A call for a single column. -/
theorem udf_single (f : Target → State → Option (ℤ × State)) (hstar : column.head? ≠ some star) :
    strictTypeCheckUdf E f table column cat = (f ⟨table, column⟩ (start cat)).map fun (rc, st) =>
      if rc ≠ 0 then st else st.resultInt 0 := by
  unfold strictTypeCheckUdf
  rw [if_neg hstar]
  unfold start
  cases f ⟨table, column⟩ ⟨cat, ⟨false, .null⟩⟩ with
  | none => rfl
  | some r =>
    dsimp only [Option.map_some]
    rw [apply_ite some]
    rfl

/-- Setting the result leaves the catalog. -/
theorem catalog_resultInt (rc : ℤ) (st : State) :
    (if rc ≠ 0 then st else st.resultInt 0).catalog = st.catalog := by
  split_ifs <;> rfl

theorem processed_single (hstar : column.head? ≠ some star) :
    processed E table column = [⟨table, column⟩] :=
  if_neg hstar

/-- A call in which a column crashes does not return. -/
theorem add_crashes (h : ∃ p ∈ processed E table column, Crashes E cat p) :
    addStrictTypeCheck E table column cat = none := by
  unfold addStrictTypeCheck
  by_cases hstar : column.head? = some star
  · obtain ⟨st₀, rfl, -, hcall⟩ := @udf_star E cat table column (installTypeTrigger E) hstar
    have hloop : installAll E (processed E table column) st₀ = none :=
      installAll_crashes processed_apart h
    rw [hcall]
    exact congrArg (Option.map _) hloop
  · rw [processed_single hstar] at h
    obtain ⟨p, hp, hcrash⟩ := h
    rw [List.mem_singleton.mp hp] at hcrash
    rw [udf_single _ hstar, install_crashes hcrash]
    rfl

/-- **What a call does.** The catalog gets the triggers of the columns that add theirs, and there
is an error unless all columns were listed and are fresh. -/
theorem add_runs (h : ∀ p ∈ processed E table column, ¬ Crashes E cat p) :
    ∃ st, addStrictTypeCheck E table column cat = some st ∧
      (∀ x, x ∈ st.catalog ↔
        x ∈ cat ∨ ∃ p ∈ processed E table column, Adds E cat p ∧ ∃ k, x = key k p) ∧
      (st.ctx.isError = true ↔
        ¬ Listed E table column ∨ ∃ p ∈ processed E table column, ¬ Fresh E cat p) := by
  unfold addStrictTypeCheck
  by_cases hstar : column.head? = some star
  · -- all columns of the table, if they can be listed
    obtain ⟨st₀, rfl, herr₀, hcall⟩ := @udf_star E cat table column (installTypeTrigger E) hstar
    obtain ⟨st, hst, hcat, herr⟩ := installAll_runs processed_apart h
    refine ⟨st.resultInt 0, ?_, hcat, herr.trans (or_congr_left herr₀)⟩
    rw [hcall]
    exact congrArg (Option.map _) hst
  · -- one column, whose return code is the result
    rw [processed_single hstar] at h ⊢
    obtain ⟨rc, ctx, hrun, hctx⟩ := @install_runs E ⟨table, column⟩ (start cat)
      (h _ (List.mem_singleton_self _))
    rw [udf_single _ hstar, hrun]
    refine ⟨_, rfl, fun x => ?_, ?_⟩
    · dsimp only
      rw [catalog_resultInt, mem_catalogAfter]
      simp only [List.mem_singleton, exists_eq_left]
      rfl
    · simp only [List.mem_singleton, exists_eq_left]
      rcases hctx with ⟨rfl, rfl, hfresh⟩ | ⟨hrc, hset, hfresh⟩
      · exact iff_of_false Bool.false_ne_true
          (not_or.mpr ⟨not_not_intro fun h => absurd h hstar, not_not_intro hfresh⟩)
      · rw [if_pos hrc]
        exact iff_of_true hset (.inr hfresh)

/-! ### All or nothing -/

variable (E)

/-- **All or nothing.** The statement returns, and either both triggers of every column that was
asked for are there, if `quiet` is set without an error, or there is an error and the catalog is
what it was. -/
def AllOrNothing (db : Connection) (quiet : Bool) (table column : List Byte) (cat : Catalog) :
    Prop :=
  ∃ st, selectAdd E db table column cat = some st ∧
    ((∀ p ∈ targeted E table column, ∀ k, key k p ∈ st.catalog) ∧
        (quiet = true → st.ctx.isError = false) ∨
      st.ctx.isError = true ∧ st.catalog = cat)

/-- The trigger is there, or the column is one that gets its triggers. -/
def Covered (table column : List Byte) (cat : Catalog) (k : Kind) (p : Target) : Prop :=
  key k p ∈ cat ∨
    ∃ q ∈ processed E table column, Adds E cat q ∧ foldCase q.column = foldCase p.column

variable {E}

/-- The columns that the function goes through and those asked for are of one table. -/
theorem table_of_processed (h : p ∈ processed E table column) : p.table = table := by
  unfold processed at h
  split_ifs at h
  · cases hinfo : E.tableInfo table with
    | error err =>
      rw [hinfo] at h
      cases h
    | ok rows =>
      rw [hinfo] at h
      obtain ⟨c, -, rfl⟩ := List.mem_map.mp h
      rfl
  · rw [List.mem_singleton.mp h]

theorem table_of_targeted (h : p ∈ targeted E table column) : p.table = table := by
  unfold targeted at h
  split_ifs at h
  · exact table_of_processed h
  · rw [List.mem_singleton.mp h]

theorem covered_iff {k : Kind} (hp : p.table = table) :
    Covered E table column cat k p ↔ key k p ∈ cat ∨
      ∃ q ∈ processed E table column, Adds E cat q ∧ ∃ l, key k p = key l q := by
  apply or_congr_right
  refine exists_congr fun q => and_congr_right fun hq => and_congr_right fun _ => ?_
  have htable : p.folded.table = q.folded.table := by
    unfold Target.folded
    rw [hp, table_of_processed hq]
  constructor
  · exact fun h => ⟨k, (key_eq_key_of_table htable).mpr ⟨rfl, h.symm⟩⟩
  · rintro ⟨l, h⟩
    exact ((key_eq_key_of_table htable).mp h).2.symm

/-- Nothing changes if and only if no column gets a trigger. -/
theorem catalog_eq_iff (hcat : ∀ x, x ∈ st.catalog ↔
      x ∈ cat ∨ ∃ p ∈ processed E table column, Adds E cat p ∧ ∃ k, x = key k p) :
    st.catalog = cat ↔ ∀ p ∈ processed E table column, ¬ Adds E cat p := by
  constructor
  · intro heq p hp ha
    -- the insert trigger was not there, and would be now
    have hmem := (hcat (key .insert p)).mpr (.inr ⟨p, hp, ha, .insert, rfl⟩)
    rw [heq] at hmem
    exact ha.2 hmem
  · intro hno
    ext x
    rw [hcat]
    exact ⟨fun hx => hx.resolve_right fun ⟨p, hp, ha, _⟩ => hno p hp ha, .inl⟩

/-- An error in a transaction of its own leaves the catalog as it was. -/
theorem vdbeHalt_own {db : Connection} {before : Catalog} {st : State}
    (h : db.ownTransaction = true ∧ st.ctx.isError = true) :
    vdbeHalt db before st = { st with catalog := before } :=
  if_pos (Bool.and_eq_true_iff.mpr h)

/-- Otherwise the end of the statement changes nothing. -/
theorem vdbeHalt_other {db : Connection} {before : Catalog} {st : State}
    (h : ¬ (db.ownTransaction = true ∧ st.ctx.isError = true)) : vdbeHalt db before st = st :=
  if_neg fun hand => h (Bool.and_eq_true_iff.mp hand)

/-- The end of the statement leaves the result. -/
@[simp] theorem vdbeHalt_ctx (db : Connection) (before : Catalog) (st : State) :
    (vdbeHalt db before st).ctx = st.ctx := by
  unfold vdbeHalt
  split_ifs <;> rfl

/-- What a call that does not crash comes to, if nothing is rolled back. -/
theorem kept_iff {quiet : Bool}
    (hcat : ∀ x, x ∈ st.catalog ↔
      x ∈ cat ∨ ∃ p ∈ processed E table column, Adds E cat p ∧ ∃ k, x = key k p)
    (herr : st.ctx.isError = true ↔
      ¬ Listed E table column ∨ ∃ p ∈ processed E table column, ¬ Fresh E cat p) :
    ((∀ p ∈ targeted E table column, ∀ k, key k p ∈ st.catalog) ∧
          (quiet = true → st.ctx.isError = false) ∨
        st.ctx.isError = true ∧ st.catalog = cat) ↔
      (∀ p ∈ targeted E table column, ∀ k, Covered E table column cat k p) ∧
          (quiet = true → Listed E table column ∧ ∀ p ∈ processed E table column, Fresh E cat p) ∨
        (¬ Listed E table column ∨ processed E table column ≠ []) ∧
          ∀ p ∈ processed E table column, ¬ Adds E cat p := by
  -- the two ways to meet the claim, part by part
  refine or_congr (and_congr ?_ (imp_congr_right fun _ => ?_)) ?_
  · refine forall_congr' fun p => imp_congr_right fun hp => forall_congr' fun k => ?_
    rw [hcat, covered_iff (table_of_targeted hp)]
  · rw [Bool.eq_false_iff, ne_eq, herr]
    push Not
    exact Iff.rfl
  · rw [herr, catalog_eq_iff hcat]
    refine and_congr_left fun hno => or_congr_right ⟨?_, fun hne => ?_⟩
    · rintro ⟨p, hp, -⟩
      exact List.ne_nil_of_mem hp
    · obtain ⟨p, hp⟩ := List.exists_mem_of_ne_nil _ hne
      exact ⟨p, hp, fun hfresh => hno p hp hfresh.1⟩

/-- **When strict typing is all or nothing.** No column crashes, and one of three things holds.
Either every trigger asked for is there or comes from a column that gets its triggers (and, for a
call without an error, the columns were listed and are all fresh). Or no column gets a trigger,
and there is an error to report, because the columns cannot be listed or there are some. Or there
is an error, and the statement is a transaction of its own. -/
theorem addStrictTypeCheck_iff (E : Sqlite) (db : Connection) (quiet : Bool)
    (table column : List Byte) (cat : Catalog) :
    AllOrNothing E db quiet table column cat ↔
      (∀ p ∈ processed E table column, ¬ Crashes E cat p) ∧
        ((∀ p ∈ targeted E table column, ∀ k, Covered E table column cat k p) ∧
            (quiet = true → Listed E table column ∧ ∀ p ∈ processed E table column, Fresh E cat p) ∨
          (¬ Listed E table column ∨ processed E table column ≠ []) ∧
            (∀ p ∈ processed E table column, ¬ Adds E cat p) ∨
          db.ownTransaction = true ∧
            (¬ Listed E table column ∨ ∃ p ∈ processed E table column, ¬ Fresh E cat p)) := by
  by_cases hcrash : ∃ p ∈ processed E table column, Crashes E cat p
  · -- a crash of one column is the end of the call
    apply iff_of_false
    · rintro ⟨st, hst, -⟩
      rw [selectAdd, add_crashes hcrash] at hst
      cases hst
    · rintro ⟨hnone, -⟩
      obtain ⟨p, hp, hpc⟩ := hcrash
      exact hnone p hp hpc
  · have hnone : ∀ p ∈ processed E table column, ¬ Crashes E cat p :=
      fun p hp hpc => hcrash ⟨p, hp, hpc⟩
    obtain ⟨st, hst, hcat, herr⟩ := add_runs hnone
    have hcall : AllOrNothing E db quiet table column cat ↔
        (∀ p ∈ targeted E table column, ∀ k, key k p ∈ (vdbeHalt db cat st).catalog) ∧
            (quiet = true → st.ctx.isError = false) ∨
          st.ctx.isError = true ∧ (vdbeHalt db cat st).catalog = cat := by
      unfold AllOrNothing selectAdd
      rw [hst, Option.map_some, ← vdbeHalt_ctx db cat st]
      exact ⟨fun ⟨st', heq, hst'⟩ => Option.some.inj heq ▸ hst', fun hst' => ⟨_, rfl, hst'⟩⟩
    rw [hcall, and_iff_right hnone]
    by_cases hroll : db.ownTransaction = true ∧ st.ctx.isError = true
    · -- the rollback makes it nothing
      rw [vdbeHalt_own hroll]
      exact iff_of_true (.inr ⟨hroll.2, rfl⟩) (.inr (.inr ⟨hroll.1, herr.mp hroll.2⟩))
    · rw [vdbeHalt_other hroll, kept_iff hcat herr, ← herr, ← or_assoc, or_iff_left hroll]

/-- A table `t(a INT, b TEXT)` and a table `u(c)`, with a validator for `int`. -/
def sample : Sqlite where
  tableInfo table :=
    if table = bytes ['t'] then .ok [⟨bytes ['a'], 0⟩, ⟨bytes ['b'], 0⟩]
    else if table = bytes ['u'] then .ok [⟨bytes ['c'], 0⟩]
    else .ok []
  nodup table rows h := by
    split_ifs at h <;> cases h <;> decide
  declType p :=
    if p = ⟨bytes ['t'], bytes ['a']⟩ then some (some (bytes ['I', 'N', 'T']))
    else if p = ⟨bytes ['t'], bytes ['b']⟩ then some (some (bytes ['T', 'E', 'X', 'T']))
    else if p = ⟨bytes ['u'], bytes ['c']⟩ then some none
    else none
  validator type := type == bytes ['i', 'n', 't']
  buf255 := 0
  fatalStore := false

/-- Inside `BEGIN`, the first column of `t` gets its triggers and the second does not. On `u` the
process crashes, also in a statement that is a transaction of its own. -/
theorem strictTyping_fails :
    ¬ AllOrNothing sample ⟨false, 1⟩ false (bytes ['t']) [star] ∅ ∧
      selectAdd sample ⟨true, 1⟩ (bytes ['u']) (bytes ['c']) ∅ = none := by
  refine ⟨?_, by decide⟩
  rintro ⟨st, hst, h⟩
  have hcat : (selectAdd sample ⟨false, 1⟩ (bytes ['t']) [star] ∅).map State.catalog =
      some {key .update ⟨bytes ['t'], bytes ['a']⟩, key .insert ⟨bytes ['t'], bytes ['a']⟩} := by
    decide
  rw [hst] at hcat
  rcases h with ⟨hall, -⟩ | ⟨-, heq⟩
  · have hmem := hall ⟨bytes ['t'], bytes ['b']⟩ (by decide) .insert
    rw [Option.some.inj hcat] at hmem
    exact absurd hmem (by decide)
  · rw [Option.map_some, heq] at hcat
    exact absurd hcat (by decide)

end SqlCode.StrictTyping
