import SqlCode.StrictTyping.Install

/-!
# Type checks on different columns

The names of triggers are all that the type checks of two columns have in common. If no
name of one is a name of the other, adding and dropping the checks of one does not depend on
the triggers of the other and leaves them in place. If two names are equal, a drop that finds both
of its triggers removes one of the other column (`dropSafe_iff`), whatever the transaction it is
part of; a drop that misses one ends in an error, which may be rolled back. Which columns have a
name in common is `exists_key_iff`, and `nonInterfering_iff` puts the two together.
-/

namespace SqlCode.StrictTyping

open Text

/-! ### Identifiers -/

/-- A character of an identifier: a letter, a digit, `'_'`, `'$'` or a byte beyond ASCII. -/
def isIdChar (c : Byte) : Bool :=
  isAlpha c || isDigit c || c == underscore || c == 36 || 128 ≤ c

/-- An SQL identifier, which does not start with a digit or `'$'`. -/
def isIdentifier : List Byte → Bool
  | [] => false
  | c :: s => isIdChar c && !isDigit c && c != 36 && s.all isIdChar

/-- The table and the column are identifiers. -/
def Target.Legal (p : Target) : Prop :=
  isIdentifier p.table = true ∧ isIdentifier p.column = true

instance (p : Target) : Decidable p.Legal := inferInstanceAs (Decidable (_ ∧ _))

theorem head_ne_star {s : List Byte} (h : isIdentifier s = true) : s.head? ≠ some star := by
  cases s with
  | nil => cases h
  | cons c s =>
    intro hc
    obtain rfl := Option.some.inj hc
    have hno : isIdChar star = false := by decide
    rw [isIdentifier, hno] at h
    cases h

variable (E : Sqlite) (db : Connection) {cat : Catalog} {p q : Target} {st : State}

/-- No trigger of one column has the name of a trigger of the other. -/
theorem apart_comm : Apart p q ↔ Apart q p :=
  ⟨fun h k l hkl => h l k hkl.symm, fun h k l hkl => h l k hkl.symm⟩

/-! ### Adding -/

/-- The catalog with both triggers of `q`. -/
def withTriggers (q : Target) (cat : Catalog) : Catalog :=
  insert (key .update q) (insert (key .insert q) cat)

/-- Whether adding the checks of `p` crashes or ends in an error is not changed by the triggers
of `q`. -/
def AddSafe (p q : Target) : Prop :=
  ∀ cat : Catalog,
    (addStrictTypeCheck E p.table p.column (withTriggers q cat)).map (·.ctx.isError) =
      (addStrictTypeCheck E p.table p.column cat).map (·.ctx.isError)

variable {E}

/-- **How adding the checks of one column ends.** -/
theorem add_single (h : p.Legal) (cat : Catalog) :
    Crashes E cat p ∧ (addStrictTypeCheck E p.table p.column cat).map (·.ctx.isError) = none ∨
      ¬ Crashes E cat p ∧ ∃ err, (err = true ↔ ¬ Fresh E cat p) ∧
        (addStrictTypeCheck E p.table p.column cat).map (·.ctx.isError) = some err := by
  have hstar : p.column.head? ≠ some star := head_ne_star h.2
  have hprocessed : processed E p.table p.column = [p] := if_neg hstar
  by_cases hcrash : Crashes E cat p
  · refine .inl ⟨hcrash, ?_⟩
    rw [add_crashes ⟨p, by rw [hprocessed]; exact List.mem_singleton_self p, hcrash⟩]
    rfl
  · obtain ⟨st, hst, -, herr⟩ := @add_runs E cat p.table p.column (by
      rw [hprocessed]
      exact fun q hq => List.mem_singleton.mp hq ▸ hcrash)
    refine .inr ⟨hcrash, st.ctx.isError, ?_, by rw [hst]; rfl⟩
    -- a single column is always listed
    have hlisted : Listed E p.table p.column := fun hc => absurd hc hstar
    rw [herr, hprocessed]
    simp [hlisted]

theorem addSafe_of_apart (h : p.Legal) (hapart : Apart p q) : AddSafe E p q := by
  intro cat
  have hkeys : ∀ k, key k p ∈ withTriggers q cat ↔ key k p ∈ cat := by
    intro k
    unfold withTriggers
    rw [Finset.mem_insert, Finset.mem_insert, or_iff_right (hapart k _), or_iff_right (hapart k _)]
  obtain ⟨-, hfresh, hcrash⟩ := conditions_congr (E := E) hkeys
  rcases add_single (E := E) h (withTriggers q cat) with ⟨hc, hnone⟩ | ⟨hc, err, herr, hsome⟩
  · rcases add_single (E := E) h cat with ⟨-, hnone'⟩ | ⟨hc', -⟩
    · rw [hnone, hnone']
    · exact absurd (hcrash.mp hc) hc'
  · rcases add_single (E := E) h cat with ⟨hc', -⟩ | ⟨-, err', herr', hsome'⟩
    · exact absurd (hcrash.mpr hc') hc
    · have hsame : err = true ↔ err' = true := by rw [herr, herr', hfresh]
      rw [hsome, hsome', Bool.eq_iff_iff.mpr hsame]

/-! ### Dropping -/

variable (E) in
/-- Dropping the checks of `p` leaves every trigger of `q` in the catalog. -/
def DropSafe (p q : Target) : Prop :=
  ∀ (cat : Catalog) (st : State), selectDrop E db p.table p.column cat = some st →
    ∀ k, key k q ∈ cat → key k q ∈ st.catalog

theorem dropTrigger_there {k : Kind} (h : key k p ∈ st.catalog) :
    dropTrigger k p st = .ok { st with catalog := st.catalog.erase (key k p) } :=
  if_pos h

theorem dropTrigger_missing {k : Kind} (h : key k p ∉ st.catalog) :
    dropTrigger k p st = .error (noSuchMsg (triggerName k p)) :=
  if_neg h

/-- A failed statement leaves the catalog, if the process goes on. -/
theorem triggerFailed_catalog {err : List Byte} {rc : ℤ} {st' : State}
    (h : triggerFailed E err st = some (rc, st')) : st'.catalog = st.catalog := by
  unfold triggerFailed at h
  split_ifs at h
  obtain ⟨-, rfl⟩ := Prod.mk.inj (Option.some.inj h)
  rfl

/-- Dropping removes no other name than those of the column. -/
theorem mem_uninstall {rc : ℤ} {st' : State} (h : uninstallTypeTrigger E p st = some (rc, st'))
    {x : List Byte} (hx : x ∈ st.catalog) (hne : ∀ k, x ≠ key k p) : x ∈ st'.catalog := by
  unfold uninstallTypeTrigger at h
  by_cases hins : key .insert p ∈ st.catalog
  · rw [dropTrigger_there hins] at h
    dsimp only at h
    have hx₁ : x ∈ st.catalog.erase (key .insert p) := Finset.mem_erase_of_ne_of_mem (hne _) hx
    by_cases hupd : key .update p ∈ st.catalog.erase (key .insert p)
    · rw [dropTrigger_there hupd] at h
      obtain ⟨-, rfl⟩ := Prod.mk.inj (Option.some.inj h)
      exact Finset.mem_erase_of_ne_of_mem (hne _) hx₁
    · rw [dropTrigger_missing hupd] at h
      rw [triggerFailed_catalog h]
      exact hx₁
  · rw [dropTrigger_missing hins] at h
    rw [triggerFailed_catalog h]
    exact hx

theorem dropSafe_of_apart (h : p.Legal) (hapart : Apart p q) : DropSafe E db p q := by
  intro cat st hst k hk
  rw [selectDrop, dropStrictTypeCheck, udf_single _ (head_ne_star h.2)] at hst
  obtain ⟨_, hcall, rfl⟩ := Option.map_eq_some_iff.mp hst
  obtain ⟨⟨rc, st'⟩, hrun, rfl⟩ := Option.map_eq_some_iff.mp hcall
  have hkept := mem_uninstall hrun hk fun l hl => hapart l k hl.symm
  rw [← catalog_resultInt rc st'] at hkept
  unfold vdbeHalt
  split_ifs
  · -- rolled back
    exact hk
  · exact hkept

/-- With both of its triggers in the catalog a column loses both, without an error. -/
theorem drop_both (h : p.Legal) : ∃ st,
    selectDrop E db p.table p.column (withTriggers p ∅) = some st ∧
      ∀ k, key k p ∉ st.catalog := by
  have hins : key .insert p ∈ (start (withTriggers p ∅)).catalog := by
    simp [start, withTriggers]
  have hupd : key .update p ∈ (start (withTriggers p ∅)).catalog.erase (key .insert p) := by
    simp [start, withTriggers, (key_insert_ne_update p).symm]
  -- both `DROP TRIGGER` statements find theirs
  have hrun : uninstallTypeTrigger E p (start (withTriggers p ∅)) = some (0,
      { start (withTriggers p ∅) with catalog :=
        ((start (withTriggers p ∅)).catalog.erase (key .insert p)).erase (key .update p) }) := by
    unfold uninstallTypeTrigger
    rw [dropTrigger_there hins]
    dsimp only
    rw [dropTrigger_there hupd]
    rfl
  rw [selectDrop, dropStrictTypeCheck, udf_single _ (head_ne_star h.2), hrun]
  refine ⟨_, rfl, fun k hk => ?_⟩
  dsimp only at hk
  rw [vdbeHalt_other fun herr => Bool.false_ne_true herr.2, catalog_resultInt, Finset.mem_erase,
    Finset.mem_erase] at hk
  cases k with
  | insert => exact hk.2.1 rfl
  | update => exact hk.1 rfl

/-- **A name in common is a trigger of the other column that is lost.** -/
theorem dropSafe_iff (h : p.Legal) : DropSafe E db p q ↔ Apart p q := by
  refine ⟨fun hsafe k l hkl => ?_, dropSafe_of_apart db h⟩
  -- were a name shared, the catalog of `p` alone would be one where `q` loses a trigger
  obtain ⟨st, hst, hno⟩ := drop_both (E := E) db h
  have hmem : key l q ∈ withTriggers p ∅ := by
    rw [← hkl]
    cases k <;> simp [withTriggers]
  have hlost := hsafe _ st hst l hmem
  rw [← hkl] at hlost
  exact hno k hlost

/-! ### Both -/

variable (E) in
/-- **No interference.** The names of the triggers are pairwise different, and adding or
dropping the checks of one column is safe for the other. -/
structure NonInterfering (p q : Target) : Prop where
  /-- The names are different. -/
  apart : Apart p q
  /-- Adding `p` does not fail because of `q`. -/
  add_left : AddSafe E p q
  /-- Adding `q` does not fail because of `p`. -/
  add_right : AddSafe E q p
  /-- Dropping `p` removes nothing of `q`. -/
  drop_left : DropSafe E db p q
  /-- Dropping `q` removes nothing of `p`. -/
  drop_right : DropSafe E db q p

/-- **When the type checks of two columns do not interfere.** For different columns with legal
names, exactly if the columns do not clash, in whatever transaction. -/
theorem nonInterfering_iff (E : Sqlite) (db : Connection) (p q : Target) (hp : p.Legal)
    (hq : q.Legal) (hne : p.folded ≠ q.folded) :
    NonInterfering E db p q ↔ ¬ Clash p.folded q.folded ∧ ¬ Clash q.folded p.folded := by
  have hapart : Apart p q ↔ ¬ Clash p.folded q.folded ∧ ¬ Clash q.folded p.folded := by
    rw [← not_or, ← exists_key_iff hne]
    push Not
    exact Iff.rfl
  rw [← hapart]
  constructor
  · exact fun h => h.apart
  · intro h
    exact ⟨h, addSafe_of_apart hp h, addSafe_of_apart hq (apart_comm.mp h),
      dropSafe_of_apart db hp h, dropSafe_of_apart db hq (apart_comm.mp h)⟩

/-- The columns `a` and `b` of the table `t` do not interfere. -/
theorem nonInterfering_pair :
    NonInterfering sample ⟨true, 1⟩ ⟨bytes ['t'], bytes ['a']⟩ ⟨bytes ['t'], bytes ['b']⟩ :=
  (nonInterfering_iff sample ⟨true, 1⟩ ⟨bytes ['t'], bytes ['a']⟩ ⟨bytes ['t'], bytes ['b']⟩
    (by decide) (by decide) (by decide)).mpr ⟨not_clash_of_table rfl, not_clash_of_table rfl⟩

/-- The column `x_insert_y` of the table `t`. -/
def longColumn : Target :=
  ⟨bytes ['t'], bytes ['x', '_', 'i', 'n', 's', 'e', 'r', 't', '_', 'y']⟩

/-- The column `y` of the table `t_insert_x`. -/
def longTable : Target :=
  ⟨bytes ['t', '_', 'i', 'n', 's', 'e', 'r', 't', '_', 'x'], bytes ['y']⟩

/-- Two columns with one name for their insert triggers. -/
theorem interfering_names :
    longColumn.Legal ∧ longTable.Legal ∧ longColumn.folded ≠ longTable.folded ∧
      triggerName .insert longColumn = triggerName .insert longTable ∧
      ∀ db, ¬ NonInterfering sample db longColumn longTable := by
  refine ⟨by decide, by decide, by decide, by decide, fun db h => ?_⟩
  exact h.apart .insert .insert (by decide)

end SqlCode.StrictTyping
