import SqlCode.StrictTyping.Names
import Mathlib.Data.Finset.Basic

/-!
# Strict typing of columns

`column_type`, `install_type_trigger`, `uninstall_type_trigger`, `add_strict_type_check_udf`
and `drop_strict_type_check_udf` of `capi_ext/strict_typing.c`.

What they ask SQLite is in `Sqlite`. The catalog of triggers is in the state: creating a
trigger fails exactly if its name is taken, dropping one exactly if there is none. The
result of an SQL function is in the context: once an error has been set it stays one,
also if a value is set after it (`sqlite3_result_int` does not touch `isError`).

The triggers are created and dropped by statements that run inside the one that makes the
call, so they belong to its transaction: if the call ends in an error, it depends on the
connection whether they are rolled back (`vdbeHalt`). The functions themselves return the
catalog as it is before that.

A call that crashes is `none`. One crash is `strlen(NULL)` in `column_type`. When a statement
on a trigger fails, `buf[256] = '\\0'` is stored one past the end of `buf`, and
`Sqlite.fatalStore` says whether that is another one. Statement handles and memory that is
never freed are left out.
-/

namespace SqlCode.StrictTyping

open Text

/-- A row of `pragma table_info`. -/
structure Column where
  /-- `name`. -/
  name : List Byte
  /-- `pk`. -/
  pk : ℤ
  deriving DecidableEq, Repr

/-- What the program asks SQLite, and what its memory is like. -/
structure Sqlite where
  /-- The rows of `pragma table_info(table)`, or why it does not prepare. -/
  tableInfo : List Byte → Except (List Byte) (List Column)
  /-- No table has two columns of one name. -/
  nodup : ∀ table rows, tableInfo table = .ok rows → (rows.map fun c => foldCase c.name).Nodup
  /-- `sqlite3_column_decltype` of `select column from table;`, if that prepares: the declared
  type of the column, if it has one. -/
  declType : Target → Option (Option (List Byte))
  /-- Whether `select validate_type(null)` succeeds. -/
  validator : List Byte → Bool
  /-- What is in `buf[255]`. -/
  buf255 : Byte
  /-- Whether the store to `buf[256]` ends the process. -/
  fatalStore : Bool

/-- The names of the triggers, up to case. -/
abbrev Catalog := Finset (List Byte)

/-- What an SQL function returns. -/
inductive Value
  | null
  | int (i : ℤ)
  | text (s : List Byte)
  deriving DecidableEq, Repr

/-- `sqlite3_context`. -/
structure Context where
  /-- Whether the function ends in an error. -/
  isError : Bool
  /-- The result, or the message of the error. -/
  s : Value
  deriving DecidableEq, Repr

/-- The catalog, and the context of the running function. -/
structure State where
  /-- The triggers. -/
  catalog : Catalog
  /-- The context. -/
  ctx : Context
  deriving DecidableEq

/-- `sqlite3_result_error`. -/
def State.resultError (st : State) (msg : List Byte) : State :=
  { st with ctx := ⟨true, .text msg⟩ }

/-- `sqlite3_result_int`. -/
def State.resultInt (st : State) (i : ℤ) : State :=
  { st with ctx := { st.ctx with s := .int i } }

/-- `"column has no declared type"`. -/
def noTypeMsg : List Byte := bytes "column has no declared type".toList

/-- `"No validator exists for column type"`. -/
def noValidatorMsg : List Byte := bytes "No validator exists for column type".toList

/-- `"trigger %T already exists"`. -/
def existsMsg (name : List Byte) : List Byte :=
  bytes "trigger ".toList ++ name ++ bytes " already exists".toList

/-- `"no such trigger: %S"`. -/
def noSuchMsg (name : List Byte) : List Byte := bytes "no such trigger: ".toList ++ name

variable (E : Sqlite)

/-- The string in `buf` after `strncpy(&buf[0], err, 255)` and `buf[256] = '\0'`. -/
def copyMessage (err : List Byte) : List Byte :=
  if err.length < 255 then err else err.take 255 ++ [E.buf255].filter (· ≠ 0)

/-- `column_type`, which returns `NULL` or the type in lower case. -/
def columnType (p : Target) : Option (Option (List Byte)) :=
  match E.declType p with
  | none => some none
  -- `strlen` of the `NULL` of a column without a declared type
  | some none => none
  | some (some sqlType) => some (some (sqlType.map toLower))

/-- A statement on a trigger has failed with `err`. -/
def triggerFailed (err : List Byte) (st : State) : Option (ℤ × State) :=
  if E.fatalStore then none else some (1, st.resultError (copyMessage E err))

/-- `CREATE TRIGGER`. -/
def createTrigger (k : Kind) (p : Target) (st : State) : Except (List Byte) State :=
  if key k p ∈ st.catalog then .error (existsMsg (triggerName k p))
  else .ok { st with catalog := insert (key k p) st.catalog }

/-- `DROP TRIGGER`. -/
def dropTrigger (k : Kind) (p : Target) (st : State) : Except (List Byte) State :=
  if key k p ∈ st.catalog then .ok { st with catalog := st.catalog.erase (key k p) }
  else .error (noSuchMsg (triggerName k p))

/-- `install_type_trigger`. -/
def installTypeTrigger (p : Target) (st : State) : Option (ℤ × State) := do
  match ← columnType E p with
  | none => pure (1, st.resultError noTypeMsg)
  | some type =>
    if E.validator type = false then pure (1, st.resultError noValidatorMsg)
    else
      match createTrigger .insert p st with
      | .error err => triggerFailed E err st
      | .ok st =>
        match createTrigger .update p st with
        -- the insert trigger stays
        | .error err => triggerFailed E err st
        | .ok st => pure (0, st)

/-- `uninstall_type_trigger`. -/
def uninstallTypeTrigger (p : Target) (st : State) : Option (ℤ × State) :=
  match dropTrigger .insert p st with
  | .error err => triggerFailed E err st
  | .ok st =>
    match dropTrigger .update p st with
    | .error err => triggerFailed E err st
    | .ok st => pure (0, st)

/-- `'*'`. -/
abbrev star : Byte := 42

/-- The body of the loop over the rows of `pragma table_info`. -/
def checkRow (perColumn : Target → State → Option (ℤ × State)) (table : List Byte) (st : State)
    (c : Column) : Option State :=
  -- If not primary key
  if c.pk ≠ 1 then (perColumn ⟨table, c.name⟩ st).map Prod.snd else some st

/-- `add_strict_type_check_udf` and `drop_strict_type_check_udf`, which differ in the function
that they call for a column. -/
def strictTypeCheckUdf (perColumn : Target → State → Option (ℤ × State))
    (table column : List Byte) (catalog : Catalog) : Option State := do
  let st : State := ⟨catalog, ⟨false, .null⟩⟩
  -- `strncmp(column, "*", 1) == 0`
  if column.head? = some star then
    let (st, rows) := match E.tableInfo table with
      | .error err => (st.resultError err, [])
      | .ok rows => (st, rows)
    let st ← rows.foldlM (checkRow perColumn table) st
    -- here also after an error of the pragma or of a column
    pure (st.resultInt 0)
  else
    let (rc, st) ← perColumn ⟨table, column⟩ st
    if rc ≠ 0 then pure st else pure (st.resultInt 0)

/-- `add_strict_type_check_udf`. -/
def addStrictTypeCheck (table column : List Byte) (catalog : Catalog) : Option State :=
  strictTypeCheckUdf E (installTypeTrigger E) table column catalog

/-- `drop_strict_type_check_udf`. -/
def dropStrictTypeCheck (table column : List Byte) (catalog : Catalog) : Option State :=
  strictTypeCheckUdf E (uninstallTypeTrigger E) table column catalog

/-! ### The statement that makes the call -/

/-- The fields of `sqlite3` that decide what the end of a statement does. -/
structure Connection where
  /-- Whether no transaction was opened by `BEGIN`. -/
  autoCommit : Bool
  /-- The number of statements that run when this one ends, itself included. -/
  activeVdbeCnt : ℕ
  deriving DecidableEq, Repr

/-- `autoCommit && activeVdbeCnt==1`: the statement is a transaction of its own. -/
def Connection.ownTransaction (db : Connection) : Bool :=
  db.autoCommit && db.activeVdbeCnt == 1

/-- `sqlite3VdbeHalt` of a statement that found the catalog `before`. An error is the end of its
transaction if that is its own (`sqlite3RollbackAll`), and changes nothing otherwise: a
`SELECT` has no statement journal to roll back. -/
def vdbeHalt (db : Connection) (before : Catalog) (st : State) : State :=
  if db.ownTransaction && st.ctx.isError then { st with catalog := before } else st

/-- `select add_strict_type_check(table, column);`. -/
def selectAdd (db : Connection) (table column : List Byte) (catalog : Catalog) : Option State :=
  (addStrictTypeCheck E table column catalog).map (vdbeHalt db catalog)

/-- `select drop_strict_type_check(table, column);`. -/
def selectDrop (db : Connection) (table column : List Byte) (catalog : Catalog) : Option State :=
  (dropStrictTypeCheck E table column catalog).map (vdbeHalt db catalog)

end SqlCode.StrictTyping
