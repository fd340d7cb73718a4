import SqlCode.Exec.Cells
import SqlCode.Exec.SignedSum
import Mathlib.Data.List.ReduceOption

/-!
# The additions of `add_func.c`

The three functions that the extension adds to the database. `add_int32_array` adds up what
is not NULL in an array of `int4`; `add_ab_null` does so for two arguments, and `add_ab` for
two arguments that are never NULL.

What `+` does when the sum of two `int32` values does not fit depends on the compiler, so
the addition is a parameter here. `addInt32Array_eq` reduces the loop, which looks for NULLs
on its way, to the running sum of the remaining elements (`Exec.accumulate`), and
`sumsNonNull_iff` says for which arrays that is their sum.
-/

namespace SqlCode.AddFunc

open Exec

/-- The error codes that the functions report. -/
inductive ErrCode
  /-- `ERRCODE_ARRAY_SUBSCRIPT_ERROR` -/
  | arraySubscriptError
  deriving DecidableEq, Repr

/-- What a function hands back to the database. -/
inductive Outcome
  /-- `PG_RETURN_INT32(v)` -/
  | int32 (v : BitVec 32)
  /-- `PG_RETURN_NULL()` -/
  | null
  /-- `ereport(ERROR, (errcode(code), errmsg(message)))` -/
  | error (code : ErrCode) (message : String)
  deriving DecidableEq, Repr

/-- An array of `n` elements of type `int4`. -/
structure ArrayType (n : ℕ) where
  /-- `ARR_NDIM` -/
  ndim : ℕ
  /-- The elements; a NULL is `none`. -/
  elems : Vector (Option (BitVec 32)) n

variable {n : ℕ}

/-- `deconstruct_array`: the data and the NULL flags. The datum of a NULL is zero. -/
def deconstructArray (a : ArrayType n) : Vector (BitVec 32) n × Vector Bool n :=
  (a.elems.map (·.getD 0), a.elems.map (·.isNone))

/-- The end of the functions that know of NULL. -/
def returnSum (sum : BitVec 32) (notNull : Bool) : Outcome :=
  if notNull then .int32 sum else .null

/-- `add_int32_array`. -/
def addInt32Array (add : BitVec 32 → BitVec 32 → Prog (BitVec 32)) (inputArray : ArrayType n) :
    Prog Outcome :=
  if inputArray.ndim > 1 then
    pure (.error .arraySubscriptError "1-dimensional array needed")
  else do
    let (datums, nulls) := deconstructArray inputArray
    let s ← forRange 0 n ((0 : BitVec 32), false) fun i s => do
      if ← rd nulls i then pure s
      else
        let sum ← add s.1 (← rd datums i)
        pure (sum, true)
    pure (returnSum s.1 s.2)

/-- `add_ab`. -/
def addAb (add : BitVec 32 → BitVec 32 → Prog (BitVec 32)) (a b : BitVec 32) : Prog Outcome := do
  let sum ← add a b
  pure (.int32 sum)

/-- `add_ab_null`. -/
def addAbNull (add : BitVec 32 → BitVec 32 → Prog (BitVec 32)) (a b : Option (BitVec 32)) :
    Prog Outcome := do
  let s ← match a with
    | none => pure (0, false)
    | some a => do
      let sum ← add 0 a
      pure (sum, true)
  let s ← match b with
    | none => pure s
    | some b => do
      let sum ← add s.1 b
      pure (sum, true)
  pure (returnSum s.1 s.2)

/-- The elements that are not NULL. -/
def ArrayType.nonNull (a : ArrayType n) : List (BitVec 32) := a.elems.toList.reduceOption

/-- The result is NULL if there is nothing to add, and otherwise the true sum. -/
def SumsNonNull (add : BitVec 32 → BitVec 32 → Prog (BitVec 32)) (a : ArrayType n) : Prop :=
  Ends (addInt32Array add a) fun r =>
    (r = .null ↔ a.nonNull = []) ∧
      (a.nonNull ≠ [] → ∃ v, r = .int32 v ∧ v.toInt = total a.nonNull)

variable {add : BitVec 32 → BitVec 32 → Prog (BitVec 32)} {a : ArrayType n}

/-! ### The loop -/

/-- One round of the loop, on the element that it looks at. -/
private def addElem (add : BitVec 32 → BitVec 32 → Prog (BitVec 32)) (s : BitVec 32 × Bool) :
    Option (BitVec 32) → Prog (BitVec 32 × Bool)
  | none => pure s
  | some v => do
    let sum ← add s.1 v
    pure (sum, true)

/-- The rounds skip what is NULL and remember whether there was anything else. -/
private theorem foldlM_addElem (os : List (Option (BitVec 32))) :
    os.foldlM (addElem add) (0, false) =
      accumulate add os.reduceOption >>= fun sum => pure (sum, !os.reduceOption.isEmpty) := by
  induction os using List.reverseRecOn with
  | nil => rfl
  | append_singleton os o ih =>
    rw [List.foldlM_append, ih, List.reduceOption_append]
    cases o with
    | none => simp [addElem]
    | some v =>
      have hone : [some v].reduceOption = [v] := rfl
      have hne : (os.reduceOption ++ [v]).isEmpty = false := by simp
      rw [hone, accumulate_append, hne]
      simp [addElem]

/-- **The loop** adds up the elements that are not NULL. -/
theorem addInt32Array_eq (h : a.ndim ≤ 1) :
    addInt32Array add a =
      accumulate add a.nonNull >>= fun sum => pure (returnSum sum (!a.nonNull.isEmpty)) := by
  unfold addInt32Array deconstructArray
  rw [if_neg (by omega)]
  dsimp only
  rw [forRange_eq_foldlM a.elems (addElem add), foldlM_addElem, bind_assoc]
  · simp only [pure_bind, ArrayType.nonNull]
  · intro i hi s
    have hnull : rd (a.elems.map (·.isNone)) i = pure a.elems[i].isNone := by
      rw [rd, dif_pos hi, Vector.getElem_map]
    have hdatum : rd (a.elems.map (·.getD 0)) i = pure (a.elems[i].getD 0) := by
      rw [rd, dif_pos hi, Vector.getElem_map]
    rw [hnull, hdatum, pure_bind, pure_bind]
    cases a.elems[i] <;> rfl

/-! ### When the sum is right -/

theorem returnSum_true_injective : Function.Injective fun sum => returnSum sum true := by
  intro v v' h
  exact Outcome.int32.inj h

/-- The function is right where the running sum of its elements is. -/
theorem sumsNonNull_iff_accumulates (h : a.ndim ≤ 1) :
    SumsNonNull add a ↔ Accumulates add a.nonNull := by
  unfold SumsNonNull
  rw [addInt32Array_eq h]
  by_cases hnil : a.nonNull = []
  · -- there is nothing to add, and nothing is added
    have hacc : Accumulates add [] := ends_pure rfl
    rw [hnil]
    refine iff_of_true ?_ hacc
    exact hacc.bind fun sum _ => ends_pure ⟨by simp [returnSum], fun hne => absurd rfl hne⟩
  · have hne : (!a.nonNull.isEmpty) = true := by simpa using hnil
    rw [hne, ends_bind_pure_iff returnSum_true_injective]
    have hpost (sum : BitVec 32) :
        ((returnSum sum true = .null ↔ a.nonNull = []) ∧
          (a.nonNull ≠ [] → ∃ v, returnSum sum true = .int32 v ∧ v.toInt = total a.nonNull)) ↔
        sum.toInt = total a.nonNull := by
      simp [returnSum, hnil]
    simp only [hpost]
    rfl

/-- **`add_int32_array`.** With an addition that wraps around, the result is right if and
only if the sum fits an `int32`. With all additions that C allows, it is right if and only
if no partial sum overflows either. -/
theorem sumsNonNull_iff (h : a.ndim ≤ 1) :
    (SumsNonNull wrapAdd a ↔ Fits 32 (total a.nonNull)) ∧
      ((∀ add, SignedAdd add → SumsNonNull add a) ↔
        ∀ ps, ps <+: a.nonNull → Fits 32 (total ps)) := by
  constructor
  · rw [sumsNonNull_iff_accumulates h, accumulates_wrapAdd_iff]
  · rw [← accumulates_iff]
    exact forall₂_congr fun add _ => sumsNonNull_iff_accumulates h

/-- An overflow on the way is undone by a later element, if it only wraps around. -/
theorem sumsNonNull_transient :
    SumsNonNull wrapAdd ⟨1, #v[some 2147483647, none, some 1, some (-1)]⟩ ∧
      ¬ ∀ add, SignedAdd add →
        SumsNonNull add ⟨1, #v[some 2147483647, none, some 1, some (-1)]⟩ := by
  obtain ⟨hwrap, hall⟩ := sumsNonNull_iff (n := 4)
    (a := ⟨1, #v[some 2147483647, none, some 1, some (-1)]⟩) (by decide)
  refine ⟨hwrap.mpr (by decide), fun h => ?_⟩
  exact absurd (hall.mp h [2147483647, 1] (by decide)) (by decide)

/-- The sum of the largest `int32` and one is negative. -/
theorem not_sumsNonNull :
    Returns (addInt32Array wrapAdd ⟨1, #v[some 2147483647, some 1]⟩) (.int32 (-2147483648)) ∧
      ¬ SumsNonNull wrapAdd ⟨1, #v[some 2147483647, some 1]⟩ := by
  constructor
  · rw [addInt32Array_eq le_rfl]
    exact returns_pure _
  · rw [sumsNonNull_iff_accumulates (by decide), accumulates_wrapAdd_iff]
    decide

/-! ### The functions of two arguments -/

/-- `add_ab_null` treats its arguments as `add_int32_array` does those of an array. -/
theorem addAbNull_eq (a b : Option (BitVec 32)) :
    addAbNull add a b = addInt32Array add ⟨1, #v[a, b]⟩ := by
  have hlist : (⟨1, #v[a, b]⟩ : ArrayType 2).nonNull = [a, b].reduceOption := rfl
  rw [addInt32Array_eq le_rfl, hlist]
  cases a <;> cases b <;> simp [addAbNull, accumulate]

/-- `add_ab` is `add_ab_null` on two numbers. -/
theorem addAb_eq (hadd : SignedAdd add) (a b : BitVec 32) :
    addAb add a b = addAbNull add (some a) (some b) := by
  have hzero : add 0#32 a = pure a := by
    have h := hadd 0#32 a (by simpa using fits_toInt a)
    rwa [BitVec.zero_add] at h
  simp [addAb, addAbNull, hzero, returnSum]

end SqlCode.AddFunc
