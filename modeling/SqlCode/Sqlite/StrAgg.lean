import SqlCode.Exec.Block
import SqlCode.Text.CString

/-!
# The aggregate `str_agg`

`str_agg` puts a delimiter between the texts of a column. Its context holds a block with the
text so far, and the number of the bytes in it. The delimiter is an array of characters
whose size counts the terminating zero, and so it is copied with it.

`strAggSteps_eq` gives the context after any number of steps: the text so far is that of
`delim`, zeros included, and the block has room for one more zero. From it, `joins_iff` says
which lists of texts are joined with `", "`. The lengths are variables of type `int`, and the
model follows a run only as long as they do not overflow (`asInt`).
-/

namespace SqlCode.Sqlite

open Exec Text

/-- The context, as far as the two functions use it. -/
structure SAggCtx where
  /-- The block with the text so far; `NULL` is `none`. -/
  result : Option (List Byte)
  /-- The number of its bytes. -/
  chrCnt : ℕ
  deriving DecidableEq, Repr

/-- The memory that `sqlite3_aggregate_context` allocates for the first step. -/
def SAggCtx.zeroed : SAggCtx := ⟨none, 0⟩

/-- What the texts should be joined with. -/
def separator : List Byte := bytes [',', ' ']

/-- `static const char delim[] = ", "`. -/
def delim : List Byte := separator ++ [0]

/-- `strlen`, on what the memory holds. -/
def strlen (s : List Byte) : ℕ := (s.takeWhile (· ≠ 0)).length

/-- A number that is kept in an `int`. -/
def asInt (n : ℕ) : Prog ℕ := if n < 2 ^ 31 then pure n else throw .exit

/-- `str_agg_step`. New memory holds whatever `junk` says. -/
def strAggStep (junk : ℕ → Byte) (p : SAggCtx) (value : List Byte) : Prog SAggCtx := do
  let txt := value ++ [0]
  let len ← asInt (strlen txt)
  match p.result with
  | none => do
    let size ← asInt (len + 1)
    let result ← memcpy (mallocBlock junk size) 0 txt (len + 1)
    pure ⟨some result, len⟩
  | some result => do
    let delimLen := delim.length
    let size ← asInt (p.chrCnt + len + delimLen + 1)
    let result := realloc junk result size
    let result ← memcpy result p.chrCnt delim delimLen
    let chrCnt ← asInt (p.chrCnt + delimLen)
    let result ← memcpy result chrCnt txt (len + 1)
    let chrCnt ← asInt (chrCnt + len)
    pure ⟨some result, chrCnt⟩

/-- `str_agg_finalize`: the bytes that `sqlite3_result_text` is told to take, or NULL. -/
def strAggFinalize (p : SAggCtx) : Prog (Option (List Byte)) :=
  match p.result with
  | none => pure none
  | some result =>
    if p.chrCnt ≤ result.length then pure (some (result.take p.chrCnt)) else throw .outOfBounds

/-- The steps of a group of rows, with the new memory of each. -/
def strAggSteps (junk : ℕ → ℕ → Byte) (vs : List (List Byte)) : Prog SAggCtx :=
  vs.zipIdx.foldlM (fun p v => strAggStep (junk v.2) p v.1) .zeroed

/-- `str_agg` of a group of rows. -/
def strAgg (junk : ℕ → ℕ → Byte) (vs : List (List Byte)) : Prog (Option (List Byte)) := do
  let p ← strAggSteps junk vs
  strAggFinalize p

/-- **Joining.** Before and after each step the text so far is counted and the block has room
for one byte more, and the result is the texts with `", "` in between. -/
structure Joins (vs : List (List Byte)) : Prop where
  counts : ∀ junk us, us <+: vs → Ends (strAggSteps junk us) fun p =>
    p.chrCnt = (separator.intercalate us).length ∧
      ∀ block, p.result = some block → block.length = p.chrCnt + 1
  result : ∀ junk, Ends (strAgg junk vs) (· = some (separator.intercalate vs))

variable {us vs : List (List Byte)} {v : List Byte}

/-! ### Joined texts -/

theorem intercalate_concat (sep : List Byte) (h : us ≠ []) (v : List Byte) :
    sep.intercalate (us ++ [v]) = sep.intercalate us ++ sep ++ v := by
  induction us with
  | nil => exact absurd rfl h
  | cons u us ih =>
    cases us with
    | nil => simp
    | cons u' us =>
      rw [List.cons_append, List.intercalate_cons_of_ne_nil (by simp), ih (by simp),
        List.intercalate_cons_cons]
      simp

/-- One separator less than there are texts. -/
theorem length_intercalate (sep : List Byte) (h : us ≠ []) :
    (sep.intercalate us).length + sep.length =
      (us.map List.length).sum + us.length * sep.length := by
  induction us with
  | nil => exact absurd rfl h
  | cons u us ih =>
    by_cases hus : us = []
    · subst hus
      simp
    · have hlen := ih hus
      rw [List.intercalate_cons_of_ne_nil hus, List.length_append, List.length_append,
        List.map_cons, List.sum_cons, List.length_cons, Nat.succ_mul]
      omega

/-- The zero in the delimiter makes the text longer. -/
theorem length_intercalate_delim (h : us ≠ []) :
    (delim.intercalate us).length + 1 = (separator.intercalate us).length + us.length := by
  have hdelim := length_intercalate delim h
  have hsep := length_intercalate separator h
  rw [show delim.length = 3 from rfl] at hdelim
  rw [show separator.length = 2 from rfl] at hsep
  omega

/-! ### The steps -/

theorem strlen_append (hv : 0 ∉ v) (s : List Byte) : strlen (v ++ 0 :: s) = v.length := by
  unfold strlen
  rw [List.takeWhile_append_of_pos]
  · simp
  · intro c hc
    exact decide_eq_true fun h => hv (h ▸ hc)

theorem asInt_of_lt {n : ℕ} (h : n < 2 ^ 31) : asInt n = pure n :=
  if_pos h

theorem fails_asInt {n : ℕ} (h : 2 ^ 31 ≤ n) : Raises (asInt n) := by
  rw [asInt, if_neg (by omega)]
  exact fails_throw (by decide)

/-- A length of which a size is computed that overflows. -/
theorem fails_asInt_bind {α : Type} {n : ℕ} {size : ℕ → ℕ} (h : 2 ^ 31 ≤ size n)
    (f : ℕ → ℕ → Prog α) :
    Raises (asInt n >>= fun len => asInt (size len) >>= f len) := by
  by_cases hn : n < 2 ^ 31
  · rw [asInt_of_lt hn, pure_bind]
    exact (fails_asInt h).bind_left _
  · exact (fails_asInt (not_lt.mp hn)).bind_left _

/-- The context with the text `acc` in it. -/
def SAggCtx.holding (acc : List Byte) : SAggCtx := ⟨some (acc ++ [0]), acc.length⟩

/-- **The first step** copies the text and its zero. -/
theorem strAggStep_zeroed (hv : 0 ∉ v) (hfit : v.length + 1 < 2 ^ 31) (junk : ℕ → Byte) :
    strAggStep junk .zeroed v = pure (.holding v) := by
  have hcopy : memcpy (mallocBlock junk (v.length + 1)) 0 (v ++ [0]) (v.length + 1) =
      pure (v ++ [0]) := by
    have h := @memcpy_fill _ [] (mallocBlock junk (v.length + 1)) (v ++ [0]) (by simp)
    simpa using h
  unfold strAggStep SAggCtx.zeroed
  dsimp only
  rw [strlen_append hv, asInt_of_lt (by omega), pure_bind, asInt_of_lt hfit, pure_bind, hcopy,
    pure_bind]
  rfl

/-- **A later step** puts the delimiter and the text behind the text so far. -/
theorem strAggStep_holding {acc : List Byte} (hv : 0 ∉ v)
    (hfit : (acc ++ delim ++ v).length + 1 < 2 ^ 31) (junk : ℕ → Byte) :
    strAggStep junk (.holding acc) v = pure (.holding (acc ++ delim ++ v)) := by
  have hlen : (acc ++ delim ++ v).length = acc.length + delim.length + v.length := by
    rw [List.length_append, List.length_append]
  rw [hlen] at hfit
  -- the zero behind the text so far is overwritten
  obtain ⟨w, hw, hwlen⟩ := exists_realloc_eq junk (u := acc) [0]
    (n := acc.length + v.length + delim.length + 1) (by omega)
  have hdelim : memcpy (acc ++ w) acc.length delim delim.length =
      pure (acc ++ delim ++ w.drop delim.length) := memcpy_append (by omega)
  have htext : memcpy (acc ++ delim ++ w.drop delim.length) (acc.length + delim.length) (v ++ [0])
      (v.length + 1) = pure (acc ++ delim ++ (v ++ [0])) := by
    have hfill : (v ++ [0]).length = (w.drop delim.length).length := by
      rw [List.length_drop, List.length_append, List.length_singleton]
      omega
    have h := @memcpy_fill _ (acc ++ delim) _ _ hfill
    rwa [List.length_append, List.length_append, List.length_singleton] at h
  unfold strAggStep SAggCtx.holding
  dsimp only
  rw [strlen_append hv, asInt_of_lt (by omega), pure_bind, asInt_of_lt (by omega), pure_bind, hw,
    hdelim, pure_bind, asInt_of_lt (by omega), pure_bind, htext, pure_bind,
    asInt_of_lt (by omega), pure_bind, hlen, List.append_assoc (acc ++ delim)]

/-- A step does not go through if the size of the block overflows. -/
theorem fails_strAggStep_zeroed (hv : 0 ∉ v) (hover : 2 ^ 31 ≤ v.length + 1) (junk : ℕ → Byte) :
    Raises (strAggStep junk .zeroed v) := by
  unfold strAggStep SAggCtx.zeroed
  dsimp only
  rw [strlen_append hv]
  apply fails_asInt_bind
  exact hover

theorem fails_strAggStep_holding {acc : List Byte} (hv : 0 ∉ v)
    (hover : 2 ^ 31 ≤ (acc ++ delim ++ v).length + 1) (junk : ℕ → Byte) :
    Raises (strAggStep junk (.holding acc) v) := by
  rw [List.length_append, List.length_append, Nat.add_right_comm acc.length] at hover
  unfold strAggStep SAggCtx.holding
  dsimp only
  rw [strlen_append hv]
  apply fails_asInt_bind
  exact hover

/-! ### Runs -/

/-- The context after the steps for `us`. -/
def contextAfter (us : List (List Byte)) : SAggCtx :=
  if us = [] then .zeroed else .holding (delim.intercalate us)

theorem contextAfter_of_ne (h : us ≠ []) :
    contextAfter us = .holding (delim.intercalate us) :=
  if_neg h

/-- The texts so far, followed by one more. -/
theorem contextAfter_step (us : List (List Byte)) (hv : 0 ∉ v) (junk : ℕ → Byte) :
    ((delim.intercalate (us ++ [v])).length + 1 < 2 ^ 31 →
      strAggStep junk (contextAfter us) v = pure (contextAfter (us ++ [v]))) ∧
    (2 ^ 31 ≤ (delim.intercalate (us ++ [v])).length + 1 →
      Raises (strAggStep junk (contextAfter us) v)) := by
  rw [contextAfter_of_ne (List.append_ne_nil_of_right_ne_nil us (List.cons_ne_nil v []))]
  by_cases hus : us = []
  · subst hus
    rw [List.nil_append, List.intercalate_singleton]
    exact ⟨fun hfit => strAggStep_zeroed hv hfit junk,
      fun hover => fails_strAggStep_zeroed hv hover junk⟩
  · rw [contextAfter_of_ne hus, intercalate_concat delim hus]
    exact ⟨fun hfit => strAggStep_holding hv hfit junk,
      fun hover => fails_strAggStep_holding hv hover junk⟩

theorem length_intercalate_le (us : List (List Byte)) (v : List Byte) :
    (delim.intercalate us).length ≤ (delim.intercalate (us ++ [v])).length := by
  by_cases hus : us = []
  · subst hus
    exact Nat.zero_le _
  · rw [intercalate_concat delim hus, List.append_assoc, List.length_append]
    exact Nat.le_add_right _ _

theorem strAggSteps_concat (junk : ℕ → ℕ → Byte) (us : List (List Byte)) (v : List Byte) :
    strAggSteps junk (us ++ [v]) =
      strAggSteps junk us >>= fun p => strAggStep (junk us.length) p v := by
  simp [strAggSteps, List.zipIdx_append]

/-- **A run** leaves the texts with the delimiter in between, zeros included. -/
theorem strAggSteps_eq (hnul : ∀ u ∈ us, 0 ∉ u)
    (hfit : (delim.intercalate us).length + 1 < 2 ^ 31) (junk : ℕ → ℕ → Byte) :
    strAggSteps junk us = pure (contextAfter us) := by
  induction us using List.reverseRecOn with
  | nil => rfl
  | append_singleton us v ih =>
    have hle := length_intercalate_le us v
    rw [strAggSteps_concat, ih (fun u hu => hnul u (List.mem_append_left _ hu)) (by omega),
      pure_bind]
    exact (contextAfter_step us (hnul v (by simp)) _).1 hfit

/-- A run does not go through if the size of the block overflows in it. -/
theorem fails_strAggSteps (hnul : ∀ u ∈ us, 0 ∉ u)
    (hover : 2 ^ 31 ≤ (delim.intercalate us).length + 1) (junk : ℕ → ℕ → Byte) :
    Raises (strAggSteps junk us) := by
  induction us using List.reverseRecOn with
  | nil => exact absurd hover (by decide)
  | append_singleton us v ih =>
    have hus : ∀ u ∈ us, 0 ∉ u := fun u hu => hnul u (List.mem_append_left _ hu)
    rw [strAggSteps_concat]
    by_cases hfit : (delim.intercalate us).length + 1 < 2 ^ 31
    · rw [strAggSteps_eq hus hfit, pure_bind]
      exact (contextAfter_step us (hnul v (by simp)) _).2 hover
    · exact (ih hus (by omega)).bind_left _

/-- What a run returns. -/
theorem strAgg_eq (hne : us ≠ []) (hnul : ∀ u ∈ us, 0 ∉ u)
    (hfit : (delim.intercalate us).length + 1 < 2 ^ 31) (junk : ℕ → ℕ → Byte) :
    strAgg junk us = pure (some (delim.intercalate us)) := by
  rw [strAgg, strAggSteps_eq hnul hfit, pure_bind, contextAfter_of_ne hne]
  unfold strAggFinalize SAggCtx.holding
  dsimp only
  rw [if_pos (by simp), List.take_left]

/-! ### Joining -/

/-- A text alone is copied, with nothing added. -/
theorem joins_singleton (hv : 0 ∉ v) (hfit : v.length + 1 < 2 ^ 31) : Joins [v] := by
  have hnul : ∀ u ∈ [v], 0 ∉ u := by simpa using hv
  have hsize : (delim.intercalate [v]).length + 1 < 2 ^ 31 := by
    rwa [List.intercalate_singleton]
  constructor
  · intro junk us hus
    rw [← List.nil_append [v], List.prefix_concat_iff] at hus
    rcases hus with rfl | hnil
    · rw [List.nil_append, strAggSteps_eq hnul hsize]
      refine ends_pure ⟨by simp [contextAfter, SAggCtx.holding], ?_⟩
      rintro block ⟨⟩
      simp [contextAfter, SAggCtx.holding]
    · rw [List.prefix_nil.mp hnil]
      exact ends_pure ⟨rfl, fun block h => by cases h⟩
  · intro junk
    rw [strAgg_eq (by simp) hnul hsize, List.intercalate_singleton]
    exact ends_pure (by simp)

/-- What the counts say about the lengths. -/
theorem Joins.lengths (h : Joins vs) (hne : vs ≠ []) (hnul : ∀ v ∈ vs, 0 ∉ v) :
    (delim.intercalate vs).length + 1 < 2 ^ 31 ∧
      (delim.intercalate vs).length = (separator.intercalate vs).length := by
  have hcount := h.counts (fun _ _ => 0) vs List.prefix_rfl
  have hfit : (delim.intercalate vs).length + 1 < 2 ^ 31 := by
    by_contra hover
    exact hcount.not_fails (fails_strAggSteps hnul (not_lt.mp hover) _)
  refine ⟨hfit, ?_⟩
  rw [strAggSteps_eq hnul hfit, contextAfter_of_ne hne, ends_pure_iff] at hcount
  exact hcount.1

/-- **`str_agg`** joins the texts of a group with `", "` if and only if there is only one. -/
theorem joins_iff (hne : vs ≠ []) (hnul : ∀ v ∈ vs, 0 ∉ v) :
    Joins vs ↔ ∃ v, vs = [v] ∧ v.length + 1 < 2 ^ 31 := by
  constructor
  · intro h
    obtain ⟨hfit, hlen⟩ := h.lengths hne hnul
    -- each text after the first one makes the count too large by one
    have hone : vs.length = 1 := by
      have := length_intercalate_delim hne
      omega
    obtain ⟨v, rfl⟩ := List.length_eq_one_iff.mp hone
    rw [List.intercalate_singleton] at hfit
    exact ⟨v, rfl, hfit⟩
  · rintro ⟨v, rfl, hfit⟩
    exact joins_singleton (hnul v List.mem_cons_self) hfit

theorem joins_one : Joins [[97, 98]] :=
  (joins_iff (by decide) (by decide)).mpr ⟨[97, 98], rfl, by decide⟩

/-- The result for `a` and `b` has a zero in it. -/
theorem not_joins_two :
    (∀ junk, Returns (strAgg junk [[97], [98]]) (some [97, 44, 32, 0, 98])) ∧
      ¬ Joins [[97], [98]] := by
  have hnul : ∀ v ∈ [[(97 : Byte)], [98]], 0 ∉ v := by decide
  constructor
  · intro junk
    rw [strAgg_eq (by decide) hnul (by decide)]
    exact returns_pure _
  · intro h
    exact absurd (h.lengths (by decide) hnul).2 (by decide)

end SqlCode.Sqlite
