import SqlCode.Exec.Prog
import SqlCode.Order.Comparator
import SqlCode.Text.CString
import Mathlib.Data.List.Shortlex

/-!
# The collation `length_first_collation`

SQLite hands a collation two strings as a pointer and a length each. What lies behind the
bytes of a string is not the string's, but `length_first_collation` compares strings of
equal length with `strcmp`, which pays no attention to the lengths: it stops at a zero
inside the strings, and without one it goes on behind them.

* `returns_strcmpMem_zero_iff` — `strcmp` finds two places of the memory equal if and only if
  they agree up to a zero.
* `strcmpMem_append` — it goes on behind a common start without a zero.
* `totallyOrdered_iff` — hence the collation is the order by length and bytes on a set of
  arguments if and only if any two of them of the same length are `Separable`.
-/

namespace SqlCode.Sqlite

open Exec Text Comparator

/-- A string as SQLite passes it. -/
structure Passed where
  /-- The bytes of the string; their number is the length that is passed. -/
  text : List Byte
  /-- The bytes behind them, as far as they can be read. -/
  beyond : List Byte
  deriving DecidableEq, Repr

/-- What the pointer points to. -/
def Passed.memory (a : Passed) : List Byte := a.text ++ a.beyond

/-- `strcmp(s1, s2)`, on what the memory holds from `s1` and from `s2` on. -/
def strcmpMem : List Byte → List Byte → Prog ℤ
  | c :: s, d :: t =>
    if c < d then pure (-1) else if d < c then pure 1 else if c = 0 then pure 0 else strcmpMem s t
  | _, _ => throw .outOfBounds

/-- `length_first_collation`. The variable `result` starts with whatever `junk` is. -/
def lengthFirstCollation (junk : ℤ) (l1 : ℕ) (s1 : List Byte) (l2 : ℕ) (s2 : List Byte) : Prog ℤ :=
  let result := junk
  let result := if l1 = l2 then 0 else result
  let result := if l1 < l2 then 1 else result
  let result := if l1 > l2 then 2 else result
  match result with
  | 0 => strcmpMem s1 s2
  | 1 => pure (-result)
  | 2 => pure result
  | _ => strcmpMem s1 s2

/-- The call that compares two strings. -/
def collate (junk : ℤ) (a b : Passed) : Prog ℤ :=
  lengthFirstCollation junk a.text.length a.memory b.text.length b.memory

/-- On the strings of `V` the collation computes `f`, which depends on their bytes alone and
is a comparison by length and then by bytes. -/
structure OrderedBy (f : List Byte → List Byte → ℤ) (V : Set Passed) : Prop where
  returns : ∀ a ∈ V, ∀ b ∈ V, ∀ junk, Returns (collate junk a b) (f a.text b.text)
  proper : ProperOn (fun _ : Unit => f) (Passed.text '' V)
  eq_zero_iff : ∀ s ∈ Passed.text '' V, ∀ t ∈ Passed.text '' V, f s t = 0 ↔ s = t
  neg_iff : ∀ s ∈ Passed.text '' V, ∀ t ∈ Passed.text '' V,
    f s t < 0 ↔ List.Shortlex (· < ·) s t

/-- The collation is a total order on the strings of `V`. -/
def TotallyOrdered (V : Set Passed) : Prop := ∃ f, OrderedBy f V

/-- If the strings differ, no zero is in front of their first difference. If they are equal,
the memory from their starts on agrees up to a zero, be it inside or behind them. -/
structure Separable (a b : Passed) : Prop where
  of_ne : ∀ u c d s t, a.text = u ++ c :: s → b.text = u ++ d :: t → c ≠ d → 0 ∉ u
  of_eq : a.text = b.text → ∃ u s t, a.memory = u ++ 0 :: s ∧ b.memory = u ++ 0 :: t

/-! ### `strcmp` -/

/-- Nothing behind a common zero is looked at. -/
theorem returns_strcmpMem_zero (u s t : List Byte) :
    Returns (strcmpMem (u ++ 0 :: s) (u ++ 0 :: t)) 0 := by
  induction u with
  | nil => exact returns_pure 0
  | cons c u ih =>
    rw [List.cons_append, List.cons_append, strcmpMem, if_neg (UInt8.lt_irrefl c),
      if_neg (UInt8.lt_irrefl c)]
    split
    · exact returns_pure 0
    · exact ih

theorem returns_strcmpMem_zero_iff {s t : List Byte} :
    Returns (strcmpMem s t) 0 ↔ ∃ u s' t', s = u ++ 0 :: s' ∧ t = u ++ 0 :: t' := by
  constructor
  · intro h
    fun_induction strcmpMem s t with
    | case1 c s d t hlt => cases h.unique (returns_pure _)
    | case2 c s d t hlt hgt => cases h.unique (returns_pure _)
    | case3 s d t hlt hgt =>
      obtain rfl : 0 = d := UInt8.le_antisymm (UInt8.not_lt.mp hgt) (UInt8.not_lt.mp hlt)
      exact ⟨[], s, t, rfl, rfl⟩
    | case4 c s d t hlt hgt hc ih =>
      obtain rfl : c = d := UInt8.le_antisymm (UInt8.not_lt.mp hgt) (UInt8.not_lt.mp hlt)
      obtain ⟨u, s', t', rfl, rfl⟩ := ih h
      exact ⟨c :: u, s', t', rfl, rfl⟩
    | case5 => exact absurd h ((fails_throw (E := fun _ => True) trivial).not_returns 0)
  · rintro ⟨u, s', t', rfl, rfl⟩
    exact returns_strcmpMem_zero u s' t'

/-- A common start without a zero is skipped. -/
theorem strcmpMem_append {u : List Byte} (hu : 0 ∉ u) (s t : List Byte) :
    strcmpMem (u ++ s) (u ++ t) = strcmpMem s t := by
  induction u with
  | nil => rfl
  | cons c u ih =>
    rw [List.mem_cons, not_or] at hu
    rw [List.cons_append, List.cons_append, strcmpMem, if_neg (UInt8.lt_irrefl c),
      if_neg (UInt8.lt_irrefl c), if_neg (Ne.symm hu.1), ih hu.2]

/-- The first difference decides, if there is no zero in front of it. -/
theorem strcmpMem_of_ne {u : List Byte} {c d : Byte} (hu : 0 ∉ u) (hcd : c ≠ d)
    (s t s' t' : List Byte) :
    strcmpMem (u ++ c :: s ++ s') (u ++ d :: t ++ t') =
      pure (strcmp (u ++ c :: s) (u ++ d :: t)) := by
  rw [strcmp_append, List.append_assoc, List.append_assoc, strcmpMem_append hu]
  simp only [List.cons_append, strcmpMem, strcmp]
  split_ifs with hlt hgt hc
  · rfl
  · rfl
  all_goals
    exact absurd (UInt8.le_antisymm (UInt8.not_lt.mp hgt) (UInt8.not_lt.mp hlt)) hcd

/-! ### The order by length and bytes -/

/-- What the collation is meant to compute. -/
def byLength (s t : List Byte) : ℤ :=
  if s.length < t.length then -1 else if t.length < s.length then 2 else strcmp s t

theorem byLength_neg_iff {s t : List Byte} : byLength s t < 0 ↔ List.Shortlex (· < ·) s t := by
  unfold byLength
  rw [List.shortlex_def]
  split_ifs with hlt hgt
  · exact iff_of_true (by decide) (.inl hlt)
  · exact iff_of_false (by decide) (by omega)
  · have hlen : s.length = t.length := by omega
    rw [strcmp_neg_iff]
    simp [hlen]

theorem byLength_pos_iff {s t : List Byte} : 0 < byLength s t ↔ List.Shortlex (· < ·) t s := by
  unfold byLength
  rw [List.shortlex_def]
  split_ifs with hlt hgt
  · exact iff_of_false (by decide) (by omega)
  · exact iff_of_true (by decide) (.inl hgt)
  · have hlen : s.length = t.length := by omega
    rw [strcmp_pos_iff]
    simp [hlen]

/-- The order by length and bytes is strict and total. -/
instance : IsStrictTotalOrder (List Byte) (List.Shortlex (· < ·)) where
  irrefl _ h := asymm h h
  trans s t u hst htu := by
    rw [List.shortlex_def] at hst htu ⊢
    rcases hst with hlt | ⟨heq, hst⟩
    · exact .inl (by omega)
    rcases htu with hlt | ⟨heq', htu⟩
    · exact .inl (by omega)
    · exact .inr ⟨heq.trans heq', List.lt_trans hst htu⟩

theorem byLength_eq_zero_iff {s t : List Byte} : byLength s t = 0 ↔ s = t := by
  constructor
  · intro h
    rcases trichotomous_of (List.Shortlex (α := Byte) (· < ·)) s t with hst | rfl | hts
    · exact absurd h (byLength_neg_iff.mpr hst).ne
    · rfl
    · exact absurd h (byLength_pos_iff.mpr hts).ne'
  · rintro rfl
    have hself : ¬ List.Shortlex (· < ·) s s := irrefl s
    apply le_antisymm
    · exact not_lt.mp fun h => hself (byLength_pos_iff.mp h)
    · exact not_lt.mp fun h => hself (byLength_neg_iff.mp h)

theorem properOn_byLength (D : Set (List Byte)) : ProperOn (fun _ : Unit => byLength) D :=
  properOn_of_lt (fun _ _ _ _ _ _ => rfl) (fun _ _ _ _ _ => byLength_neg_iff)
    fun _ _ _ _ _ => byLength_pos_iff

/-! ### The collation -/

/-- One of the three tests succeeds, so it does not matter what `result` was before. -/
theorem collate_eq (junk : ℤ) (a b : Passed) :
    collate junk a b =
      if a.text.length < b.text.length then pure (-1)
      else if b.text.length < a.text.length then pure 2 else strcmpMem a.memory b.memory := by
  unfold collate lengthFirstCollation
  rcases lt_trichotomy a.text.length b.text.length with hlt | heq | hgt
  · simp [hlt, hlt.not_gt]
  · simp [heq]
  · simp [hgt, hgt.not_gt]

/-- Texts of the same length that differ have a first difference. -/
theorem exists_first_difference {s t : List Byte} (hlen : s.length = t.length) (hne : s ≠ t) :
    ∃ u c d s' t', s = u ++ c :: s' ∧ t = u ++ d :: t' ∧ c ≠ d := by
  induction s generalizing t with
  | nil => exact absurd (List.length_eq_zero_iff.mp hlen.symm).symm hne
  | cons c s ih =>
    obtain ⟨d, t, rfl⟩ := List.exists_cons_of_length_eq_add_one hlen.symm
    by_cases hcd : c = d
    · subst hcd
      have hst : s ≠ t := fun h => hne (congrArg _ h)
      obtain ⟨u, c', d', s', t', rfl, rfl, hcd⟩ := ih (Nat.succ.inj hlen) hst
      exact ⟨c :: u, c', d', s', t', rfl, rfl, hcd⟩
    · exact ⟨[], c, d, s, t, rfl, rfl, hcd⟩

/-- A pair that can be told apart is collated by length and bytes. -/
theorem returns_collate {a b : Passed} (h : a.text.length = b.text.length → Separable a b)
    (junk : ℤ) : Returns (collate junk a b) (byLength a.text b.text) := by
  rw [collate_eq, byLength]
  split_ifs with hlt hgt
  · exact returns_pure _
  · exact returns_pure _
  have hlen : a.text.length = b.text.length := by omega
  by_cases heq : a.text = b.text
  · obtain ⟨u, s, t, hs, ht⟩ := (h hlen).of_eq heq
    rw [hs, ht, heq, strcmp_self]
    exact returns_strcmpMem_zero u s t
  · obtain ⟨u, c, d, s, t, hs, ht, hcd⟩ := exists_first_difference hlen heq
    have hu : 0 ∉ u := (h hlen).of_ne u c d s t hs ht hcd
    rw [Passed.memory, Passed.memory, hs, ht, strcmpMem_of_ne hu hcd]
    exact returns_pure _

/-- Two strings of one length that are collated by their bytes can be told apart. -/
theorem OrderedBy.separable {f : List Byte → List Byte → ℤ} {V : Set Passed} (hf : OrderedBy f V)
    {a b : Passed} (ha : a ∈ V) (hb : b ∈ V) (hlen : a.text.length = b.text.length) :
    Separable a b := by
  have hf0 : f a.text b.text = 0 ↔ a.text = b.text :=
    hf.eq_zero_iff _ ⟨a, ha, rfl⟩ _ ⟨b, hb, rfl⟩
  have hcmp : Returns (strcmpMem a.memory b.memory) (f a.text b.text) := by
    have h := hf.returns a ha b hb 0
    rwa [collate_eq, if_neg hlen.not_lt, if_neg hlen.not_gt] at h
  constructor
  · intro u c d s t hs ht hcd hu
    -- otherwise the comparison ends at the zero, with equality
    obtain ⟨p, q, rfl⟩ := List.append_of_mem hu
    have hzero : Returns (strcmpMem a.memory b.memory) 0 := by
      rw [returns_strcmpMem_zero_iff]
      refine ⟨p, q ++ c :: s ++ a.beyond, q ++ d :: t ++ b.beyond, ?_, ?_⟩
      · rw [Passed.memory, hs]
        simp
      · rw [Passed.memory, ht]
        simp
    have heq : a.text = b.text := hf0.mp (hcmp.unique hzero)
    rw [hs, ht] at heq
    exact hcd (List.cons.inj (List.append_cancel_left heq)).1
  · intro heq
    rw [hf0.mpr heq] at hcmp
    exact returns_strcmpMem_zero_iff.mp hcmp

theorem totallyOrdered_of_separable {V : Set Passed}
    (h : ∀ a ∈ V, ∀ b ∈ V, a.text.length = b.text.length → Separable a b) : TotallyOrdered V :=
  ⟨byLength, fun a ha b hb junk => returns_collate (h a ha b hb) junk, properOn_byLength _,
    fun _ _ _ _ => byLength_eq_zero_iff, fun _ _ _ _ => byLength_neg_iff⟩

/-- The strings of C, which have no zero inside and one behind them, are ordered. -/
theorem totallyOrdered_terminated {V : Set Passed}
    (h : ∀ a ∈ V, 0 ∉ a.text ∧ ∃ r, a.beyond = 0 :: r) : TotallyOrdered V := by
  refine totallyOrdered_of_separable fun a ha b hb _ => ⟨?_, ?_⟩
  · intro u c d s t hs _ _ hu
    refine (h a ha).1 ?_
    rw [hs]
    exact List.mem_append_left _ hu
  · intro heq
    obtain ⟨-, r, hr⟩ := h a ha
    obtain ⟨-, r', hr'⟩ := h b hb
    exact ⟨a.text, r, r', by rw [Passed.memory, hr], by rw [Passed.memory, hr', heq]⟩

/-- **`length_first_collation`** is a total order on the strings of `V` if and only if any two
of the same length can be told apart by `strcmp`. -/
theorem totallyOrdered_iff (V : Set Passed) :
    TotallyOrdered V ↔ ∀ a ∈ V, ∀ b ∈ V, a.text.length = b.text.length → Separable a b := by
  constructor
  · rintro ⟨f, hf⟩ a ha b hb hlen
    exact hf.separable ha hb hlen
  · exact totallyOrdered_of_separable

/-- Strings that differ behind a zero are taken to be equal, and equal strings with different
bytes behind them are not. -/
theorem not_totallyOrdered :
    ((∀ junk, Returns (collate junk ⟨[97, 0, 98], []⟩ ⟨[97, 0, 99], []⟩) 0) ∧
      ¬ TotallyOrdered {⟨[97, 0, 98], []⟩, ⟨[97, 0, 99], []⟩}) ∧
    (∀ junk, Returns (collate junk ⟨[97], [120, 0]⟩ ⟨[97], [121, 0]⟩) (-1)) ∧
      ¬ TotallyOrdered {⟨[97], [120, 0]⟩, ⟨[97], [121, 0]⟩} := by
  have hequal (junk : ℤ) : Returns (collate junk ⟨[97, 0, 98], []⟩ ⟨[97, 0, 99], []⟩) 0 := by
    rw [collate_eq]
    exact returns_pure 0
  have hbelow (junk : ℤ) : Returns (collate junk ⟨[97], [120, 0]⟩ ⟨[97], [121, 0]⟩) (-1) := by
    rw [collate_eq]
    exact returns_pure (-1)
  refine ⟨⟨hequal, ?_⟩, hbelow, ?_⟩
  · rintro ⟨f, hf⟩
    have hsep := hf.separable (.inl rfl) (.inr rfl) rfl
    -- the first difference is behind the zero
    exact absurd (hsep.of_ne [97, 0] 98 99 [] [] rfl rfl (by decide)) (by decide)
  · rintro ⟨f, hf⟩
    have hret := hf.returns _ (.inl rfl) _ (.inr rfl) 0
    have hzero : f [97] [97] = 0 := (hf.eq_zero_iff _ ⟨_, .inl rfl, rfl⟩ _ ⟨_, .inr rfl, rfl⟩).mpr rfl
    rw [hzero] at hret
    exact absurd (hret.unique (hbelow 0)) (by decide)

end SqlCode.Sqlite
