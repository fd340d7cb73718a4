import SqlCode.Text.CString
import Mathlib.Data.Finset.Insert

/-!
# The names of the type-checking triggers

`install_type_trigger` and `uninstall_type_trigger` of `capi_ext/strict_typing.c` name the
triggers of a column `<table>_insert_<column>_typecheck_tr` and
`<table>_update_<column>_typecheck_tr`. SQLite compares names without regard to case, so a
catalog is a set of folded names (`key`).

The separators may occur in the names of tables and columns. Two different columns have
triggers of one name exactly if they `Clash` (`exists_key_iff`). The only overlap of a separator
with another one is its underscore, which is what the two cases of `Clash` come from.
-/

namespace SqlCode.StrictTyping

open Text

/-- The two triggers of a column. -/
inductive Kind
  | insert | update
  deriving DecidableEq, Repr

/-- `insert` or `update`. -/
def Kind.word : Kind → List Byte
  | .insert => bytes ['i', 'n', 's', 'e', 'r', 't']
  | .update => bytes ['u', 'p', 'd', 'a', 't', 'e']

/-- `'_'`. -/
abbrev underscore : Byte := 95

/-- What stands between the table and the column. -/
def Kind.sep (k : Kind) : List Byte := underscore :: k.word ++ [underscore]

/-- `_typecheck_tr`. -/
def typecheckTr : List Byte :=
  bytes ['_', 't', 'y', 'p', 'e', 'c', 'h', 'e', 'c', 'k', '_', 't', 'r']

/-- A column of a table. -/
@[ext] structure Target where
  /-- The table. -/
  table : List Byte
  /-- The column. -/
  column : List Byte
  deriving DecidableEq, Repr

/-- `%s_insert_%s_typecheck_tr` and `%s_update_%s_typecheck_tr`. -/
def triggerName (k : Kind) (p : Target) : List Byte :=
  p.table ++ k.sep ++ p.column ++ typecheckTr

/-- The name up to the case of its letters. -/
def foldCase (s : List Byte) : List Byte := s.map toLower

/-- The names of a target up to the case of their letters. -/
def Target.folded (p : Target) : Target := ⟨foldCase p.table, foldCase p.column⟩

/-- What a catalog finds a trigger by. -/
def key (k : Kind) (p : Target) : List Byte := foldCase (triggerName k p)

/-- **Clashing columns.** The table of `q` is that of `p` with `_insert` or `_update` and maybe
more behind it, and the column of `p` is that of `q` with the rest in front. -/
def Clash (p q : Target) : Prop :=
  ∃ k l : Kind,
    (q.table = p.table ++ underscore :: k.word ∧ p.column = l.word ++ underscore :: q.column) ∨
    ∃ v, q.table = p.table ++ k.sep ++ v ∧ p.column = v ++ l.sep ++ q.column

variable {p q : Target} {k l : Kind}

@[simp] theorem foldCase_append (s t : List Byte) :
    foldCase (s ++ t) = foldCase s ++ foldCase t :=
  List.map_append

theorem foldCase_sep (k : Kind) : foldCase k.sep = k.sep := by
  cases k <;> decide

@[simp] theorem sep_length (k : Kind) : k.sep.length = 8 := by
  cases k <;> rfl

theorem sep_injective : Function.Injective Kind.sep := by
  intro k l h
  cases k <;> cases l <;> first | rfl | exact absurd h (by decide)

theorem key_eq (k : Kind) (p : Target) :
    key k p = p.folded.table ++ (k.sep ++ p.folded.column) ++ foldCase typecheckTr := by
  unfold key triggerName Target.folded
  simp only [foldCase_append, foldCase_sep, List.append_assoc]

/-- The names are equal if what stands before their common end is. -/
theorem key_eq_key_iff : key k p = key l q ↔
    p.folded.table ++ (k.sep ++ p.folded.column) =
      q.folded.table ++ (l.sep ++ q.folded.column) := by
  rw [key_eq, key_eq, List.append_cancel_right_eq]

/-- Names of one table are equal only for the same kind and the same column. -/
theorem key_eq_key_of_table (h : p.folded.table = q.folded.table) :
    key k p = key l q ↔ k = l ∧ p.folded.column = q.folded.column := by
  rw [key_eq_key_iff, h, List.append_cancel_left_eq]
  constructor
  · intro heq
    obtain ⟨hsep, hcol⟩ := List.append_inj heq (by simp)
    exact ⟨sep_injective hsep, hcol⟩
  · rintro ⟨rfl, hcol⟩
    rw [hcol]

/-- **The overlaps of the separators.** The end of one is the start of another only as a whole, as
the underscore, or as nothing. -/
theorem sep_overlap (k l : Kind) : ∀ n : Fin 9, k.sep.drop (8 - n) = l.sep.take n →
    n = 0 ∨ n = 1 ∨ n = 8 := by
  cases k <;> cases l <;> decide

/-- Where the two separators stand if a text is split at both. -/
theorem split_cases {s t u : List Byte} (h : k.sep ++ s = u ++ (l.sep ++ t)) (hu : u ≠ []) :
    (u = underscore :: k.word ∧ s = l.word ++ underscore :: t) ∨
      ∃ v, u = k.sep ++ v ∧ s = v ++ l.sep ++ t := by
  rcases List.append_eq_append_iff.mp h with ⟨v, rfl, hs⟩ | ⟨w, hw, ht⟩
  · exact .inr ⟨v, rfl, by rw [hs, List.append_assoc]⟩
  · -- `w` is the end of the first separator and the start of the second
    have hlen := congrArg List.length hw
    rw [sep_length, List.length_append] at hlen
    have hupos := List.length_pos_iff.mpr hu
    have hend : k.sep.drop (8 - w.length) = w := by
      rw [hw, show 8 - w.length = u.length by omega, List.drop_left]
    have hstart : l.sep.take w.length = w := by
      have htake := congrArg (List.take w.length) ht
      rwa [List.take_left, List.take_append_of_le_length (by rw [sep_length]; omega)] at htake
    rcases sep_overlap k l ⟨w.length, by omega⟩ (hend.trans hstart.symm) with hn | hn | hn
    · -- nothing
      obtain rfl := List.length_eq_zero_iff.mp (congrArg Fin.val hn)
      refine .inr ⟨[], ?_, ?_⟩
      · rw [hw, List.append_nil, List.append_nil]
      · rw [List.nil_append]
        exact ht.symm
    · -- the underscore
      have hone : w.length = 1 := congrArg Fin.val hn
      rw [hone] at hstart
      have hw1 : w = [underscore] := hstart.symm
      subst hw1
      refine .inl ⟨?_, ?_⟩
      · exact (List.append_cancel_right (hw.symm.trans rfl) : u = underscore :: k.word)
      · have htail : l.word ++ [underscore] ++ t = s := congrArg List.tail ht
        rw [← htail, List.append_assoc]
        rfl
    · -- the whole separator leaves nothing for `u`
      have height : w.length = 8 := congrArg Fin.val hn
      omega

/-- If one table's name is longer, its triggers have the names of the other's only by a clash. -/
theorem clash_of_append {u : List Byte} (hu : u ≠ [])
    (htable : q.folded.table = p.folded.table ++ u)
    (h : k.sep ++ p.folded.column = u ++ (l.sep ++ q.folded.column)) :
    Clash p.folded q.folded := by
  refine ⟨k, l, ?_⟩
  rcases split_cases h hu with ⟨rfl, hcol⟩ | ⟨v, rfl, hcol⟩
  · exact .inl ⟨htable, hcol⟩
  · exact .inr ⟨v, by rw [htable, List.append_assoc], hcol⟩

theorem Clash.exists_key (h : Clash p.folded q.folded) : ∃ k l, key k p = key l q := by
  obtain ⟨k, l, h⟩ := h
  refine ⟨k, l, key_eq_key_iff.mpr ?_⟩
  rcases h with ⟨htable, hcol⟩ | ⟨v, htable, hcol⟩
  · rw [htable, hcol]
    simp [Kind.sep]
  · rw [htable, hcol]
    simp only [List.append_assoc]

/-- Columns of one table do not clash. -/
theorem not_clash_of_table (h : p.table = q.table) : ¬ Clash p q := by
  rintro ⟨k, l, ⟨htable, -⟩ | ⟨v, htable, -⟩⟩ <;>
    · have hlen := congrArg List.length htable
      rw [h] at hlen
      simp at hlen

/-- **Which columns share a name of a trigger.** -/
theorem exists_key_iff (hne : p.folded ≠ q.folded) :
    (∃ k l, key k p = key l q) ↔ Clash p.folded q.folded ∨ Clash q.folded p.folded := by
  constructor
  · -- one table's name is the start of the other's
    rintro ⟨k, l, h⟩
    rcases List.append_eq_append_iff.mp (key_eq_key_iff.mp h) with ⟨u, htable, hrest⟩ |
      ⟨u, htable, hrest⟩
    · by_cases hu : u = []
      · -- one table, and then one column
        subst hu
        rw [List.append_nil] at htable
        have hcol := ((key_eq_key_of_table htable.symm).mp h).2
        exact absurd (Target.ext htable.symm hcol) hne
      · exact .inl (clash_of_append hu htable hrest)
    · by_cases hu : u = []
      · subst hu
        rw [List.append_nil] at htable
        have hcol := ((key_eq_key_of_table htable).mp h).2
        exact absurd (Target.ext htable hcol) hne
      · exact .inr (clash_of_append hu htable hrest)
  · rintro (h | h)
    · exact h.exists_key
    · obtain ⟨k, l, hkl⟩ := h.exists_key
      exact ⟨l, k, hkl.symm⟩

end SqlCode.StrictTyping
