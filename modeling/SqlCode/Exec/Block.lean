import SqlCode.Exec.Prog
import Mathlib.Data.Nat.Basic

/-!
# Blocks of memory that grow

A block is the list of the elements that were allocated for it. New elements hold whatever
`junk` says, and copying outside a block, or from outside the source, is the fault
`outOfBounds`.

Programs that fill a block from its start are followed by two facts: enlarging a block
keeps what it starts with (`exists_realloc_eq`), and copying behind the start replaces what
comes next (`memcpy_append`).
-/

namespace Exec

variable {α : Type}

/-- `malloc(n)`. -/
def mallocBlock (junk : ℕ → α) (n : ℕ) : List α := (List.range n).map junk

/-- `realloc(b, n)`. -/
def realloc (junk : ℕ → α) (b : List α) (n : ℕ) : List α :=
  b.take n ++ (List.range (n - b.length)).map fun i => junk (b.length + i)

/-- `memcpy(b + off, src, n)`. -/
def memcpy (b : List α) (off : ℕ) (src : List α) (n : ℕ) : Prog (List α) :=
  if off + n ≤ b.length ∧ n ≤ src.length then
    pure (b.take off ++ src.take n ++ b.drop (off + n))
  else throw .outOfBounds

@[simp] theorem length_mallocBlock (junk : ℕ → α) (n : ℕ) : (mallocBlock junk n).length = n := by
  simp [mallocBlock]

@[simp] theorem length_realloc (junk : ℕ → α) (b : List α) (n : ℕ) :
    (realloc junk b n).length = n := by
  simp [realloc]
  omega

/-- A block keeps what it starts with. -/
theorem exists_realloc_eq (junk : ℕ → α) {u : List α} (w : List α) {n : ℕ} (hn : u.length ≤ n) :
    ∃ w', realloc junk (u ++ w) n = u ++ w' ∧ u.length + w'.length = n := by
  obtain ⟨w', hw'⟩ : u <+: realloc junk (u ++ w) n := by
    refine List.IsPrefix.trans ?_ (List.prefix_append _ _)
    rw [List.take_append, List.take_of_length_le hn]
    exact List.prefix_append _ _
  refine ⟨w', hw'.symm, ?_⟩
  rw [← List.length_append, hw', length_realloc]

/-- Copying behind `u` replaces what comes next. -/
theorem memcpy_append {u w src : List α} (h : src.length ≤ w.length) :
    memcpy (u ++ w) u.length src src.length = pure (u ++ src ++ w.drop src.length) := by
  unfold memcpy
  rw [if_pos ⟨by simpa using h, le_rfl⟩, List.take_left, List.take_length, List.drop_append,
    List.drop_of_length_le (by omega), Nat.add_sub_cancel_left, List.nil_append]

/-- Copying up to the end of the block. -/
theorem memcpy_fill {u w src : List α} (h : src.length = w.length) :
    memcpy (u ++ w) u.length src src.length = pure (u ++ src) := by
  rw [memcpy_append h.le, h, List.drop_length, List.append_nil]

end Exec
