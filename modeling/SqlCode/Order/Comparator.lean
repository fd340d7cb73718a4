import Mathlib.Data.Set.Defs
import Mathlib.Algebra.Order.Ring.Int
import Mathlib.Data.Int.Order.Basic
import Mathlib.Algebra.Order.Group.Unbundled.Int

/-!
# Comparison functions

A comparison function in the manner of C returns a number below, equal to or above zero.
It may read memory that nobody has written, whose contents `J` are an argument here. Such a
function is `ProperOn` a set if on its elements it is determined by the two values that
are compared, and is the comparison of a total preorder.

There are two rules. By `properOn_of_lt` it is enough that the sign of the result tells the
cases of a strict total order apart, and by `properOn_of_key` that the function compares
keys, and that keys are compared by a lawful `compare`.
-/

namespace Comparator

variable {J α κ : Type}

/-- The number for an outcome. -/
def result : Ordering → ℤ
  | .lt => -1
  | .eq => 0
  | .gt => 1

/-- **Proper comparison functions.** -/
structure ProperOn (cmp : J → α → α → ℤ) (D : Set α) : Prop where
  /-- The result does not depend on the memory. -/
  determined : ∀ a ∈ D, ∀ b ∈ D, ∀ j j', cmp j a b = cmp j' a b
  /-- The result for exchanged arguments has the opposite sign. -/
  antisymm : ∀ a ∈ D, ∀ b ∈ D, ∀ j j', (cmp j a b).sign = -(cmp j' b a).sign
  /-- A value is equal to itself. -/
  refl : ∀ a ∈ D, ∀ j, cmp j a a = 0
  /-- What is not above is ordered transitively. -/
  trans : ∀ a ∈ D, ∀ b ∈ D, ∀ c ∈ D, ∀ j j' j'', cmp j a b ≤ 0 → cmp j' b c ≤ 0 → cmp j'' a c ≤ 0

theorem result_swap (o : Ordering) : result o.swap = -result o := by
  cases o <;> rfl

@[simp] theorem sign_result (o : Ordering) : (result o).sign = result o := by
  cases o <;> rfl

theorem result_le_zero {o : Ordering} : result o ≤ 0 ↔ o.isLE = true := by
  cases o <;> decide

theorem result_injective : Function.Injective result := by
  intro o o' h
  cases o <;> cases o' <;> first | rfl | cases h

/-- **Comparison by a strict order.** -/
theorem properOn_of_lt {r : α → α → Prop} [IsStrictTotalOrder α r] {cmp : J → α → α → ℤ}
    {D : Set α} (hdet : ∀ a ∈ D, ∀ b ∈ D, ∀ j j', cmp j a b = cmp j' a b)
    (hlt : ∀ a ∈ D, ∀ b ∈ D, ∀ j, cmp j a b < 0 ↔ r a b)
    (hgt : ∀ a ∈ D, ∀ b ∈ D, ∀ j, 0 < cmp j a b ↔ r b a) : ProperOn cmp D := by
  have hself : ∀ a ∈ D, ∀ j, cmp j a a = 0 := by
    intro a ha j
    have hirrefl : ¬ r a a := irrefl a
    apply le_antisymm
    · exact not_lt.mp fun h => hirrefl ((hgt a ha a ha j).mp h)
    · exact not_lt.mp fun h => hirrefl ((hlt a ha a ha j).mp h)
  refine ⟨hdet, fun a ha b hb j j' => ?_, hself, fun a ha b hb c hc j j' j'' hab hbc => ?_⟩
  · rcases trichotomous_of r a b with hab | rfl | hba
    · rw [Int.sign_eq_neg_one_of_neg ((hlt a ha b hb j).mpr hab),
        Int.sign_eq_one_of_pos ((hgt b hb a ha j').mpr hab)]
    · rw [hself a ha, hself a ha]
      rfl
    · rw [Int.sign_eq_one_of_pos ((hgt a ha b hb j).mpr hba),
        Int.sign_eq_neg_one_of_neg ((hlt b hb a ha j').mpr hba)]
      rfl
  · -- what is above `a` is above `b`, which is not below `a`
    have hba : ¬ r b a := fun h => hab.not_gt ((hgt a ha b hb j).mpr h)
    have hcb : ¬ r c b := fun h => hbc.not_gt ((hgt b hb c hc j').mpr h)
    refine not_lt.mp fun h => hcb ?_
    have hca : r c a := (hgt a ha c hc j'').mp h
    rcases trichotomous_of r a b with hab' | rfl | hba'
    · exact trans_of r hca hab'
    · exact hca
    · exact absurd hba' hba

variable [Ord κ]

/-- **Comparison by keys.** -/
theorem properOn_of_key [Std.TransOrd κ] {cmp : J → α → α → ℤ} {D : Set α} (key : α → κ)
    (h : ∀ a ∈ D, ∀ b ∈ D, ∀ j, cmp j a b = result (compare (key a) (key b))) :
    ProperOn cmp D := by
  refine ⟨fun a ha b hb j j' => ?_, fun a ha b hb j j' => ?_, fun a ha j => ?_, ?_⟩
  · rw [h a ha b hb, h a ha b hb]
  · rw [h a ha b hb, h b hb a ha, sign_result, sign_result, ← result_swap,
      ← Std.OrientedOrd.eq_swap]
  · rw [h a ha a ha, Std.ReflOrd.compare_self]
    rfl
  · intro a ha b hb c hc j j' j'' hab hbc
    rw [h a ha b hb, result_le_zero] at hab
    rw [h b hb c hc, result_le_zero] at hbc
    rw [h a ha c hc, result_le_zero]
    exact Std.TransOrd.isLE_trans hab hbc

end Comparator
