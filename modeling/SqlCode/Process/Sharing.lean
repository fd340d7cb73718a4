import Mathlib.Data.Finset.Card
import Mathlib.Logic.Relation

/-!
# Processes that share something

Two tools for processes of which each has a state of its own. A counter that is kept of those
with a property (`Counts`) stays right if it changes with the property of the one that takes a
step. And a relation between the states of any two processes is an invariant if a step of one of
them keeps its side (`pairwise_reachable`).
-/

namespace Process

/-! ### Counters -/

section Counters

variable {H : Type} {p p' : H → Bool} {n n' : ℤ} {g h : H}

/-- The number of those with a property. -/
def Counts (n : ℤ) (p : H → Bool) : Prop := ∃ S : Finset H, (∀ h, h ∈ S ↔ p h) ∧ S.card = n

theorem counts_zero (h : ∀ h, p h = false) : Counts 0 p :=
  ⟨∅, fun g => by simp [h g], rfl⟩

/-- The counter changes with the property of `h`. -/
theorem Counts.update [DecidableEq H] (hc : Counts n p) (hothers : ∀ g ≠ h, p' g = p g)
    (hn : n' - (p' h).toNat = n - (p h).toNat) : Counts n' p' := by
  obtain ⟨S, hS, rfl⟩ := hc
  have hmem : ∀ g ≠ h, (g ∈ S ↔ p' g) := fun g hg => by rw [hothers g hg, hS]
  -- whether `h` had the property, and whether it has it now
  by_cases hp : p h <;> by_cases hp' : p' h
  · refine ⟨S, fun g => ?_, by simpa [hp, hp'] using hn.symm⟩
    by_cases hg : g = h
    · rw [hg, hS]
      exact iff_of_true hp hp'
    · exact hmem g hg
  · refine ⟨S.erase h, fun g => ?_, ?_⟩
    · by_cases hg : g = h
      · rw [hg]
        exact iff_of_false (S.notMem_erase h) hp'
      · rw [Finset.mem_erase, and_iff_right hg, hmem g hg]
    · have hcard := Finset.card_erase_add_one ((hS h).mpr hp)
      simp only [hp, hp', Bool.toNat_true, Bool.toNat_false] at hn
      omega
  · refine ⟨insert h S, fun g => ?_, ?_⟩
    · by_cases hg : g = h
      · rw [hg]
        exact iff_of_true (Finset.mem_insert_self h S) hp'
      · rw [Finset.mem_insert, or_iff_right hg, hmem g hg]
    · have hcard := Finset.card_insert_of_notMem fun hh => hp ((hS h).mp hh)
      simp only [hp, hp', Bool.toNat_true, Bool.toNat_false] at hn
      omega
  · refine ⟨S, fun g => ?_, by simpa [hp, hp'] using hn.symm⟩
    by_cases hg : g = h
    · rw [hg, hS]
      exact iff_of_false hp hp'
    · exact hmem g hg

theorem Counts.pos (hc : Counts n p) (hp : p h) : 0 < n := by
  obtain ⟨S, hS, rfl⟩ := hc
  exact Int.natCast_pos.mpr (Finset.card_pos.mpr ⟨h, (hS h).mpr hp⟩)

theorem Counts.nonneg (hc : Counts n p) : 0 ≤ n := by
  obtain ⟨S, -, rfl⟩ := hc
  exact Int.natCast_nonneg _

/-- Nobody has the property. -/
theorem Counts.none (hc : Counts 0 p) : p h = false := by
  by_contra hp
  exact absurd (hc.pos (Bool.eq_true_of_not_eq_false hp)) (lt_irrefl 0)

/-- Somebody has it. -/
theorem Counts.exists_of_pos (hc : Counts n p) (hn : 0 < n) : ∃ h, p h := by
  obtain ⟨S, hS, rfl⟩ := hc
  obtain ⟨h, hh⟩ := Finset.card_pos.mp (Int.natCast_pos.mp hn)
  exact ⟨h, (hS h).mp hh⟩

/-- There is no second one. -/
theorem Counts.one (hc : Counts 1 p) (hg : p g) (hh : p h) : g = h := by
  obtain ⟨S, hS, hcard⟩ := hc
  have hle : S.card ≤ 1 := by omega
  exact Finset.card_le_one.mp hle g ((hS g).mpr hg) h ((hS h).mpr hh)

end Counters

/-! ### Invariants of a family -/

section Families

variable {P S : Type} [DecidableEq P] {Inv : S → Prop} {R : S → S → Prop} {start : S}
  {step : (P → S) → (P → S) → Prop}

/-- **An invariant of every process and of every two** of them. A step is taken by one process,
in a state where both hold. -/
theorem pairwise_reachable (hstart : Inv start) (hR : R start start)
    (hsymm : ∀ s t, R s t → R t s)
    (hstep : ∀ w w', (∀ p, Inv (w p)) → (∀ p q, p ≠ q → R (w p) (w q)) → step w w' →
      ∃ p s, w' = Function.update w p s ∧ Inv s ∧ ∀ q ≠ p, R s (w q)) {w : P → S}
    (hw : Relation.ReflTransGen step (fun _ => start) w) :
    (∀ p, Inv (w p)) ∧ ∀ p q, p ≠ q → R (w p) (w q) := by
  induction hw with
  | refl => exact ⟨fun _ => hstart, fun _ _ _ => hR⟩
  | tail _ hs ih =>
    obtain ⟨hinv, hpair⟩ := ih
    obtain ⟨p, s, rfl, hs, hothers⟩ := hstep _ _ hinv hpair hs
    constructor
    · intro q
      by_cases hq : q = p
      · rw [hq, Function.update_self]
        exact hs
      · rw [Function.update_of_ne hq]
        exact hinv q
    -- a pair with the process that has moved, or one of two others
    · intro q r hqr
      by_cases hq : q = p
      · have hr : r ≠ p := fun h => hqr (hq.trans h.symm)
        rw [hq, Function.update_self, Function.update_of_ne hr]
        exact hothers r hr
      · rw [Function.update_of_ne hq]
        by_cases hr : r = p
        · rw [hr, Function.update_self]
          exact hsymm _ _ (hothers q hq)
        · rw [Function.update_of_ne hr]
          exact hpair q r hqr

end Families

end Process
