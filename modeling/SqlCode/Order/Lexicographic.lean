import SqlCode.Order.Comparator

/-!
# Comparison field by field

Lists compared at the first place where they differ, each place with a comparison function of
its own. If those are proper, so is the comparison of lists of one length
(`ProperOn.fieldwise`). The direction of a place may be turned (`ProperOn.neg`).

The values at a place may be of several classes, of which one is below the other. It is then
enough to look at each class (`ProperOn.of_classes`).
-/

namespace Comparator

variable {J α : Type}

section Laws

variable {cmp : J → α → α → ℤ} {D : Set α} {a b c : α} (h : ProperOn cmp D)
include h

theorem ProperOn.mono {E : Set α} (hE : E ⊆ D) : ProperOn cmp E :=
  ⟨fun a ha b hb => h.determined a (hE ha) b (hE hb),
    fun a ha b hb => h.antisymm a (hE ha) b (hE hb), fun a ha => h.refl a (hE ha),
    fun a ha b hb c hc => h.trans a (hE ha) b (hE hb) c (hE hc)⟩

/-- Comparison by what stands for the values. -/
theorem ProperOn.comap {β : Type} {cmp' : J → β → β → ℤ} {E : Set β} (f : β → α)
    (hf : ∀ b ∈ E, f b ∈ D) (heq : ∀ a ∈ E, ∀ b ∈ E, ∀ j, cmp' j a b = cmp j (f a) (f b)) :
    ProperOn cmp' E := by
  refine ⟨fun a ha b hb j j' => ?_, fun a ha b hb j j' => ?_, fun a ha j => ?_, ?_⟩
  · rw [heq a ha b hb, heq a ha b hb]
    exact h.determined _ (hf a ha) _ (hf b hb) j j'
  · rw [heq a ha b hb, heq b hb a ha]
    exact h.antisymm _ (hf a ha) _ (hf b hb) j j'
  · rw [heq a ha a ha]
    exact h.refl _ (hf a ha) j
  · intro a ha b hb c hc j j' j'' hab hbc
    rw [heq a ha b hb] at hab
    rw [heq b hb c hc] at hbc
    rw [heq a ha c hc]
    exact h.trans _ (hf a ha) _ (hf b hb) _ (hf c hc) j j' j'' hab hbc

theorem ProperOn.nonneg_iff (ha : a ∈ D) (hb : b ∈ D) (j j' : J) :
    0 ≤ cmp j a b ↔ cmp j' b a ≤ 0 := by
  have hsign := h.antisymm a ha b hb j j'
  rw [← Int.sign_nonneg_iff, hsign, ← Int.sign_nonpos_iff]
  exact neg_nonneg

theorem ProperOn.eq_zero_iff (ha : a ∈ D) (hb : b ∈ D) (j j' : J) :
    cmp j a b = 0 ↔ cmp j' b a = 0 := by
  have hab := h.nonneg_iff ha hb j j'
  have hba := h.nonneg_iff hb ha j' j
  omega

theorem ProperOn.eq_zero_trans (ha : a ∈ D) (hb : b ∈ D) (hc : c ∈ D) {j j' : J} (j'' : J)
    (hab : cmp j a b = 0) (hbc : cmp j' b c = 0) : cmp j'' a c = 0 := by
  refine le_antisymm (h.trans a ha b hb c hc j j' j'' hab.le hbc.le) ?_
  have hcb := (h.eq_zero_iff hb hc j' j').mp hbc
  have hba := (h.eq_zero_iff ha hb j j).mp hab
  exact (h.nonneg_iff ha hc j'' j'').mpr (h.trans c hc b hb a ha j' j j'' hcb.le hba.le)

/-- The opposite direction. -/
theorem ProperOn.neg : ProperOn (fun j a b => -cmp j a b) D where
  determined a ha b hb j j' := by rw [h.determined a ha b hb j j']
  antisymm a ha b hb j j' := by
    rw [Int.sign_neg, Int.sign_neg, h.antisymm a ha b hb j j']
  refl a ha j := by rw [h.refl a ha j, neg_zero]
  trans a ha b hb c hc j j' j'' hab hbc := by
    rw [neg_nonpos, h.nonneg_iff ha hb j j] at hab
    rw [neg_nonpos, h.nonneg_iff hb hc j' j'] at hbc
    rw [neg_nonpos, h.nonneg_iff ha hc j'' j'']
    exact h.trans c hc b hb a ha _ _ _ hbc hab

/-- What is below something not above a third value is below it. -/
theorem ProperOn.lt_of_lt_of_le (ha : a ∈ D) (hb : b ∈ D) (hc : c ∈ D) {j j' : J} (j'' : J)
    (hab : cmp j a b < 0) (hbc : cmp j' b c ≤ 0) : cmp j'' a c < 0 := by
  by_contra hac
  have hca : cmp j'' c a ≤ 0 := (h.nonneg_iff ha hc j'' j'').mp (not_lt.mp hac)
  have hba : cmp j b a ≤ 0 := h.trans b hb c hc a ha j' j'' j hbc hca
  exact absurd hab (not_lt.mpr ((h.nonneg_iff ha hb j j).mpr hba))

theorem ProperOn.lt_of_le_of_lt (ha : a ∈ D) (hb : b ∈ D) (hc : c ∈ D) {j j' : J} (j'' : J)
    (hab : cmp j a b ≤ 0) (hbc : cmp j' b c < 0) : cmp j'' a c < 0 := by
  by_contra hac
  have hca : cmp j'' c a ≤ 0 := (h.nonneg_iff ha hc j'' j'').mp (not_lt.mp hac)
  have hcb : cmp j' c b ≤ 0 := h.trans c hc a ha b hb j'' j j' hca hab
  exact absurd hbc (not_lt.mpr ((h.nonneg_iff hb hc j' j').mpr hcb))

end Laws

/-- **Comparison by keys** of a linear order. -/
theorem properOn_of_linearOrder {κ : Type} [LinearOrder κ] {cmp : J → α → α → ℤ} {D : Set α}
    (key : α → κ) (hdet : ∀ a ∈ D, ∀ b ∈ D, ∀ j j', cmp j a b = cmp j' a b)
    (hlt : ∀ a ∈ D, ∀ b ∈ D, ∀ j, key a < key b → cmp j a b < 0 ∧ 0 < cmp j b a)
    (heq : ∀ a ∈ D, ∀ b ∈ D, ∀ j, key a = key b → cmp j a b = 0) : ProperOn cmp D := by
  -- the laws are those of the order of the keys
  have hle : ∀ a ∈ D, ∀ b ∈ D, ∀ j, cmp j a b ≤ 0 ↔ key a ≤ key b := by
    intro a ha b hb j
    constructor
    · intro h
      exact not_lt.mp fun hba => h.not_gt (hlt b hb a ha j hba).2
    · intro h
      rcases h.lt_or_eq with hab | hab
      · exact (hlt a ha b hb j hab).1.le
      · exact (heq a ha b hb j hab).le
  refine ⟨hdet, fun a ha b hb j j' => ?_, fun a ha j => heq a ha a ha j rfl, ?_⟩
  -- the signs of both directions, and transitivity
  · rcases lt_trichotomy (key a) (key b) with hab | hab | hab
    · rw [Int.sign_eq_neg_one_of_neg (hlt a ha b hb j hab).1,
        Int.sign_eq_one_of_pos (hlt a ha b hb j' hab).2]
    · rw [heq a ha b hb j hab, heq b hb a ha j' hab.symm]
      rfl
    · rw [Int.sign_eq_one_of_pos (hlt b hb a ha j hab).2,
        Int.sign_eq_neg_one_of_neg (hlt b hb a ha j' hab).1]
      rfl
  · intro a ha b hb c hc j j' j'' hab hbc
    rw [hle a ha b hb] at hab
    rw [hle b hb c hc] at hbc
    rw [hle a ha c hc]
    exact hab.trans hbc

/-- **Classes of values**, each below the next, are compared properly if the values of each
class are. -/
theorem ProperOn.of_classes {cmp : J → α → α → ℤ} {D : Set α} (rank : α → ℕ)
    (hdet : ∀ a ∈ D, ∀ b ∈ D, ∀ j j', cmp j a b = cmp j' a b)
    (hlt : ∀ a ∈ D, ∀ b ∈ D, ∀ j, rank a < rank b → cmp j a b < 0 ∧ 0 < cmp j b a)
    (h : ∀ n, ProperOn cmp {a | a ∈ D ∧ rank a = n}) : ProperOn cmp D := by
  have hle : ∀ a ∈ D, ∀ b ∈ D, ∀ j, cmp j a b ≤ 0 → rank a ≤ rank b := fun a ha b hb j hab =>
    not_lt.mp fun hba => hab.not_gt (hlt b hb a ha j hba).2
  refine ⟨hdet, fun a ha b hb j j' => ?_, fun a ha j => (h _).refl a ⟨ha, rfl⟩ j, ?_⟩
  · rcases lt_trichotomy (rank a) (rank b) with hab | hab | hab
    · rw [Int.sign_eq_neg_one_of_neg (hlt a ha b hb j hab).1,
        Int.sign_eq_one_of_pos (hlt a ha b hb j' hab).2]
    · exact (h _).antisymm a ⟨ha, hab⟩ b ⟨hb, rfl⟩ j j'
    · rw [Int.sign_eq_one_of_pos (hlt b hb a ha j hab).2,
        Int.sign_eq_neg_one_of_neg (hlt b hb a ha j' hab).1]
      rfl
  · intro a ha b hb c hc j j' j'' hab hbc
    have hrab := hle a ha b hb j hab
    have hrbc := hle b hb c hc j' hbc
    rcases (hrab.trans hrbc).lt_or_eq with hac | hac
    · exact (hlt a ha c hc j'' hac).1.le
    · -- all three are of one class
      have hb' : rank b = rank c := le_antisymm hrbc (hac ▸ hrab)
      exact (h _).trans a ⟨ha, hac⟩ b ⟨hb, hb'⟩ c ⟨hc, rfl⟩ j j' j'' hab hbc

/-- The comparison from the place `i` on. -/
def fieldwise (cmp : ℕ → J → α → α → ℤ) (j : J) : ℕ → List α → List α → ℤ
  | i, a :: s, b :: t =>
    if cmp i j a b = 0 then fieldwise cmp j (i + 1) s t else cmp i j a b
  | _, _, _ => 0

/-- The lists of `n` values with the value at each place in its set. -/
def Fields (D : ℕ → Set α) (i n : ℕ) : Set (List α) :=
  {s | s.length = n ∧ ∀ k a, s[k]? = some a → a ∈ D (i + k)}

theorem fields_cons {D : ℕ → Set α} {i n : ℕ} {s : List α} :
    s ∈ Fields D i (n + 1) ↔ ∃ a t, s = a :: t ∧ a ∈ D i ∧ t ∈ Fields D (i + 1) n := by
  constructor
  · rintro ⟨hlen, hmem⟩
    obtain ⟨a, t, rfl⟩ := List.exists_cons_of_length_eq_add_one hlen
    refine ⟨a, t, rfl, hmem 0 a rfl, Nat.succ.inj hlen, fun k b hb => ?_⟩
    have := hmem (k + 1) b hb
    rwa [show i + (k + 1) = i + 1 + k by omega] at this
  · rintro ⟨a, t, rfl, ha, hlen, hmem⟩
    refine ⟨congrArg (· + 1) hlen, fun k b hb => ?_⟩
    cases k with
    | zero =>
      obtain rfl : a = b := by simpa using hb
      exact ha
    | succ k =>
      have := hmem k b (by simpa using hb)
      rwa [show i + (k + 1) = i + 1 + k by omega]

theorem fieldwise_cons (cmp : ℕ → J → α → α → ℤ) (j : J) (i : ℕ) (a b : α) (s t : List α) :
    fieldwise cmp j i (a :: s) (b :: t) =
      if cmp i j a b = 0 then fieldwise cmp j (i + 1) s t else cmp i j a b := rfl

/-- **Fields compared one after the other** are compared properly if each of them is. -/
theorem ProperOn.fieldwise {cmp : ℕ → J → α → α → ℤ} {D : ℕ → Set α}
    (h : ∀ i, ProperOn (cmp i) (D i)) (i n : ℕ) :
    ProperOn (fun j => Comparator.fieldwise cmp j i) (Fields D i n) := by
  induction n generalizing i with
  | zero =>
    -- without fields all lists are equal
    have hnil : ∀ s ∈ Fields D i 0, s = [] := fun s hs => List.length_eq_zero_iff.mp hs.1
    have hzero : ∀ s ∈ Fields D i 0, ∀ t j, Comparator.fieldwise cmp j i s t = 0 := by
      intro s hs t j
      rw [hnil s hs]
      rfl
    refine ⟨fun s hs t _ j j' => ?_, fun s hs t ht j j' => ?_, fun s hs j => hzero s hs s j, ?_⟩
    · rw [hzero s hs, hzero s hs]
    · rw [hzero s hs, hzero t ht]
      rfl
    · intro s hs t _ u _ j j' j'' _ _
      rw [hzero s hs]
  | succ n ih =>
    have ih := ih (i + 1)
    have hi := h i
    -- each property is split at the first field, and the rest is the induction hypothesis
    constructor
    · intro s hs t ht j j'
      obtain ⟨a, s, rfl, ha, hs⟩ := fields_cons.mp hs
      obtain ⟨b, t, rfl, hb, ht⟩ := fields_cons.mp ht
      rw [fieldwise_cons, fieldwise_cons, hi.determined a ha b hb j j',
        ih.determined s hs t ht j j']
    · intro s hs t ht j j'
      obtain ⟨a, s, rfl, ha, hs⟩ := fields_cons.mp hs
      obtain ⟨b, t, rfl, hb, ht⟩ := fields_cons.mp ht
      rw [fieldwise_cons, fieldwise_cons]
      -- the first fields are equal in both directions or in none
      by_cases hz : cmp i j a b = 0
      · rw [if_pos hz, if_pos ((hi.eq_zero_iff ha hb j j').mp hz)]
        exact ih.antisymm s hs t ht j j'
      · rw [if_neg hz, if_neg fun h => hz ((hi.eq_zero_iff ha hb j j').mpr h)]
        exact hi.antisymm a ha b hb j j'
    · intro s hs j
      obtain ⟨a, s, rfl, ha, hs⟩ := fields_cons.mp hs
      rw [fieldwise_cons, if_pos (hi.refl a ha j)]
      exact ih.refl s hs j
    · intro s hs t ht u hu j j' j'' hst htu
      obtain ⟨a, s, rfl, ha, hs⟩ := fields_cons.mp hs
      obtain ⟨b, t, rfl, hb, ht⟩ := fields_cons.mp ht
      obtain ⟨c, u, rfl, hc, hu⟩ := fields_cons.mp hu
      rw [fieldwise_cons] at hst htu ⊢
      -- the first field decides unless all three are equal in it
      by_cases hab : cmp i j a b = 0 <;> by_cases hbc : cmp i j' b c = 0
      · have hac := hi.eq_zero_trans ha hb hc j'' hab hbc
        rw [if_pos hab] at hst
        rw [if_pos hbc] at htu
        rw [if_pos hac]
        exact ih.trans s hs t ht u hu j j' j'' hst htu
      · rw [if_neg hbc] at htu
        have hac := hi.lt_of_le_of_lt ha hb hc j'' hab.le (lt_of_le_of_ne htu hbc)
        rw [if_neg hac.ne]
        exact hac.le
      · rw [if_neg hab] at hst
        have hac := hi.lt_of_lt_of_le ha hb hc j'' (lt_of_le_of_ne hst hab) hbc.le
        rw [if_neg hac.ne]
        exact hac.le
      · rw [if_neg hab] at hst
        rw [if_neg hbc] at htu
        have hac := hi.lt_of_lt_of_le ha hb hc j'' (lt_of_le_of_ne hst hab) htu
        rw [if_neg hac.ne]
        exact hac.le

end Comparator
