import Mathlib.Computability.RegularExpressions

/-!
# The longest prefix of a language

A scanner of C takes from its input the longest prefix of some form. `longest p s` is the
longest prefix of `s` with the property `p`, if there is one, and `longest_eq_some_iff` and
`longest_eq_none_iff` say so.

The forms are those of a regular expression. A function like `strtol` wants a prefix that matches
it, one like `scanf` reads on as long as what it has read may become a match (`viable_iff`).
What a word consists of is read off the expression: its letters (`mem_letters`), among
them some that no word is without (`exists_of_needs`).
-/

namespace Text

open RegularExpression

variable {α : Type}

/-! ### The longest prefix -/

/-- The longest prefix with the property. -/
def longest (p : List α → Bool) : List α → Option (List α)
  | [] => if p [] then some [] else none
  | c :: s =>
    match longest (fun t => p (c :: t)) s with
    | some u => some (c :: u)
    | none => if p [] then some [] else none

variable {p : List α → Bool} {s t u : List α}

theorem longest_eq_none_iff : longest p s = none ↔ ∀ w, w <+: s → p w = false := by
  induction s generalizing p with
  | nil => simp [longest]
  | cons c s ih =>
    -- a prefix of `c :: s` is empty, or `c` and a prefix of `s`
    have hsplit : (∀ w, w <+: c :: s → p w = false) ↔
        (∀ w, w <+: s → p (c :: w) = false) ∧ p [] = false := by
      simp only [List.prefix_cons_iff]
      constructor
      · exact fun h => ⟨fun w hw => h _ (.inr ⟨w, rfl, hw⟩), h _ (.inl rfl)⟩
      · rintro ⟨hcons, hnil⟩ w (rfl | ⟨w, rfl, hw⟩)
        · exact hnil
        · exact hcons w hw
    rw [hsplit, ← ih, longest]
    cases longest (fun t => p (c :: t)) s with
    | some u => simp
    | none => simp

/-- **The longest prefix.** It is a prefix, it has the property, and every prefix that has it is
one of its prefixes. -/
theorem longest_eq_some_iff : longest p s = some u ↔
    u <+: s ∧ p u = true ∧ ∀ w, w <+: s → p w = true → w <+: u := by
  induction s generalizing p u with
  | nil =>
    rw [longest]
    constructor
    · intro h
      split_ifs at h with hnil
      obtain rfl := Option.some.inj h
      exact ⟨List.prefix_rfl, hnil, fun w hw _ => hw⟩
    · rintro ⟨hu, hpu, -⟩
      obtain rfl := List.prefix_nil.mp hu
      rw [if_pos hpu]
  | cons c s ih =>
    rw [longest]
    cases hrest : longest (fun t => p (c :: t)) s with
    -- a prefix that starts with `c` is the longest
    | some v =>
      obtain ⟨hv, hpv, hmax⟩ := ih.mp hrest
      have hcv : c :: v <+: c :: s := List.cons_prefix_cons.mpr ⟨rfl, hv⟩
      have hall : ∀ w, w <+: c :: s → p w = true → w <+: c :: v := by
        intro w hw hpw
        rcases List.prefix_cons_iff.mp hw with rfl | ⟨w, rfl, hws⟩
        · exact List.nil_prefix
        · exact List.cons_prefix_cons.mpr ⟨rfl, hmax w hws hpw⟩
      constructor
      · intro h
        obtain rfl := Option.some.inj h
        exact ⟨hcv, hpv, hall⟩
      · rintro ⟨hu, hpu, hmax'⟩
        -- two longest prefixes are prefixes of each other
        have hlen := le_antisymm (hall u hu hpu).length_le (hmax' _ hcv hpv).length_le
        exact congrArg some ((hall u hu hpu).eq_of_length hlen).symm
    | none =>
      -- only the empty prefix can have the property
      have hnil : ∀ w, w <+: c :: s → p w = true → w = [] := by
        intro w hw hpw
        rcases List.prefix_cons_iff.mp hw with rfl | ⟨w, rfl, hws⟩
        · rfl
        · have hpc := longest_eq_none_iff.mp hrest w hws
          rw [hpw] at hpc
          cases hpc
      constructor
      · intro h
        split_ifs at h with hp
        obtain rfl := Option.some.inj h
        exact ⟨List.nil_prefix, hp, fun w hw hpw => hnil w hw hpw ▸ List.nil_prefix⟩
      · rintro ⟨hu, hpu, -⟩
        obtain rfl := hnil u hu hpu
        exact if_pos hpu

/-- A text that has the property is taken as a whole. -/
theorem longest_eq_self_iff : longest p s = some s ↔ p s = true := by
  rw [longest_eq_some_iff]
  exact ⟨fun h => h.2.1, fun h => ⟨List.prefix_rfl, h, fun w hw _ => hw⟩⟩

/-! ### Regular expressions -/

/-- One of the characters. -/
def oneOf (cs : List α) : RegularExpression α := (cs.map char).sum

/-- `P` or nothing. -/
def maybe (P : RegularExpression α) : RegularExpression α := 1 + P

/-- `P` once or more. -/
def many1 (P : RegularExpression α) : RegularExpression α := P * P.star

variable {P : RegularExpression α} {c : α}

theorem mem_oneOf {cs : List α} : s ∈ (oneOf cs).matches' ↔ ∃ c ∈ cs, s = [c] := by
  induction cs with
  | nil => exact iff_of_false id (by simp)
  | cons c cs ih =>
    have hsum : oneOf (c :: cs) = char c + oneOf cs := rfl
    rw [hsum, matches'_add, Language.mem_add, ih, List.exists_mem_cons_iff]
    rfl

theorem mem_star_oneOf {cs : List α} : s ∈ (oneOf cs).star.matches' ↔ ∀ c ∈ s, c ∈ cs := by
  rw [matches'_star, Language.mem_kstar]
  constructor
  · rintro ⟨ws, rfl, hws⟩ c hc
    obtain ⟨w, hw, hcw⟩ := List.mem_flatten.mp hc
    obtain ⟨d, hd, rfl⟩ := mem_oneOf.mp (hws w hw)
    rwa [List.mem_singleton.mp hcw]
  · intro h
    refine ⟨s.map fun c => [c], (List.flatMap_singleton' s).symm, fun w hw => ?_⟩
    obtain ⟨c, hc, rfl⟩ := List.mem_map.mp hw
    exact mem_oneOf.mpr ⟨c, h c hc, rfl⟩

theorem mem_many1_oneOf {cs : List α} :
    s ∈ (many1 (oneOf cs)).matches' ↔ s ≠ [] ∧ ∀ c ∈ s, c ∈ cs := by
  unfold many1
  rw [matches'_mul, Language.mem_mul]
  constructor
  · rintro ⟨u, hu, v, hv, rfl⟩
    obtain ⟨c, hc, rfl⟩ := mem_oneOf.mp hu
    refine ⟨List.cons_ne_nil c v, fun d hd => ?_⟩
    rcases List.mem_cons.mp hd with rfl | hd
    · exact hc
    · exact mem_star_oneOf.mp hv d hd
  · rintro ⟨hne, hs⟩
    obtain ⟨c, s, rfl⟩ := List.exists_cons_of_ne_nil hne
    obtain ⟨hc, hs⟩ := List.forall_mem_cons.mp hs
    exact ⟨[c], mem_oneOf.mpr ⟨c, hc, rfl⟩, s, mem_star_oneOf.mpr hs, rfl⟩

/-- The characters that a regular expression mentions. -/
def letters : RegularExpression α → List α
  | 0 => []
  | 1 => []
  | .char c => [c]
  | P + Q => letters P ++ letters Q
  | P * Q => letters P ++ letters Q
  | .star P => letters P

/-- A word consists of letters of the expression. -/
theorem mem_letters (h : s ∈ P.matches') (hc : c ∈ s) : c ∈ letters P := by
  induction P generalizing s with
  | zero => cases h
  | epsilon =>
    rw [Set.mem_singleton_iff.mp h] at hc
    cases hc
  | char d =>
    rwa [Set.mem_singleton_iff.mp h] at hc
  | plus P Q ihP ihQ =>
    rcases h with h | h
    · exact List.mem_append_left _ (ihP h hc)
    · exact List.mem_append_right _ (ihQ h hc)
  | comp P Q ihP ihQ =>
    obtain ⟨u, hu, v, hv, rfl⟩ := Language.mem_mul.mp h
    rcases List.mem_append.mp hc with hc | hc
    · exact List.mem_append_left _ (ihP hu hc)
    · exact List.mem_append_right _ (ihQ hv hc)
  | star P ih =>
    obtain ⟨ws, rfl, hws⟩ := Language.mem_kstar.mp h
    obtain ⟨w, hw, hc⟩ := List.mem_flatten.mp hc
    exact ih (hws w hw) hc

/-- Whether each word has a character of the class. -/
def needs (cls : α → Bool) : RegularExpression α → Bool
  | 0 => true
  | 1 => false
  | .char c => cls c
  | P + Q => needs cls P && needs cls Q
  | P * Q => needs cls P || needs cls Q
  | .star _ => false

theorem exists_of_needs {cls : α → Bool} (hP : needs cls P = true) (h : s ∈ P.matches') :
    ∃ c ∈ s, cls c = true := by
  induction P generalizing s with
  | zero => cases h
  | epsilon => cases hP
  | char d => exact ⟨d, Set.mem_singleton_iff.mp h ▸ List.mem_singleton_self d, hP⟩
  | plus P Q ihP ihQ =>
    obtain ⟨hP, hQ⟩ := Bool.and_eq_true_iff.mp hP
    rcases h with h | h
    · exact ihP hP h
    · exact ihQ hQ h
  | comp P Q ihP ihQ =>
    obtain ⟨u, hu, v, hv, rfl⟩ := Language.mem_mul.mp h
    rcases Bool.or_eq_true_iff.mp hP with hP | hQ
    · obtain ⟨c, hc, hcls⟩ := ihP hP hu
      exact ⟨c, List.mem_append_left _ hc, hcls⟩
    · obtain ⟨c, hc, hcls⟩ := ihQ hQ hv
      exact ⟨c, List.mem_append_right _ hc, hcls⟩
  | star P => cases hP

/-- Whether there is a word. -/
def inhabited : RegularExpression α → Bool
  | 0 => false
  | 1 => true
  | .char _ => true
  | P + Q => inhabited P || inhabited Q
  | P * Q => inhabited P && inhabited Q
  | .star _ => true

theorem inhabited_iff : inhabited P = true ↔ ∃ s, s ∈ P.matches' := by
  induction P with
  | zero => exact iff_of_false Bool.false_ne_true fun ⟨_, h⟩ => h
  | epsilon => exact iff_of_true rfl ⟨[], rfl⟩
  | char c => exact iff_of_true rfl ⟨[c], rfl⟩
  | plus P Q ihP ihQ =>
    have hplus : inhabited (plus P Q) = (inhabited P || inhabited Q) := rfl
    rw [hplus, Bool.or_eq_true, ihP, ihQ, ← exists_or]
    rfl
  | comp P Q ihP ihQ =>
    have hcomp : inhabited (comp P Q) = (inhabited P && inhabited Q) := rfl
    rw [hcomp, Bool.and_eq_true, ihP, ihQ]
    constructor
    · rintro ⟨⟨u, hu⟩, v, hv⟩
      exact ⟨u ++ v, Language.append_mem_mul hu hv⟩
    · rintro ⟨s, hs⟩
      obtain ⟨u, hu, v, hv, -⟩ := Language.mem_mul.mp hs
      exact ⟨⟨u, hu⟩, v, hv⟩
  | star P => exact iff_of_true rfl ⟨[], Language.nil_mem_kstar _⟩

variable [DecidableEq α]

/-- Whether a word may begin with the text. -/
def viable : RegularExpression α → List α → Bool
  | P, [] => inhabited P
  | P, c :: s => viable (P.deriv c) s

theorem viable_iff : viable P s = true ↔ ∃ t, s ++ t ∈ P.matches' := by
  induction s generalizing P with
  | nil => exact inhabited_iff
  | cons c s ih =>
    rw [viable, ih]
    -- the derivative has the rests of the words that begin with `c`
    refine exists_congr fun t => ?_
    rw [List.cons_append, ← rmatch_iff_matches', ← rmatch_iff_matches']
    rfl

end Text
