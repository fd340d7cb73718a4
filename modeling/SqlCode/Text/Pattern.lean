import Mathlib.Data.List.Basic
import Mathlib.Data.List.TakeWhile

/-!
# Patterns of bounded repetitions

A pattern is a list of atoms, each a class of characters with a least and a greatest
number of repetitions, such as `[0-9]{1,2}-[0-9]{2}`. `Matches p t` says that the whole
of `t` has the form `p`.

`matchAt` is the matcher of a backtracking engine: each atom takes as much as it can and
gives back what the rest needs. `search` tries the positions of a text from the left.
The engine finds a match where there is one, and what it finds is one (`matchAt_matches`,
`Matches.matchAt_isSome`, `search_isSome_iff`). Which of several matches it finds is settled
by one rule: an atom keeps all it can take if the rest matches behind it (`matchAt_greedy`).
-/

namespace Text

variable {α : Type}

/-- A class of characters and how often it may be repeated. -/
structure Atom (α : Type) where
  /-- The class. -/
  cls : α → Bool
  /-- The least number of repetitions. -/
  min : ℕ
  /-- The greatest number of repetitions. -/
  max : ℕ

/-- One character of a class. -/
def Atom.one (cls : α → Bool) : Atom α := ⟨cls, 1, 1⟩

/-- The whole of `u` is a repetition of the atom. -/
structure Atom.Accepts (a : Atom α) (u : List α) : Prop where
  /-- Not too short. -/
  min_le : a.min ≤ u.length
  /-- Not too long. -/
  le_max : u.length ≤ a.max
  /-- Of the class. -/
  cls : ∀ c ∈ u, a.cls c = true

/-- The whole of `t` has the form of the pattern. -/
def Matches : List (Atom α) → List α → Prop
  | [], t => t = []
  | a :: as, t => ∃ u v, t = u ++ v ∧ a.Accepts u ∧ Matches as v

/-- The numbers of characters that the atom can take from `s`, the greatest first. -/
def Atom.counts (a : Atom α) (s : List α) : List ℕ :=
  ((List.range' a.min (a.max + 1 - a.min)).filter
    fun k => decide (k ≤ (s.takeWhile a.cls).length)).reverse

/-- The length of the match that the engine finds at the start of a text. -/
def matchAt : List (Atom α) → List α → Option ℕ
  | [], _ => some 0
  | a :: as, s => (a.counts s).findSome? fun k => (matchAt as (s.drop k)).map fun n => k + n

/-- The start and the end of the first match from the left. -/
def search (p : List (Atom α)) : List α → Option (ℕ × ℕ)
  | [] => (matchAt p []).map fun n => (0, n)
  | c :: s =>
    match matchAt p (c :: s) with
    | some n => some (0, n)
    | none => (search p s).map fun (i, j) => (i + 1, j + 1)

variable {a : Atom α} {p : List (Atom α)} {s t u v : List α} {k n : ℕ}

/-! ### One atom -/

theorem Atom.mem_counts :
    k ∈ a.counts s ↔ a.min ≤ k ∧ k ≤ a.max ∧ k ≤ (s.takeWhile a.cls).length := by
  unfold Atom.counts
  rw [List.mem_reverse, List.mem_filter, List.mem_range'_1, decide_eq_true_eq]
  omega

theorem Atom.counts_sorted (a : Atom α) (s : List α) : (a.counts s).Pairwise (· > ·) := by
  unfold Atom.counts
  rw [List.pairwise_reverse]
  exact List.Pairwise.filter _ List.pairwise_lt_range'

theorem Atom.accepts_take (h : k ∈ a.counts s) : k ≤ s.length ∧ a.Accepts (s.take k) := by
  obtain ⟨hmin, hmax, hrun⟩ := Atom.mem_counts.mp h
  have hprefix : s.takeWhile a.cls <+: s := List.takeWhile_prefix a.cls
  have hle : k ≤ s.length := le_trans hrun hprefix.length_le
  have hlen : (s.take k).length = k := List.length_take_of_le hle
  refine ⟨hle, by rwa [hlen], by rwa [hlen], fun c hc => ?_⟩
  -- the first `k` characters are within the run of the class
  have htake : s.take k <+: s.takeWhile a.cls :=
    List.prefix_of_prefix_length_le (List.take_prefix k s) hprefix (by rwa [hlen])
  exact List.mem_takeWhile_imp (htake.subset hc)

/-- What an atom accepts it can take. -/
theorem Atom.Accepts.mem_counts (h : a.Accepts u) (v : List α) :
    u.length ∈ a.counts (u ++ v) := by
  refine Atom.mem_counts.mpr ⟨h.min_le, h.le_max, ?_⟩
  rw [List.takeWhile_append_of_pos h.cls, List.length_append]
  exact Nat.le_add_right _ _

/-- One character of the class. -/
theorem Atom.accepts_one {cls : α → Bool} {c : α} (h : cls c = true) :
    (Atom.one cls).Accepts [c] :=
  ⟨le_rfl, le_rfl, fun d hd => by rwa [List.mem_singleton.mp hd]⟩

theorem Atom.Accepts.eq_singleton {cls : α → Bool} (h : (Atom.one cls).Accepts u) :
    ∃ c, u = [c] ∧ cls c = true := by
  obtain ⟨c, rfl⟩ := List.length_eq_one_iff.mp (Nat.le_antisymm h.le_max h.min_le)
  exact ⟨c, rfl, h.cls c (List.mem_singleton_self c)⟩

/-! ### The matcher -/

/-- What the matcher finds is a match. -/
theorem matchAt_matches (h : matchAt p s = some n) : n ≤ s.length ∧ Matches p (s.take n) := by
  induction p generalizing s n with
  | nil =>
    obtain rfl := Option.some.inj h
    exact ⟨Nat.zero_le _, rfl⟩
  | cons a as ih =>
    obtain ⟨k, hk, hrest⟩ := List.exists_of_findSome?_eq_some h
    obtain ⟨m, hm, rfl⟩ := Option.map_eq_some_iff.mp hrest
    obtain ⟨hle, hacc⟩ := Atom.accepts_take hk
    obtain ⟨hmle, hmatch⟩ := ih hm
    rw [List.length_drop] at hmle
    refine ⟨by omega, s.take k, (s.drop k).take m, ?_, hacc, hmatch⟩
    exact List.take_add

/-- Where there is a match the matcher finds one. The induction is on the pattern: the atom
can take its part of the match, and behind it the rest of the pattern has one. -/
theorem Matches.matchAt_isSome (h : Matches p t) (v : List α) : (matchAt p (t ++ v)).isSome := by
  induction p generalizing t with
  | nil => rfl
  | cons a as ih =>
    obtain ⟨u, w, rfl, hacc, hw⟩ := h
    rw [List.append_assoc]
    refine List.findSome?_isSome_iff.mpr ⟨u.length, hacc.mem_counts _, ?_⟩
    rw [List.drop_left, Option.isSome_map]
    exact ih hw

/-- The matcher finds a match exactly where a match begins. -/
theorem matchAt_eq_none_iff : matchAt p s = none ↔ ¬ ∃ t v, s = t ++ v ∧ Matches p t := by
  constructor
  · rintro h ⟨t, v, rfl, ht⟩
    have hsome := ht.matchAt_isSome v
    rw [h] at hsome
    cases hsome
  · intro h
    refine Option.eq_none_iff_forall_ne_some.mpr fun n hn => h ?_
    exact ⟨s.take n, s.drop n, (List.take_append_drop n s).symm, (matchAt_matches hn).2⟩

/-- **Greediness.** If `u` is all that the atom can take and the rest of the pattern
matches behind it, the atom takes `u`. -/
theorem matchAt_greedy (hu : a.Accepts u) (hall : ∀ k ∈ a.counts (u ++ v), k ≤ u.length)
    (hrest : matchAt p v = some n) : matchAt (a :: p) (u ++ v) = some (u.length + n) := by
  -- nothing comes before `u.length` in the order of the trials
  obtain ⟨l, l', hl⟩ := List.append_of_mem (hu.mem_counts v)
  have hnil : l = [] := by
    refine List.eq_nil_iff_forall_not_mem.mpr fun k hk => ?_
    have hsorted := Atom.counts_sorted a (u ++ v)
    rw [hl] at hsorted
    have hgt := (List.pairwise_append.mp hsorted).2.2 k hk _ List.mem_cons_self
    have hle := hall k (by rw [hl]; exact List.mem_append_left _ hk)
    omega
  subst hnil
  rw [matchAt, hl, List.nil_append, List.findSome?_cons, List.drop_left, hrest]
  rfl

/-- An atom that has taken its greatest number can take no more. -/
theorem counts_le_of_full (hu : u.length = a.max) : ∀ k ∈ a.counts (u ++ v), k ≤ u.length := by
  intro k hk
  rw [hu]
  exact (Atom.mem_counts.mp hk).2.1

/-- An atom can take nothing beyond a character of another class. -/
theorem counts_le_of_stop {c : α} (hu : ∀ d ∈ u, a.cls d = true) (hc : a.cls c = false) :
    ∀ k ∈ a.counts (u ++ c :: v), k ≤ u.length := by
  intro k hk
  have hrun := (Atom.mem_counts.mp hk).2.2
  rw [List.takeWhile_append_of_pos hu, List.takeWhile_cons_of_neg (by simp [hc]),
    List.append_nil] at hrun
  exact hrun

/-- An atom of one character takes it. -/
theorem matchAt_one {cls : α → Bool} {c : α} (h : cls c = true) (hrest : matchAt p v = some n) :
    matchAt (Atom.one cls :: p) (c :: v) = some (1 + n) :=
  matchAt_greedy (u := [c]) (Atom.accepts_one h) (counts_le_of_full rfl) hrest

/-! ### The search -/

/-- A match at the start is the first from the left. -/
theorem search_of_matchAt (h : matchAt p s = some n) : search p s = some (0, n) := by
  cases s with
  | nil => rw [search, h]; rfl
  | cons c s => rw [search, h]

/-- A match behind a text that has none is the first from the left. -/
theorem search_append {pre : List α} (hpre : ∀ u v, pre ++ s = u ++ v → u.length < pre.length →
    matchAt p v = none) (h : matchAt p s = some n) :
    search p (pre ++ s) = some (pre.length, pre.length + n) := by
  induction pre with
  | nil =>
    rw [List.nil_append, search_of_matchAt h, List.length_nil, Nat.zero_add]
  | cons c pre ih =>
    have hhere : matchAt p (c :: (pre ++ s)) = none :=
      hpre [] (c :: (pre ++ s)) rfl (Nat.succ_pos _)
    have hrest := ih fun u v huv hu =>
      hpre (c :: u) v (congrArg (c :: ·) huv) (Nat.succ_lt_succ hu)
    rw [List.cons_append, search, hhere]
    dsimp only
    rw [hrest, Option.map_some, List.length_cons, Nat.add_right_comm]

/-- Nothing matches to the left of what the search finds. -/
theorem search_leftmost {i j : ℕ} (h : search p s = some (i, j)) (hs : s = u ++ v)
    (hu : u.length < i) : matchAt p v = none := by
  induction s generalizing u i j with
  | nil =>
    obtain ⟨n, -, heq⟩ := Option.map_eq_some_iff.mp h
    obtain ⟨rfl, -⟩ := Prod.mk.inj heq
    exact absurd hu (Nat.not_lt_zero _)
  | cons c s ih =>
    unfold search at h
    cases hm : matchAt p (c :: s) with
    | some n =>
      -- the search stops here, and nothing is to the left of it
      rw [hm] at h
      obtain ⟨rfl, -⟩ := Prod.mk.inj (Option.some.inj h)
      exact absurd hu (Nat.not_lt_zero _)
    | none =>
      rw [hm] at h
      obtain ⟨⟨i', j'⟩, hrec, heq⟩ := Option.map_eq_some_iff.mp h
      obtain ⟨rfl, -⟩ := Prod.mk.inj heq
      cases u with
      | nil => rwa [← hs.trans (List.nil_append v)]
      | cons d u => exact ih hrec (List.cons.inj hs).2 (Nat.lt_of_succ_lt_succ hu)

/-- What the search finds is a match. -/
theorem search_matches {i j : ℕ} (h : search p s = some (i, j)) :
    ∃ pre t suf, s = pre ++ t ++ suf ∧ pre.length = i ∧ i + t.length = j ∧ Matches p t := by
  induction s generalizing i j with
  | nil =>
    obtain ⟨n, hn, heq⟩ := Option.map_eq_some_iff.mp h
    obtain ⟨rfl, rfl⟩ := Prod.mk.inj heq
    obtain ⟨hle, hmatch⟩ := matchAt_matches hn
    obtain rfl : n = 0 := Nat.le_zero.mp hle
    exact ⟨[], [], [], rfl, rfl, rfl, hmatch⟩
  | cons c s ih =>
    unfold search at h
    cases hm : matchAt p (c :: s) with
    | some n =>
      -- found here
      rw [hm] at h
      obtain ⟨rfl, rfl⟩ := Prod.mk.inj (Option.some.inj h)
      obtain ⟨hle, hmatch⟩ := matchAt_matches hm
      refine ⟨[], (c :: s).take n, (c :: s).drop n, ?_, rfl, ?_, hmatch⟩
      · rw [List.nil_append, List.take_append_drop]
      · rw [List.length_take_of_le hle, Nat.zero_add]
    | none =>
      -- found further right
      rw [hm] at h
      obtain ⟨⟨i', j'⟩, hrec, heq⟩ := Option.map_eq_some_iff.mp h
      obtain ⟨rfl, rfl⟩ := Prod.mk.inj heq
      obtain ⟨pre, t, suf, rfl, rfl, rfl, hmatch⟩ := ih hrec
      exact ⟨c :: pre, t, suf, rfl, rfl, by omega, hmatch⟩

/-- **The search succeeds where there is something to find.** -/
theorem search_isSome_iff :
    (search p s).isSome ↔ ∃ pre t suf, s = pre ++ t ++ suf ∧ Matches p t := by
  constructor
  · intro h
    obtain ⟨⟨i, j⟩, hij⟩ := Option.isSome_iff_exists.mp h
    obtain ⟨pre, t, suf, hs, -, -, ht⟩ := search_matches hij
    exact ⟨pre, t, suf, hs, ht⟩
  · rintro ⟨pre, t, suf, rfl, ht⟩
    induction pre with
    | nil =>
      obtain ⟨n, hn⟩ := Option.isSome_iff_exists.mp (ht.matchAt_isSome suf)
      rw [List.nil_append, search_of_matchAt hn]
      rfl
    | cons c pre ih =>
      rw [List.cons_append, List.cons_append, search]
      cases matchAt p (c :: (pre ++ t ++ suf)) with
      | some n => rfl
      | none => rw [Option.isSome_map]; exact ih

end Text
