import SqlCode.KissFft.Model
import Mathlib.Data.Nat.Prime.Basic
import Mathlib.NumberTheory.SmoothNumbers

/-!
# Factors and fast sizes

`kf_factor` tries 4 as long as it divides, then 2, then the odd numbers in ascending
order, and takes all that is left once the candidate exceeds the square root of `n`. What has
been tried does not divide (`Tried`), so that a candidate that does is 4 or a prime, and what
is left is a prime (`seekRadix_ends`). Each round divides `n`, so the array of
`2 * MAXFACTORS` entries holds the factors of every `int` (`kfFactor_spec`).

`kiss_fft_next_fast_size` searches upwards for a number with no prime factor but
2, 3 and 5; the factors of such a number are 2, 3, 4 and 5.
-/

namespace SqlCode.KissFft

open Exec

/-! ### Factorisations -/

/-- The place of a radix in the order in which they are tried. -/
def rank (p : ℕ) : ℕ := if p = 4 then 1 else p

/-- The pairs `p1, m1, p2, m2, …` go from `n` down to `r`: `p[i] * m[i] = m[i-1]`, with `n` for
`m0`. -/
def ChainTo : ℕ → List (ℕ × ℕ) → ℕ → Prop
  | n, [], r => n = r
  | n, (p, m) :: l, r => p * m = n ∧ ChainTo m l r

theorem ChainTo.append {n r p m : ℕ} {l : List (ℕ × ℕ)} (h : ChainTo n l r) (hr : p * m = r) :
    ChainTo n (l ++ [(p, m)]) m := by
  induction l generalizing n with
  | nil => exact ⟨hr.trans h.symm, rfl⟩
  | cons a l ih => exact ⟨h.1, ih h.2⟩

/-- The radices come in the order in which they are tried, and 2 at most once. -/
def Sorted (l : List (ℕ × ℕ)) : Prop :=
  l.Pairwise fun a b => rank a.1 ≤ rank b.1 ∧ (a.1 = 2 → b.1 ≠ 2)

/-- What `kf_factor` stores for `n`. -/
structure Factorisation (n : ℕ) (l : List (ℕ × ℕ)) : Prop where
  ne_nil : l ≠ []
  chain : ChainTo n l 1
  /-- The radices are 4 or prime. -/
  radix : 1 < n → ∀ a ∈ l, a.1 = 4 ∨ a.1.Prime
  sorted : Sorted l
  one : n = 1 → l = [(1, 1)]

/-! ### The search for a radix -/

/-- The candidates in front of `p` do not divide `n`. -/
def Tried (n p : ℕ) : Prop :=
  p = 4 ∨ (p = 2 ∧ ¬ 4 ∣ n) ∨ (p % 2 = 1 ∧ 3 ≤ p ∧ ∀ d, 2 ≤ d → d < p → ¬ d ∣ n)

theorem Tried.pos {n p : ℕ} (h : Tried n p) : 2 ≤ p := by
  rcases h with rfl | ⟨rfl, -⟩ | ⟨-, h, -⟩ <;> omega

/-- A candidate that divides is 4 or a prime. -/
theorem Tried.radix {n p : ℕ} (h : Tried n p) (hp : p ∣ n) : p = 4 ∨ p.Prime := by
  rcases h with rfl | ⟨rfl, -⟩ | ⟨-, h3, hd⟩
  · exact .inl rfl
  · exact .inr Nat.prime_two
  · refine .inr (Nat.prime_def_minFac.mpr ⟨by omega, ?_⟩)
    have hmin := Nat.minFac_prime (by omega : p ≠ 1)
    rcases (Nat.minFac_le (by omega : 0 < p)).lt_or_eq with hlt | heq
    · exact absurd ((Nat.minFac_dvd p).trans hp) (hd _ hmin.two_le hlt)
    · exact heq

/-- A candidate stays one for what it leaves of `n`. -/
theorem Tried.div {n p : ℕ} (h : Tried n p) (hp : p ∣ n) : Tried (n / p) p := by
  have hdvd : n / p ∣ n := Nat.div_dvd_of_dvd hp
  rcases h with rfl | ⟨rfl, h4⟩ | ⟨hodd, h3, hd⟩
  · exact .inl rfl
  · exact .inr (.inl ⟨rfl, fun h => h4 (h.trans hdvd)⟩)
  · exact .inr (.inr ⟨hodd, h3, fun d h2 hlt h => hd d h2 hlt (h.trans hdvd)⟩)

/-- The step to the next candidate. -/
theorem Tried.next {n p : ℕ} (h : Tried n p) (hp : ¬ p ∣ n) :
    Tried n (nextRadix p) ∧ rank p < rank (nextRadix p) := by
  rcases h with rfl | ⟨rfl, -⟩ | ⟨hodd, h3, hd⟩
  · exact ⟨.inr (.inl ⟨rfl, hp⟩), by decide⟩
  · refine ⟨.inr (.inr ⟨rfl, le_rfl, fun d h2 hlt => ?_⟩), by decide⟩
    obtain rfl : d = 2 := by
      change d < 3 at hlt
      omega
    exact hp
  · have hnext : nextRadix p = p + 2 := by
      unfold nextRadix
      split <;> omega
    rw [hnext]
    refine ⟨.inr (.inr ⟨by omega, by omega, fun d h2 hlt hdvd => ?_⟩), ?_⟩
    · rcases (by omega : d < p ∨ d = p ∨ d = p + 1) with hlt | rfl | rfl
      · exact hd d h2 hlt hdvd
      · exact hp hdvd
      · -- an even number, and 2 has been tried
        exact hd 2 le_rfl (by omega) ((Nat.dvd_of_mod_eq_zero (by omega)).trans hdvd)
    · rw [rank, rank, if_neg (by omega), if_neg (by omega)]
      omega

/-- When the candidate exceeds the square root, what is left is prime. -/
theorem Tried.prime {n p f : ℕ} (h : Tried n p) (hn : 1 < n) (hp : p ≠ 4) (hf : n < (f + 1) ^ 2)
    (hlt : f < p) : n.Prime ∧ p ≤ n := by
  have hmin := Nat.minFac_prime (by omega : n ≠ 1)
  -- a smallest factor below the candidate would have been found
  have hle : p ≤ n.minFac := by
    rcases h with rfl | ⟨rfl, -⟩ | ⟨-, -, hd⟩
    · exact absurd rfl hp
    · exact hmin.two_le
    · by_contra hcon
      exact hd _ hmin.two_le (by omega) (Nat.minFac_dvd n)
  refine ⟨?_, hle.trans (Nat.minFac_le (by omega))⟩
  by_contra hprime
  have hsq := Nat.minFac_sq_le_self (by omega : 0 < n) hprime
  have hpow : (f + 1) ^ 2 ≤ n.minFac ^ 2 := Nat.pow_le_pow_left (by omega) 2
  omega

theorem nextRadix_ne_four {n p : ℕ} (h : Tried n p) : nextRadix p ≠ 4 := by
  rcases h with rfl | ⟨rfl, -⟩ | ⟨hodd, h3, -⟩
  · decide
  · decide
  · unfold nextRadix
    split <;> omega

theorem rank_of_ne_four {p : ℕ} (h : p ≠ 4) : rank p = p := if_neg h

/-- What the inner loop is at: a candidate, or all that is left of `n`. -/
def Candidate (f n p₀ p : ℕ) : Prop :=
  (Tried n p ∧ (p = 4 ∨ p ≤ f) ∧ rank p₀ ≤ rank p) ∨
    (p = n ∧ (1 < n → n.Prime ∧ rank p₀ ≤ rank n))

/-- One round of the inner loop. -/
theorem Candidate.next {f n p₀ p : ℕ} (h : Candidate f n p₀ p) (hf : n < (f + 1) ^ 2)
    (hp : ¬ p ∣ n) :
    Candidate f n p₀ (if f < nextRadix p then n else nextRadix p) := by
  obtain ⟨htried, -, hrank⟩ | ⟨rfl, -⟩ := h
  · obtain ⟨hnext, hlt⟩ := htried.next hp
    have hne := nextRadix_ne_four htried
    -- `p > floor_sqrt` skips to the end, where what is left is prime
    split_ifs with hskip
    · refine .inr ⟨rfl, fun hn => ?_⟩
      obtain ⟨hprime, hle⟩ := hnext.prime hn hne hf hskip
      have hn4 : n ≠ 4 := by
        rintro rfl
        exact absurd hprime (by decide)
      refine ⟨hprime, ?_⟩
      calc rank p₀ ≤ rank (nextRadix p) := hrank.trans hlt.le
        _ = nextRadix p := rank_of_ne_four hne
        _ ≤ n := hle
        _ = rank n := (rank_of_ne_four hn4).symm
    · exact .inl ⟨hnext, .inr (by omega), hrank.trans hlt.le⟩
  · exact absurd dvd_rfl hp

/-- What the inner loop finds. -/
structure Found (f n p₀ p : ℕ) : Prop where
  dvd : p ∣ n
  radix : 1 < n → p = 4 ∨ p.Prime
  rank_le : 1 < n → rank p₀ ≤ rank p
  once : p = 2 → ¬ 2 ∣ n / p
  next : 1 < n / p → Tried (n / p) p ∧ (p = 4 ∨ p ≤ f)

theorem Candidate.found {f n p₀ p : ℕ} (h : Candidate f n p₀ p) (hn : 0 < n) (hp : p ∣ n) :
    Found f n p₀ p := by
  obtain ⟨htried, hle, hrank⟩ | ⟨rfl, hprime⟩ := h
  · refine ⟨hp, fun _ => htried.radix hp, fun _ => hrank, ?_, fun _ => ⟨htried.div hp, hle⟩⟩
    rintro rfl h2
    rcases htried with h | ⟨-, h4⟩ | ⟨h, -⟩
    · omega
    · exact h4 ((Nat.dvd_div_iff_mul_dvd hp).mp h2)
    · omega
  · have hself : p / p = 1 := Nat.div_self hn
    refine ⟨hp, fun h => .inr (hprime h).1, fun h => (hprime h).2, fun _ => ?_, fun h => ?_⟩
    · rw [hself]
      decide
    · omega

/-- **The inner loop** ends at a radix. -/
theorem seekRadix_ends {f n p : ℕ} (hn : 0 < n) (hf : n < (f + 1) ^ 2) (hp : Tried n p)
    (hle : p = 4 ∨ p ≤ f) : Ends (seekRadix f n p) (Found f n p) := by
  -- a divisor ends the loop, and the other candidates come in increasing rank
  refine (ends_while_decreasing (fun q => if q ∣ n then 0 else f + 3 - rank q)
    (Candidate f n p) (.inl ⟨hp, hle, le_rfl⟩) ?_).mono fun q ⟨hq, hcond⟩ => ?_
  · intro q hq hcond
    have hdvd : ¬ q ∣ n := by
      rw [Nat.dvd_iff_mod_eq_zero]
      simpa using hcond
    refine ends_pure ⟨hq.next hf hdvd, ?_⟩
    obtain ⟨htried, hqle, -⟩ | ⟨rfl, -⟩ := hq
    · obtain ⟨-, hlt⟩ := htried.next hdvd
      have hrank : rank q < f + 3 := by
        rcases hqle with rfl | hqle
        · exact Nat.lt_of_lt_of_le (by decide : rank 4 < 3) (Nat.le_add_left 3 f)
        · unfold rank
          split <;> omega
      rw [if_neg hdvd]
      split_ifs
      · omega
      · exact absurd dvd_rfl ‹¬ n ∣ n›
      · omega
      · omega
    · exact absurd dvd_rfl hdvd
  -- the loop has ended at a divisor
  · refine hq.found hn (Nat.dvd_of_mod_eq_zero ?_)
    simpa using hcond

/-! ### The factorisation -/

/-- What `kf_factor` has of `n` after some rounds of its outer loop. -/
structure Partial (n f : ℕ) (s : Factoring) : Prop where
  pos : 0 < s.n
  chain : ChainTo n s.facbuf s.n
  radix : ∀ a ∈ s.facbuf, a.1 = 4 ∨ a.1.Prime
  sorted : Sorted s.facbuf
  bound : 2 ^ s.facbuf.length * s.n ≤ n
  next : 1 < s.n → Tried s.n s.p ∧ (s.p = 4 ∨ s.p ≤ f) ∧
    ∀ a ∈ s.facbuf, rank a.1 ≤ rank s.p ∧ (a.1 = 2 → ¬ 2 ∣ s.n)

theorem Partial.start {n : ℕ} (f : ℕ) (hn : 0 < n) : Partial n f ⟨n, 4, []⟩ where
  pos := hn
  chain := rfl
  radix := by simp
  sorted := List.Pairwise.nil
  bound := by simp
  next _ := ⟨.inl rfl, .inl rfl, by simp⟩

/-- One more pair. -/
theorem Partial.push {n f p : ℕ} {s : Factoring} (h : Partial n f s) (hn : 1 < s.n)
    (hp : Found f s.n s.p p) : Partial n f ⟨s.n / p, p, s.facbuf ++ [(p, s.n / p)]⟩ := by
  obtain ⟨-, -, hold⟩ := h.next hn
  have hmul : p * (s.n / p) = s.n := Nat.mul_div_cancel' hp.dvd
  -- each radix at least halves what is left, which bounds the number of pairs
  have hradix := hp.radix hn
  have hp2 : 2 ≤ p := by
    rcases hradix with rfl | hprime
    · decide
    · exact hprime.two_le
  have hpos : 0 < s.n / p := Nat.div_pos (Nat.le_of_dvd (by omega) hp.dvd) (by omega)
  refine ⟨hpos, h.chain.append hmul, ?_, ?_, ?_, fun hnext => ⟨(hp.next hnext).1,
    (hp.next hnext).2, ?_⟩⟩
  · intro a ha
    rcases List.mem_append.mp ha with ha | ha
    · exact h.radix a ha
    · rwa [List.mem_singleton.mp ha]
  -- the new radix comes after the old ones, and not after an old 2 if it is one
  · refine List.pairwise_append.mpr ⟨h.sorted, List.pairwise_singleton .., fun a ha b hb => ?_⟩
    rw [List.mem_singleton.mp hb]
    refine ⟨(hold a ha).1.trans (hp.rank_le hn), fun h2 hb2 => (hold a ha).2 h2 ?_⟩
    exact hb2 ▸ hp.dvd
  · change 2 ^ (s.facbuf ++ [(p, s.n / p)]).length * (s.n / p) ≤ n
    rw [List.length_append, List.length_singleton, pow_succ]
    calc 2 ^ s.facbuf.length * 2 * (s.n / p)
        = 2 ^ s.facbuf.length * (2 * (s.n / p)) := mul_assoc ..
      _ ≤ 2 ^ s.facbuf.length * (p * (s.n / p)) := by gcongr
      _ = 2 ^ s.facbuf.length * s.n := by rw [hmul]
      _ ≤ n := h.bound
  · intro a ha
    rcases List.mem_append.mp ha with ha | ha
    · refine ⟨(hold a ha).1.trans (hp.rank_le hn), fun h2 hdvd => (hold a ha).2 h2 ?_⟩
      exact hdvd.trans (Nat.div_dvd_of_dvd hp.dvd)
    · rw [List.mem_singleton.mp ha]
      exact ⟨le_rfl, hp.once⟩

/-- The array has room for one more pair. -/
theorem Partial.length_lt {n f : ℕ} {s : Factoring} (h : Partial n f s)
    (h31 : n < 2 ^ 31) : s.facbuf.length < MAXFACTORS := by
  have hpow : 2 ^ s.facbuf.length < 2 ^ 31 :=
    calc 2 ^ s.facbuf.length ≤ 2 ^ s.facbuf.length * s.n := Nat.le_mul_of_pos_right _ h.pos
      _ ≤ n := h.bound
      _ < 2 ^ 31 := h31
  have hlt : s.facbuf.length < 31 := (Nat.pow_lt_pow_iff_right (by decide)).mp hpow
  exact hlt.trans (by decide)

/-- One round of the outer loop. -/
theorem factorRound_ends {n f : ℕ} {s : Factoring} (h : Partial n f s) (hn : 1 < s.n)
    (hf : n < (f + 1) ^ 2) (h31 : n < 2 ^ 31) :
    Ends (factorRound f s) fun s' => (Partial n f s' ∧ s'.n < s.n) ∧ s'.facbuf ≠ [] := by
  obtain ⟨htried, hle, -⟩ := h.next hn
  have hsn : s.n ≤ n := (Nat.le_mul_of_pos_left _ (by positivity)).trans h.bound
  refine (seekRadix_ends h.pos (by omega) htried hle).bind fun p hp => ?_
  change Ends (pushFactor s.facbuf p (s.n / p) >>= fun facbuf =>
    pure (Factoring.mk (s.n / p) p facbuf)) _
  rw [pushFactor, if_pos (h.length_lt h31), pure_bind]
  refine ends_pure ⟨⟨h.push hn hp, Nat.div_lt_self h.pos ?_⟩, by simp⟩
  rcases hp.radix hn with rfl | hprime
  · decide
  · exact hprime.one_lt

/-- The only round for 1. -/
theorem factorRound_one : Ends (factorRound 1 ⟨1, 4, []⟩) (· = ⟨1, 1, [(1, 1)]⟩) := by
  refine (seekRadix_ends Nat.one_pos (by decide) (.inl rfl) (.inl rfl)).bind fun p hp => ?_
  obtain rfl : p = 1 := Nat.dvd_one.mp hp.dvd
  exact ends_pure rfl

/-- **`kf_factor`** factors every `int` from 1 on within its array. -/
theorem kfFactor_spec {n : ℕ} (hn : 0 < n) (h31 : n < 2 ^ 31) :
    Ends (kfFactor n) (Factorisation n) := by
  have hf : n < (n.sqrt + 1) ^ 2 := by
    rw [pow_two]
    exact Nat.lt_succ_sqrt n
  unfold kfFactor
  rcases (by omega : n = 1 ∨ 1 < n) with rfl | h1
  -- `do … while` stores a pair for 1 too
  · refine factorRound_one.bind fun s hs => ?_
    subst hs
    refine (Ends.of_returns (returns_while_false rfl) rfl).bind fun s hs => ?_
    subst hs
    exact ends_pure ⟨by simp, ⟨rfl, rfl⟩, fun h => absurd h (lt_irrefl 1),
      List.pairwise_singleton .., fun _ => rfl⟩
  · have hstart := Partial.start n.sqrt hn
    refine (factorRound_ends hstart h1 hf h31).bind fun s hs => ?_
    -- what is left becomes smaller in each round
    refine (ends_while_decreasing Factoring.n (fun s => Partial n n.sqrt s ∧ s.facbuf ≠ [])
      ⟨hs.1.1, hs.2⟩ fun s hs hcond => ?_).bind fun s hs => ?_
    · have hround := factorRound_ends hs.1 (of_decide_eq_true hcond) hf h31
      exact hround.mono fun s' h => ⟨⟨h.1.1, h.2⟩, h.1.2⟩
    · obtain ⟨⟨h, hne⟩, hcond⟩ := hs
      have hlast : s.n = 1 := by
        have := h.pos
        have := of_decide_eq_false hcond
        omega
      exact ends_pure ⟨hne, hlast ▸ h.chain, fun _ => h.radix, h.sorted, fun h => by omega⟩

/-- A 4 or a prime is its own factorisation, and so is 1. -/
theorem Factorisation.eq_singleton {n : ℕ} {l : List (ℕ × ℕ)} (h : Factorisation n l)
    (hn : n = 1 ∨ n = 4 ∨ n.Prime) : l = [(n, 1)] := by
  by_cases h1 : n = 1
  · rw [h.one h1, h1]
  have h2 : 1 < n := by
    rcases hn with rfl | rfl | hprime
    · omega
    · omega
    · exact hprime.one_lt
  have hradix := h.radix h2
  obtain _ | ⟨⟨p, m⟩, rest⟩ := l
  · exact absurd rfl h.ne_nil
  obtain ⟨hpm, hrest⟩ := h.chain
  have hp1 : 1 < p := by
    rcases hradix (p, m) List.mem_cons_self with rfl | hp
    · decide
    · exact hp.one_lt
  -- the first radix is all of `n`
  obtain rfl : p = n := by
    rcases hn with rfl | rfl | hprime
    · omega
    · have hp4 : p ≤ 4 := Nat.le_of_dvd (by decide) (Dvd.intro _ hpm)
      rcases (by omega : p = 2 ∨ p = 3 ∨ p = 4) with rfl | rfl | rfl
      · -- then a second 2 would follow
        obtain rfl : m = 2 := by omega
        obtain _ | ⟨⟨p', m'⟩, rest⟩ := rest
        · exact absurd (show 2 = 1 from hrest) (by decide)
        have hp' := hradix (p', m') (by simp)
        have hdvd : p' ∣ 2 := Dvd.intro _ hrest.1
        have hle := Nat.le_of_dvd (by decide) hdvd
        have hsorted := (List.pairwise_cons.mp h.sorted).1 (p', m') List.mem_cons_self
        rcases hp' with h4 | hp'
        · omega
        · exact absurd ((Nat.prime_dvd_prime_iff_eq hp' Nat.prime_two).mp hdvd)
            (hsorted.2 rfl)
      · omega
      · rfl
    · exact ((Nat.dvd_prime hprime).mp (Dvd.intro _ hpm)).resolve_left (by omega)
  obtain rfl : m = 1 := Nat.eq_of_mul_eq_mul_left (by omega) (hpm.trans (mul_one p).symm)
  -- and nothing follows
  obtain _ | ⟨⟨p', m'⟩, rest⟩ := rest
  · rfl
  have hone : p' = 1 := Nat.eq_one_of_mul_eq_one_right hrest.1
  rcases hradix (p', m') (by simp) with h4 | hp'
  · omega
  · exact absurd (hone ▸ hp') Nat.not_prime_one

/-! ### Fast sizes -/

/-- What `divideOut` leaves of a positive number. -/
structure Divided (d m r : ℕ) : Prop where
  pos : 0 < r
  not_dvd : ¬ d ∣ r
  eq : ∃ k, m = d ^ k * r

theorem divideOut_ends {d m : ℕ} (hd : 1 < d) (hm : 0 < m) :
    Ends (divideOut d m) fun r => ∃ r' : ℕ, r = r' ∧ Divided d m r' := by
  -- a division by `d > 1` makes a positive number smaller
  refine (ends_while_decreasing Int.natAbs
    (fun r => ∃ r' : ℕ, r = r' ∧ 0 < r' ∧ ∃ k, m = d ^ k * r')
    ⟨m, rfl, hm, 0, by simp⟩ ?_).mono ?_
  · rintro _ ⟨r, rfl, hr, k, hk⟩ hcond
    have hdvd : d ∣ r := by
      have h := beq_iff_eq.mp hcond
      exact Int.natCast_dvd_natCast.mp (Int.dvd_of_tmod_eq_zero h)
    obtain ⟨q, rfl⟩ := hdvd
    have hq : 0 < q := Nat.pos_of_mul_pos_left hr
    have hdiv : (((d * q : ℕ) : ℤ).tdiv d) = q := by
      rw [Int.natCast_mul, Int.mul_tdiv_cancel_left _ (by omega)]
    refine ends_pure ?_
    rw [hdiv]
    refine ⟨⟨q, rfl, hq, k + 1, by rw [hk, pow_succ, mul_assoc]⟩, ?_⟩
    rw [Int.natAbs_natCast, Int.natAbs_natCast]
    exact lt_mul_of_one_lt_left hq hd
  · rintro _ ⟨⟨r, rfl, hr, hk⟩, hcond⟩
    refine ⟨r, rfl, hr, fun hdvd => ?_, hk⟩
    have hmod : (r : ℤ).tmod d = 0 := Int.tmod_eq_zero_of_dvd (Int.natCast_dvd_natCast.mpr hdvd)
    rw [hmod] at hcond
    exact absurd hcond (by decide)

/-- A negative number stays negative. -/
theorem divideOut_neg {d : ℕ} {m : ℤ} (hd : 1 < d) (hm : m < 0) :
    Ends (divideOut d m) (· < 0) := by
  refine (ends_while_decreasing Int.natAbs (· < 0) hm fun r hr hcond => ?_).mono
    fun r hr => hr.1
  obtain ⟨q, rfl⟩ := Int.dvd_of_tmod_eq_zero (beq_iff_eq.mp hcond)
  have hdiv : ((d : ℤ) * q).tdiv d = q := Int.mul_tdiv_cancel_left _ (by omega)
  refine ends_pure ?_
  rw [hdiv]
  have hq : q < 0 := by
    by_contra hcon
    have := Int.mul_nonneg (Int.natCast_nonneg d) (Int.not_lt.mp hcon)
    omega
  refine ⟨hq, ?_⟩
  rw [Int.natAbs_mul, Int.natAbs_natCast]
  exact lt_mul_of_one_lt_left (by omega) hd

/-- Zero has every factor, again and again. -/
theorem divideOut_zero (d : ℤ) : Stuck (divideOut d 0) :=
  stuck_while_fixed (by simp) fun fuel => by
    rw [Int.zero_tdiv]
    rfl

/-- What is left tells whether there is a prime factor but 2, 3 and 5. -/
theorem slowPart_ends {n : ℕ} (hn : 0 < n) :
    Ends (slowPart n) fun m => m ≤ 1 ↔ n ∈ Nat.smoothNumbers 6 := by
  refine (divideOut_ends (by decide) hn).bind ?_
  rintro _ ⟨m₂, rfl, h₂⟩
  refine (divideOut_ends (by decide) h₂.pos).bind ?_
  rintro _ ⟨m₃, rfl, h₃⟩
  refine (divideOut_ends (by decide) h₃.pos).mono ?_
  rintro _ ⟨m₅, rfl, h₅⟩
  obtain ⟨a, ha⟩ := h₂.eq
  obtain ⟨b, hb⟩ := h₃.eq
  obtain ⟨c, hc⟩ := h₅.eq
  have h32 : m₃ ∣ m₂ := hb ▸ Dvd.intro_left _ rfl
  have h53 : m₅ ∣ m₃ := hc ▸ Dvd.intro_left _ rfl
  have h5n : m₅ ∣ n := (h53.trans h32).trans (ha ▸ Dvd.intro_left _ rfl)
  rw [Nat.mem_smoothNumbers']
  constructor
  -- if 1 is left, then `n` is a product of powers of 2, 3 and 5
  · intro hle q hq hqn
    have hone : m₅ = 1 := by
      have := h₅.pos
      omega
    rw [ha, hb, hc, hone, mul_one] at hqn
    rcases (Nat.Prime.dvd_mul hq).mp hqn with h | h
    · exact ((Nat.prime_dvd_prime_iff_eq hq Nat.prime_two).mp (hq.dvd_of_dvd_pow h)) ▸ by decide
    · rcases (Nat.Prime.dvd_mul hq).mp h with h | h
      · exact ((Nat.prime_dvd_prime_iff_eq hq Nat.prime_three).mp (hq.dvd_of_dvd_pow h)) ▸
          by decide
      · exact ((Nat.prime_dvd_prime_iff_eq hq Nat.prime_five).mp (hq.dvd_of_dvd_pow h)) ▸
          by decide
  · intro hsmooth
    by_contra hlt
    -- a prime factor of what is left would be one of the three
    obtain ⟨q, hq, hqm⟩ := Nat.exists_prime_and_dvd (n := m₅) (by omega)
    have hq6 := hsmooth q hq (hqm.trans h5n)
    have hq2 := hq.two_le
    rcases (by omega : q = 2 ∨ q = 3 ∨ q = 4 ∨ q = 5) with rfl | rfl | rfl | rfl
    · exact h₂.not_dvd ((hqm.trans h53).trans h32)
    · exact h₃.not_dvd (hqm.trans h53)
    · exact absurd hq (by decide)
    · exact h₅.not_dvd hqm

/-- The fast sizes are the products of powers of 2, 3 and 5. -/
theorem mem_smoothNumbers_iff {k : ℕ} :
    k ∈ Nat.smoothNumbers 6 ↔ ∃ a b c, k = 2 ^ a * 3 ^ b * 5 ^ c := by
  constructor
  · intro hk
    have hprod := Nat.prod_factorization_pow_eq_self hk.1
    have hprimes : Nat.primesBelow 6 = {2, 3, 5} := by decide
    rw [Finsupp.prod_of_support_subset _ (Nat.primeFactors_subset_of_mem_smoothNumbers hk) _
      fun p _ => pow_zero p, hprimes, Finset.prod_insert (by decide),
      Finset.prod_insert (by decide), Finset.prod_singleton, ← mul_assoc] at hprod
    exact ⟨_, _, _, hprod.symm⟩
  · rintro ⟨a, b, c, rfl⟩
    have hone : 1 ∈ Nat.smoothNumbers 2 := Nat.mem_smoothNumbers_of_lt one_pos one_lt_two
    have htwo := Nat.pow_mul_mem_smoothNumbers two_ne_zero a hone
    have hthree := Nat.pow_mul_mem_smoothNumbers three_ne_zero b htwo
    have hfive := Nat.pow_mul_mem_smoothNumbers (by decide : 5 ≠ 0) c
      (Nat.smoothNumbers_mono (by decide : 4 ≤ 5) hthree)
    convert hfive using 1
    ring

/-- The powers of 2 are fast. -/
theorem two_pow_mem_smoothNumbers (k : ℕ) : 2 ^ k ∈ Nat.smoothNumbers 6 :=
  mem_smoothNumbers_iff.mpr ⟨k, 0, 0, by ring⟩

/-- The greatest fast size that is an `int`. -/
abbrev maxFast : ℕ := 2125764000

theorem maxFast_mem_smoothNumbers : maxFast ∈ Nat.smoothNumbers 6 :=
  mem_smoothNumbers_iff.mpr ⟨5, 12, 3, by norm_num⟩

theorem le_maxFast {k : ℕ} (hk : k ∈ Nat.smoothNumbers 6) (h31 : k < 2 ^ 31) : k ≤ maxFast := by
  obtain ⟨a, b, c, rfl⟩ := mem_smoothNumbers_iff.mp hk
  -- each power is a divisor, which bounds its exponent
  have hbound : ∀ {p e m : ℕ}, 1 < p → 2 ^ 31 ≤ p ^ m → p ^ e ∣ 2 ^ a * 3 ^ b * 5 ^ c → e < m :=
    fun hp hm hdvd => (Nat.pow_lt_pow_iff_right hp).mp
      ((Nat.le_of_dvd (by positivity) hdvd).trans_lt (h31.trans_le hm))
  have ha : a < 31 := hbound (by decide : 1 < 2) le_rfl
    ((Dvd.intro _ rfl).trans (Dvd.intro _ rfl))
  have hb : b < 20 := hbound (by decide : 1 < 3) (by decide)
    ((Dvd.intro_left _ rfl).trans (Dvd.intro _ rfl))
  have hc : c < 14 := hbound (by decide : 1 < 5) (by decide) (Dvd.intro_left _ rfl)
  have hall : ∀ a < 31, ∀ b < 20, ∀ c < 14,
      2 ^ a * 3 ^ b * 5 ^ c < 2 ^ 31 → 2 ^ a * 3 ^ b * 5 ^ c ≤ maxFast := by
    decide +kernel
  exact hall a ha b hb c hc h31

/-- A round of the search, at a number that is not fast. -/
theorem nextFastSize_round {n : ℕ} (hn : 0 < n) (h31 : n + 1 < 2 ^ 31)
    (hslow : n ∉ Nat.smoothNumbers 6) :
    Ends (do
      let m ← slowPart n
      if m ≤ 1 then pure ((n : ℤ), true)
      else
        let n ← checkedInt ((n : ℤ) + 1)
        pure (n, false)) (· = (((n + 1 : ℕ) : ℤ), false)) := by
  refine (slowPart_ends hn).bind fun m hm => ?_
  rw [if_neg fun h => hslow (hm.mp h), checkedInt_eq (by omega) (by omega)]
  exact ends_pure rfl

/-- The state of the search from `n` on after `t` rounds, for the fast size `k`. -/
def Searching (n k t : ℕ) (s : ℤ × Bool) : Prop :=
  if t ≤ k - n then s = (((n + t : ℕ) : ℤ), false) else s = ((k : ℤ), true)

/-- **`kiss_fft_next_fast_size`** of a number up to the greatest fast size is the least one from
it on. -/
theorem nextFastSize_pos {n : ℕ} (hn : 0 < n) (hmax : n ≤ maxFast) :
    Ends (kissFftNextFastSize n) fun r =>
      ∃ k : ℕ, r = k ∧ IsLeast {k | n ≤ k ∧ k ∈ Nat.smoothNumbers 6} k := by
  classical
  have hex : ∃ k, n ≤ k ∧ k ∈ Nat.smoothNumbers 6 := ⟨maxFast, hmax, maxFast_mem_smoothNumbers⟩
  obtain ⟨hle, hsmooth⟩ := Nat.find_spec hex
  have hkmax : Nat.find hex ≤ maxFast := Nat.find_min' hex ⟨hmax, maxFast_mem_smoothNumbers⟩
  set k := Nat.find hex
  have hleast : ∀ j, n ≤ j → j < k → j ∉ Nat.smoothNumbers 6 := fun j hj hjk h =>
    Nat.find_min hex hjk ⟨hj, h⟩
  refine (ends_while (n := k - n + 1) (Searching n k) ?_ ?_ ?_).bind ?_
  · rw [Searching, if_pos (Nat.zero_le _)]
    rfl
  · intro t s ht hs
    rw [Searching, if_pos (by omega)] at hs
    subst hs
    refine ⟨rfl, ?_⟩
    by_cases htk : n + t = k
    · -- the last round
      refine (slowPart_ends (by omega)).bind fun m hm => ?_
      rw [if_pos (hm.mpr (htk ▸ hsmooth))]
      refine ends_pure ?_
      rw [Searching, if_neg (by omega), htk]
    · refine (nextFastSize_round (by omega) (by unfold maxFast at hkmax; omega)
        (hleast (n + t) (by omega) (by omega))).mono fun s hs => ?_
      rw [Searching, if_pos (by omega)]
      exact hs
  · intro s hs
    rw [Searching, if_neg (by omega)] at hs
    rw [hs]
    rfl
  · intro s hs
    rw [Searching, if_neg (by omega)] at hs
    subst hs
    refine ends_pure ⟨k, rfl, ⟨hle, hsmooth⟩, fun j hj => ?_⟩
    by_contra hlt
    exact hleast j hj.1 (by omega) hj.2

/-- From a number above all fast sizes the search leaves the `int`s. -/
theorem nextFastSize_overflows {n : ℕ} (hmax : maxFast < n) (h31 : n < 2 ^ 31) :
    Fails (· = .overflow) (kissFftNextFastSize n) := by
  have hslow : ∀ j, n ≤ j → j < 2 ^ 31 → j ∉ Nat.smoothNumbers 6 := fun j hj hj31 h =>
    absurd (le_maxFast h hj31) (by omega)
  refine (fails_while (n := 2 ^ 31 - 1 - n) (fun t s => s = (((n + t : ℕ) : ℤ), false)) rfl ?_
    ?_).bind_left _
  · rintro t _ ht rfl
    exact ⟨rfl, nextFastSize_round (by omega) (by omega) (hslow _ (by omega) (by omega))⟩
  · rintro _ rfl
    have hlast : n + (2 ^ 31 - 1 - n) = 2 ^ 31 - 1 := by omega
    rw [hlast]
    obtain ⟨m, hm, hm1⟩ := slowPart_ends (n := 2 ^ 31 - 1) (by decide)
    refine ⟨rfl, Fails.bind_right hm ?_⟩
    rw [if_neg fun h => hslow _ (by omega) (by decide) (hm1.mp h)]
    exact (fails_checkedInt (by decide)).bind_left _

/-- A negative number is returned as it is. -/
theorem nextFastSize_neg {n : ℤ} (hn : n < 0) : Returns (kissFftNextFastSize n) n := by
  obtain ⟨m, hm, hneg⟩ : Ends (slowPart n) (· < 0) :=
    (divideOut_neg (by decide) hn).bind fun m hm =>
      (divideOut_neg (by decide) hm).bind fun m hm => divideOut_neg (by decide) hm
  refine Returns.bind (returns_while_true rfl ?_ (returns_while_false (s := (n, true)) rfl))
    (returns_pure n)
  refine hm.bind ?_
  rw [if_pos (by omega)]
  exact returns_pure _

/-- For zero the search does not end. -/
theorem nextFastSize_zero : Stuck (kissFftNextFastSize 0) := by
  refine (fails_while_body rfl ?_).bind_left _
  exact ((divideOut_zero 2).bind_left _).bind_left _

/-- **The next fast size**, for every `int`: a positive one leads to the least number from it on
without a prime factor from 6 on, if that is an `int`, and otherwise to an overflow; a negative one
is returned, and zero is searched for ever. -/
theorem kissFftNextFastSize_spec :
    (∀ n : ℕ, 0 < n → n ≤ maxFast → Ends (kissFftNextFastSize n) fun r =>
      ∃ k : ℕ, r = k ∧ IsLeast {k | n ≤ k ∧ k ∈ Nat.smoothNumbers 6} k) ∧
    (∀ n : ℕ, maxFast < n → n < 2 ^ 31 → Fails (· = .overflow) (kissFftNextFastSize n)) ∧
    (∀ n : ℤ, n < 0 → Returns (kissFftNextFastSize n) n) ∧
    Stuck (kissFftNextFastSize 0) :=
  ⟨fun _ => nextFastSize_pos, fun _ => nextFastSize_overflows, fun _ => nextFastSize_neg,
    nextFastSize_zero⟩

/-- Seven is prime, and eight is fast. -/
theorem nextFastSize_seven : Ends (kissFftNextFastSize 7) (· = 8) := by
  refine (kissFftNextFastSize_spec.1 7 (by decide) (by decide)).mono ?_
  rintro _ ⟨k, rfl, hk⟩
  have h8 : IsLeast {k | 7 ≤ k ∧ k ∈ Nat.smoothNumbers 6} 8 := by
    refine ⟨⟨by decide, two_pow_mem_smoothNumbers 3⟩, fun k hk => ?_⟩
    have hne : k ≠ 7 := by
      rintro rfl
      exact absurd (Nat.mem_smoothNumbers'.mp hk.2 7 (by decide) dvd_rfl) (by decide)
    have hle := hk.1
    omega
  rw [hk.unique h8]
  rfl

/-- The radices of a number divide it. -/
theorem ChainTo.dvd {n r : ℕ} {l : List (ℕ × ℕ)} (h : ChainTo n l r) :
    ∀ a ∈ l, a.1 ∣ n := by
  induction l generalizing n with
  | nil => simp
  | cons b l ih =>
    obtain ⟨p, m⟩ := b
    intro a ha
    rcases List.mem_cons.mp ha with rfl | ha
    · exact Dvd.intro _ h.1
    · exact (ih h.2 a ha).trans (Dvd.intro_left _ h.1)

/-- **A fast size is fast**: `kf_factor` finds no radix but 2, 3, 4 and 5 in it, so that
`kf_bfly_generic` is not called. The sizes are those for which the search does not leave the
`int`s. -/
theorem nextFastSize_factors {n : ℕ} (h1 : 1 < n) (h30 : n ≤ 2 ^ 30) :
    Ends (do
      let k ← kissFftNextFastSize n
      kfFactor k.toNat) fun l => ∀ a ∈ l, a.1 = 2 ∨ a.1 = 3 ∨ a.1 = 4 ∨ a.1 = 5 := by
  refine (nextFastSize_pos (by omega) (by unfold maxFast; omega)).bind ?_
  rintro _ ⟨k, rfl, hk⟩
  -- the power of 2 is fast, so the search ends there at the latest
  have hle : k ≤ 2 ^ 30 := hk.2 ⟨h30, two_pow_mem_smoothNumbers 30⟩
  have hnk : n ≤ k := hk.1.1
  rw [Int.toNat_natCast]
  refine (kfFactor_spec (by omega) (by omega)).mono fun l hl a ha => ?_
  rcases hl.radix (by omega) a ha with h4 | hprime
  · exact .inr (.inr (.inl h4))
  · have hlt := Nat.mem_smoothNumbers'.mp hk.1.2 _ hprime (hl.chain.dvd a ha)
    have h2 := hprime.two_le
    omega

/-- The size for 101, a prime. -/
theorem nextFastSize_factors_prime : Ends (do
      let k ← kissFftNextFastSize (101 : ℕ)
      kfFactor k.toNat) fun l => ∀ a ∈ l, a.1 = 2 ∨ a.1 = 3 ∨ a.1 = 4 ∨ a.1 = 5 :=
  nextFastSize_factors (by decide) (by decide)

end SqlCode.KissFft
