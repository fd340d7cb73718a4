import Mathlib.Tactic.Ring
import Mathlib.Data.Nat.Basic

/-!
# Programs with faults and a loop budget

A `Prog α` is a computation that is handed a budget of loop rounds and then
either delivers a value or stops with a `Fault`. The budget is the only source
of `Fault.outOfFuel`, and a program that needs no `while` loop ignores it.

Results are read off in the limit of large budgets:

* `Returns p a` — every large enough budget makes `p` deliver `a`;
* `ReturnsAfter p n a` — it does so after `n` rounds of its loop, and a budget of
  `n` or less is too small;
* `Ends p Q` — `p` returns some value satisfying `Q` (total correctness);
* `Always p Q` — whatever `p` delivers satisfies `Q` (partial correctness);
* `Fails E p` — every large enough budget makes `p` stop with a fault in `E`;
* `Raises p` — that fault is `p`'s own, not an exhausted budget;
* `Stuck p` — no large budget makes `p` deliver a value, be it for a fault or
  for a loop that never ends;
* `Avoids e p` — no budget makes `p` stop with the fault `e`.

The budget threshold is bound existentially inside these notions, so their
rules (`Ends.bind`, `ends_forCount`, `ends_forRange`, `returns_while_true`, …) never mention
fuel, and clients do not either.
-/

namespace Exec

/-- Why a run stops without delivering a value. -/
inductive Fault
  /-- A read or a write outside the bounds of an array. -/
  | outOfBounds
  /-- An integer division by zero. -/
  | divideByZero
  /-- A result outside of its signed integer type. -/
  | overflow
  /-- The loop budget ran out. -/
  | outOfFuel
  /-- The program ended the process itself. -/
  | exit
  deriving DecidableEq, Repr

/-- A computation with faults under a loop budget. -/
abbrev Prog (α : Type) := ReaderT ℕ (Except Fault) α

variable {α β σ : Type}

/-- `p` delivers `a` under every large enough budget. -/
def Returns (p : Prog α) (a : α) : Prop :=
  ∃ n, ∀ fuel, n ≤ fuel → p.run fuel = .ok a

/-- `p` delivers `a` after exactly `n` rounds of its loop. -/
def ReturnsAfter (p : Prog α) (n : ℕ) (a : α) : Prop :=
  ∀ fuel, p.run fuel = if n < fuel then .ok a else .error .outOfFuel

/-- **Total correctness.** `p` returns a value satisfying `Q`. -/
def Ends (p : Prog α) (Q : α → Prop) : Prop :=
  ∃ a, Returns p a ∧ Q a

/-- **Partial correctness.** Whatever `p` delivers, under any budget, satisfies `Q`. -/
def Always (p : Prog α) (Q : α → Prop) : Prop :=
  ∀ fuel a, p.run fuel = .ok a → Q a

/-- `p` stops with some fault in `E` under every large enough budget. -/
def Fails (E : Fault → Prop) (p : Prog α) : Prop :=
  ∃ n, ∀ fuel, n ≤ fuel → ∃ e, E e ∧ p.run fuel = .error e

/-- `p` stops with a fault of its own. -/
abbrev Raises (p : Prog α) : Prop := Fails (· ≠ .outOfFuel) p

/-- `p` delivers no value, whatever the budget from some point on. -/
abbrev Stuck (p : Prog α) : Prop := Fails (fun _ => True) p

/-- `p` does not stop with the fault `e`, under any budget. -/
def Avoids (e : Fault) (p : Prog α) : Prop :=
  ∀ fuel, p.run fuel ≠ .error e

/-! ### Returning -/

theorem returns_pure (a : α) : Returns (pure a : Prog α) a :=
  ⟨0, fun _ _ => rfl⟩

theorem run_bind_ok {p : Prog α} {f : α → Prog β} {fuel : ℕ} {a : α}
    (h : p.run fuel = .ok a) : (p >>= f).run fuel = (f a).run fuel := by
  rw [ReaderT.run_bind, h]
  rfl

theorem run_bind_error {p : Prog α} {f : α → Prog β} {fuel : ℕ} {e : Fault}
    (h : p.run fuel = .error e) : (p >>= f).run fuel = .error e := by
  rw [ReaderT.run_bind, h]
  rfl

theorem Returns.bind {p : Prog α} {f : α → Prog β} {a : α} {b : β}
    (hp : Returns p a) (hf : Returns (f a) b) : Returns (p >>= f) b := by
  obtain ⟨n, hn⟩ := hp
  obtain ⟨m, hm⟩ := hf
  refine ⟨max n m, fun fuel h => ?_⟩
  rw [run_bind_ok (hn fuel (le_trans (le_max_left _ _) h))]
  exact hm fuel (le_trans (le_max_right _ _) h)

/-- A program returns at most one value. -/
theorem Returns.unique {p : Prog α} {a b : α} (ha : Returns p a) (hb : Returns p b) : a = b := by
  obtain ⟨n, hn⟩ := ha
  obtain ⟨m, hm⟩ := hb
  have h := (hn (max n m) (le_max_left _ _)).symm.trans (hm (max n m) (le_max_right _ _))
  exact Except.ok.inj h

theorem ReturnsAfter.returns {p : Prog α} {n : ℕ} {a : α} (h : ReturnsAfter p n a) :
    Returns p a :=
  ⟨n + 1, fun fuel hf => (h fuel).trans (if_pos hf)⟩

/-- What needs no budget may follow. -/
theorem ReturnsAfter.bind_pure {p : Prog α} {n : ℕ} {a : α} (h : ReturnsAfter p n a) (f : α → β) :
    ReturnsAfter (p >>= fun a => pure (f a)) n (f a) := by
  intro fuel
  have hp := h fuel
  split_ifs at hp ⊢ with hn
  · exact run_bind_ok hp
  · exact run_bind_error hp

/-! ### Total correctness -/

theorem Ends.of_returns {p : Prog α} {Q : α → Prop} {a : α} (h : Returns p a) (hQ : Q a) :
    Ends p Q :=
  ⟨a, h, hQ⟩

theorem ends_pure {Q : α → Prop} {a : α} (h : Q a) : Ends (pure a : Prog α) Q :=
  ⟨a, returns_pure a, h⟩

theorem Ends.bind {p : Prog α} {f : α → Prog β} {P : α → Prop} {Q : β → Prop}
    (hp : Ends p P) (hf : ∀ a, P a → Ends (f a) Q) : Ends (p >>= f) Q := by
  obtain ⟨a, ha, hP⟩ := hp
  obtain ⟨b, hb, hQ⟩ := hf a hP
  exact ⟨b, ha.bind hb, hQ⟩

theorem Ends.mono {p : Prog α} {P Q : α → Prop} (hp : Ends p P) (h : ∀ a, P a → Q a) :
    Ends p Q := by
  obtain ⟨a, ha, hP⟩ := hp
  exact ⟨a, ha, h a hP⟩

theorem Ends.exists_returns {p : Prog α} {Q : α → Prop} (hp : Ends p Q) : ∃ a, Returns p a :=
  hp.imp fun _ => And.left

/-- A program that spends one unit of its budget and goes on as `q`. -/
theorem Ends.of_budget {p q : Prog α} {Q : α → Prop}
    (h : ∀ fuel, p.run (fuel + 1) = q.run fuel) (hq : Ends q Q) : Ends p Q := by
  obtain ⟨a, ⟨n, hn⟩, hQ⟩ := hq
  refine ⟨a, ⟨n + 1, fun fuel hf => ?_⟩, hQ⟩
  obtain ⟨fuel, rfl⟩ := Nat.exists_eq_add_of_le' (le_trans (Nat.le_add_left 1 _) hf)
  rw [h]
  exact hn fuel (by omega)

/-- What a program returns satisfies each of its postconditions. -/
theorem Ends.of_unique {p : Prog α} {Q : α → Prop} {a : α} (hp : Ends p Q) (ha : Returns p a) :
    Q a := by
  obtain ⟨b, hb, hQ⟩ := hp
  rwa [ha.unique hb]

/-- Nothing is lost by a function that keeps values apart. -/
theorem ends_bind_pure_iff {p : Prog α} {f : α → β} (hf : Function.Injective f) {Q : β → Prop} :
    Ends (p >>= fun a => pure (f a)) Q ↔ Ends p fun a => Q (f a) := by
  constructor
  · rintro ⟨b, ⟨n, hn⟩, hQ⟩
    -- each budget has its own value, and `f` shows that they are all the same
    have hp : ∀ fuel, n ≤ fuel → ∃ a, p.run fuel = .ok a ∧ f a = b := by
      intro fuel hfuel
      have hb := hn fuel hfuel
      cases hrun : p.run fuel with
      | error e =>
        rw [run_bind_error hrun] at hb
        cases hb
      | ok a =>
        rw [run_bind_ok hrun] at hb
        exact ⟨a, rfl, Except.ok.inj hb⟩
    obtain ⟨a, -, rfl⟩ := hp n le_rfl
    refine ⟨a, ⟨n, fun fuel hfuel => ?_⟩, hQ⟩
    obtain ⟨a', ha', hab⟩ := hp fuel hfuel
    rwa [← hf hab]
  · intro h
    exact h.bind fun a ha => ends_pure ha

theorem ends_pure_iff {Q : α → Prop} {a : α} : Ends (pure a : Prog α) Q ↔ Q a :=
  ⟨fun h => h.of_unique (returns_pure a), ends_pure⟩

/-! ### Partial correctness -/

theorem always_true (p : Prog α) : Always p fun _ => True :=
  fun _ _ _ => trivial

theorem always_pure {Q : α → Prop} {a : α} (h : Q a) : Always (pure a : Prog α) Q := by
  intro fuel b hb
  rwa [← Except.ok.inj hb]

theorem always_throw {Q : α → Prop} (e : Fault) : Always (throw e : Prog α) Q := by
  intro fuel b hb
  cases hb

theorem Always.bind {p : Prog α} {f : α → Prog β} {P : α → Prop} {Q : β → Prop}
    (hp : Always p P) (hf : ∀ a, P a → Always (f a) Q) : Always (p >>= f) Q := by
  intro fuel b hb
  cases hrun : p.run fuel with
  | error e =>
    rw [run_bind_error hrun] at hb
    cases hb
  | ok a =>
    rw [run_bind_ok hrun] at hb
    exact hf a (hp fuel a hrun) fuel b hb

theorem Always.mono {p : Prog α} {P Q : α → Prop} (hp : Always p P) (h : ∀ a, P a → Q a) :
    Always p Q :=
  fun fuel a ha => h a (hp fuel a ha)

theorem Always.of_returns {p : Prog α} {Q : α → Prop} {a : α} (hp : Always p Q)
    (ha : Returns p a) : Q a := by
  obtain ⟨n, hn⟩ := ha
  exact hp n a (hn n le_rfl)

/-! ### Failing -/

variable {E : Fault → Prop}

theorem fails_throw {e : Fault} (he : E e) : Fails E (throw e : Prog α) :=
  ⟨0, fun _ _ => ⟨e, he, rfl⟩⟩

theorem Fails.not_returns {p : Prog α} (hp : Fails E p) (a : α) : ¬ Returns p a := by
  rintro ⟨m, hm⟩
  obtain ⟨n, hn⟩ := hp
  obtain ⟨e, -, he⟩ := hn (max n m) (le_max_left _ _)
  rw [hm (max n m) (le_max_right _ _)] at he
  cases he

/-- A program that spends one unit of its budget and goes on as `q`. -/
theorem Fails.of_budget {p q : Prog α} (h : ∀ fuel, p.run (fuel + 1) = q.run fuel)
    (hq : Fails E q) : Fails E p := by
  obtain ⟨n, hn⟩ := hq
  refine ⟨n + 1, fun fuel hf => ?_⟩
  obtain ⟨fuel, rfl⟩ := Nat.exists_eq_add_of_le' (le_trans (Nat.le_add_left 1 _) hf)
  rw [h]
  exact hn fuel (by omega)

/-- A program that ends does not fail. -/
theorem Ends.not_fails {p : Prog α} {Q : α → Prop} (hp : Ends p Q) : ¬ Fails E p := by
  intro h
  obtain ⟨a, ha, -⟩ := hp
  exact h.not_returns a ha

theorem Fails.bind_left {p : Prog α} (hp : Fails E p) (f : α → Prog β) : Fails E (p >>= f) := by
  obtain ⟨n, hn⟩ := hp
  refine ⟨n, fun fuel h => ?_⟩
  obtain ⟨e, hE, he⟩ := hn fuel h
  exact ⟨e, hE, run_bind_error he⟩

theorem Fails.bind_right {p : Prog α} {f : α → Prog β} {a : α} (hp : Returns p a)
    (hf : Fails E (f a)) : Fails E (p >>= f) := by
  obtain ⟨n, hn⟩ := hp
  obtain ⟨m, hm⟩ := hf
  refine ⟨max n m, fun fuel h => ?_⟩
  obtain ⟨e, hE, he⟩ := hm fuel (le_trans (le_max_right _ _) h)
  exact ⟨e, hE, by rw [run_bind_ok (hn fuel (le_trans (le_max_left _ _) h)), he]⟩

/-! ### Avoiding a fault -/

variable {e : Fault}

theorem avoids_pure (a : α) : Avoids e (pure a : Prog α) := by
  intro fuel h
  cases h

theorem avoids_throw {e' : Fault} (h : e' ≠ e) : Avoids e (throw e' : Prog α) := by
  intro fuel hrun
  exact h (Except.error.inj hrun)

theorem Avoids.bind {p : Prog α} {f : α → Prog β} (hp : Avoids e p) (hf : ∀ a, Avoids e (f a)) :
    Avoids e (p >>= f) := by
  intro fuel
  cases hrun : p.run fuel with
  | error e' =>
    rw [run_bind_error hrun]
    intro h
    exact hp fuel (hrun.trans (congrArg _ (Except.error.inj h)))
  | ok a =>
    rw [run_bind_ok hrun]
    exact hf a fuel

/-- A program that spends one unit of its budget and goes on as `q`. -/
theorem Avoids.of_budget {p q : Prog α} (h0 : p.run 0 = .error .outOfFuel)
    (h : ∀ fuel, p.run (fuel + 1) = q.run fuel) (he : .outOfFuel ≠ e) (hq : Avoids e q) :
    Avoids e p := by
  intro fuel
  cases fuel with
  | zero =>
    rw [h0]
    exact fun h => he (Except.error.inj h)
  | succ fuel =>
    rw [h]
    exact hq fuel

/-! ### Counting loops

The loops are generic in their monad. -/

/-- `count` rounds of `body`, at `lo`, `lo + step`, `lo + 2 * step`, …. -/
def forCount {m : Type → Type} [Monad m] (lo step : ℕ) : ℕ → σ → (ℕ → σ → m σ) → m σ
  | 0, s, _ => pure s
  | count + 1, s, body => do
    let s ← body lo s
    forCount (lo + step) step count s body

/-- `for (i = lo; i < hi; i += step) body`. -/
def forLoop {m : Type → Type} [Monad m] (lo hi step : ℕ) (s : σ) (body : ℕ → σ → m σ) : m σ :=
  forCount lo step ((hi - lo + (step - 1)) / step) s body

/-- `for (i = lo; i < hi; i++) body`. -/
def forRange {m : Type → Type} [Monad m] (lo hi : ℕ) (s : σ) (body : ℕ → σ → m σ) : m σ :=
  forCount lo 1 (hi - lo) s body

/-- A loop can be cut after any number of rounds. -/
theorem forCount_add {m : Type → Type} [Monad m] [LawfulMonad m] (body : ℕ → σ → m σ)
    (lo step c d : ℕ) (s : σ) :
    forCount lo step (c + d) s body =
      forCount lo step c s body >>= fun s => forCount (lo + c * step) step d s body := by
  induction c generalizing lo s with
  | zero => simp [forCount]
  | succ c ih =>
    have hlo : lo + step + c * step = lo + (c + 1) * step := by ring
    rw [Nat.add_right_comm]
    -- both sides run the first round, and then agree by the induction hypothesis
    change body lo s >>= (fun s => forCount (lo + step) step (c + d) s body) =
      (body lo s >>= fun s => forCount (lo + step) step c s body) >>= _
    simp only [ih, hlo, bind_assoc]

/-- **The invariant rule**, indexed by the number of rounds done. -/
theorem ends_forCount {lo step count : ℕ} {s : σ} {body : ℕ → σ → Prog σ}
    (Inv : ℕ → σ → Prop) (h0 : Inv 0 s)
    (hbody : ∀ t s, t < count → Inv t s → Ends (body (lo + t * step) s) (Inv (t + 1))) :
    Ends (forCount lo step count s body) (Inv count) := by
  induction count with
  | zero => exact ends_pure h0
  | succ count ih =>
    rw [forCount_add]
    refine (ih fun t s ht => hbody t s (by omega)).bind fun s' hs' => ?_
    exact (hbody count s' (by omega) hs').bind fun s'' h => ends_pure h

/-- The invariant rule for a loop with unit steps, indexed by the loop variable. -/
theorem ends_forRange {lo hi : ℕ} {s : σ} {body : ℕ → σ → Prog σ} (hle : lo ≤ hi)
    (Inv : ℕ → σ → Prop) (h0 : Inv lo s)
    (hbody : ∀ i s, lo ≤ i → i < hi → Inv i s → Ends (body i s) (Inv (i + 1))) :
    Ends (forRange lo hi s body) (Inv hi) := by
  have h := @ends_forCount _ lo 1 (hi - lo) s body (fun t => Inv (lo + t)) h0
    fun t s ht hI => by
      rw [mul_one]
      exact hbody (lo + t) s (by omega) (by omega) hI
  rwa [show lo + (hi - lo) = hi by omega] at h

/-- A loop ends if its rounds do. -/
theorem safe_forRange {lo hi : ℕ} {body : ℕ → σ → Prog σ} (s : σ)
    (hbody : ∀ i s, lo ≤ i → i < hi → Ends (body i s) fun _ => True) :
    Ends (forRange lo hi s body) fun _ => True :=
  ends_forCount (fun _ _ => True) trivial fun t s ht _ =>
    hbody (lo + t * 1) s (by omega) (by omega)

/-- A loop avoids what its rounds avoid. -/
theorem avoids_forCount {e : Fault} {lo step count : ℕ} {s : σ} {body : ℕ → σ → Prog σ}
    (hbody : ∀ i s, Avoids e (body i s)) : Avoids e (forCount lo step count s body) := by
  induction count generalizing lo s with
  | zero => exact avoids_pure s
  | succ count ih => exact (hbody lo s).bind fun s => ih

/-- A loop fails as soon as one of its rounds does, the rounds before it having
gone well. -/
theorem fails_forRange {lo hi k : ℕ} {s : σ} {body : ℕ → σ → Prog σ} (hlo : lo ≤ k) (hk : k < hi)
    (Inv : ℕ → σ → Prop) (h0 : Inv lo s)
    (hbody : ∀ i s, lo ≤ i → i < k → Inv i s → Ends (body i s) (Inv (i + 1)))
    (hfail : ∀ s, Inv k s → Fails E (body k s)) :
    Fails E (forRange lo hi s body) := by
  obtain ⟨s', hs', hI⟩ := ends_forRange hlo Inv h0 hbody
  have hsplit : forRange lo hi s body =
      forRange lo k s body >>= fun s => forRange k hi s body := by
    unfold forRange
    rw [show hi - lo = (k - lo) + (hi - k) by omega, forCount_add]
    rw [show lo + (k - lo) * 1 = k by omega]
  -- round `k` is the first one after the cut
  obtain ⟨c, hc⟩ : ∃ c, hi - k = c + 1 := ⟨hi - k - 1, by omega⟩
  rw [hsplit]
  refine Fails.bind_right hs' ?_
  rw [forRange, hc]
  exact (hfail s' hI).bind_left _

/-! ### While loops -/

/-- `while (cond) body` under a budget, one unit of which is spent on each test. -/
def whileFuel (cond : σ → Bool) (body : σ → Prog σ) : ℕ → σ → Except Fault σ
  | 0, _ => .error .outOfFuel
  | fuel + 1, s =>
    if cond s then (body s).run fuel >>= whileFuel cond body fuel else .ok s

/-- `while (cond) body`. -/
def whileLoop (cond : σ → Bool) (body : σ → Prog σ) (s : σ) : Prog σ :=
  fun fuel => whileFuel cond body fuel s

variable {cond : σ → Bool} {body : σ → Prog σ} {s s' : σ}

theorem returns_while_false (h : cond s = false) : Returns (whileLoop cond body s) s := by
  refine ⟨1, fun fuel hf => ?_⟩
  obtain ⟨fuel, rfl⟩ := Nat.exists_eq_add_of_le' hf
  change whileFuel cond body (fuel + 1) s = _
  rw [whileFuel, if_neg (by simp [h])]

/-- One round of a loop costs one unit of the budget. -/
theorem run_while_true {fuel : ℕ} (h : cond s = true) (hb : (body s).run fuel = .ok s') :
    (whileLoop cond body s).run (fuel + 1) = (whileLoop cond body s').run fuel := by
  change whileFuel cond body (fuel + 1) s = _
  rw [whileFuel, if_pos h, hb]
  rfl

theorem returns_while_true {t : σ} (h : cond s = true) (hb : Returns (body s) s')
    (ht : Returns (whileLoop cond body s') t) : Returns (whileLoop cond body s) t := by
  obtain ⟨n, hn⟩ := hb
  obtain ⟨m, hm⟩ := ht
  refine ⟨max n m + 1, fun fuel hf => ?_⟩
  obtain ⟨fuel, rfl⟩ := Nat.exists_eq_add_of_le' (le_trans (Nat.le_add_left 1 _) hf)
  rw [run_while_true h (hn fuel (by omega))]
  exact hm fuel (by omega)

theorem returnsAfter_while_false (h : cond s = false) :
    ReturnsAfter (whileLoop cond body s) 0 s := by
  intro fuel
  change whileFuel cond body fuel s = _
  cases fuel with
  | zero => rfl
  | succ fuel => rw [whileFuel, if_neg (by simp [h]), if_pos fuel.succ_pos]

/-- A round whose body needs no budget is one more round. -/
theorem returnsAfter_while_true {n : ℕ} {t : σ} (h : cond s = true)
    (hb : ∀ fuel, (body s).run fuel = .ok s') (ht : ReturnsAfter (whileLoop cond body s') n t) :
    ReturnsAfter (whileLoop cond body s) (n + 1) t := by
  intro fuel
  cases fuel with
  | zero => rfl
  | succ fuel =>
    rw [run_while_true h (hb fuel), ht fuel]
    exact if_congr Nat.succ_lt_succ_iff.symm rfl rfl

theorem fails_while_true (h : cond s = true) (hb : Returns (body s) s')
    (ht : Fails E (whileLoop cond body s')) : Fails E (whileLoop cond body s) := by
  obtain ⟨n, hn⟩ := hb
  obtain ⟨m, hm⟩ := ht
  refine ⟨max n m + 1, fun fuel hf => ?_⟩
  obtain ⟨fuel, rfl⟩ := Nat.exists_eq_add_of_le' (le_trans (Nat.le_add_left 1 _) hf)
  obtain ⟨e, hE, he⟩ := hm fuel (by omega)
  exact ⟨e, hE, (run_while_true h (hn fuel (by omega))).trans he⟩

/-- A loop fails if its first round does. -/
theorem fails_while_body (h : cond s = true) (hb : Fails E (body s)) :
    Fails E (whileLoop cond body s) := by
  obtain ⟨n, hn⟩ := hb
  refine ⟨n + 1, fun fuel hf => ?_⟩
  obtain ⟨fuel, rfl⟩ := Nat.exists_eq_add_of_le' (le_trans (Nat.le_add_left 1 _) hf)
  obtain ⟨e, hE, he⟩ := hn fuel (by omega)
  refine ⟨e, hE, ?_⟩
  change whileFuel cond body (fuel + 1) s = _
  rw [whileFuel, if_pos h, he]
  rfl

/-- **The invariant rule** for a loop with a known number of rounds. -/
theorem ends_while {n : ℕ} (Inv : ℕ → σ → Prop) (h0 : Inv 0 s)
    (hbody : ∀ t s, t < n → Inv t s → cond s = true ∧ Ends (body s) (Inv (t + 1)))
    (hstop : ∀ s, Inv n s → cond s = false) : Ends (whileLoop cond body s) (Inv n) := by
  suffices h : ∀ d t s, t + d = n → Inv t s → Ends (whileLoop cond body s) (Inv n) from
    h n 0 s (by omega) h0
  -- the induction is on the number of rounds to go
  intro d
  induction d with
  | zero =>
    intro t s ht hs
    obtain rfl : t = n := by omega
    exact ⟨s, returns_while_false (hstop s hs), hs⟩
  | succ d ih =>
    intro t s ht hs
    obtain ⟨hcond, s', hs', hI⟩ := hbody t s (by omega) hs
    obtain ⟨s'', hret, hn⟩ := ih (t + 1) s' (by omega) hI
    exact ⟨s'', returns_while_true hcond hs' hret, hn⟩

/-- A loop that fails after a known number of rounds. -/
theorem fails_while {n : ℕ} (Inv : ℕ → σ → Prop) (h0 : Inv 0 s)
    (hbody : ∀ t s, t < n → Inv t s → cond s = true ∧ Ends (body s) (Inv (t + 1)))
    (hlast : ∀ s, Inv n s → cond s = true ∧ Fails E (body s)) : Fails E (whileLoop cond body s) := by
  suffices h : ∀ d t s, t + d = n → Inv t s → Fails E (whileLoop cond body s) from
    h n 0 s (by omega) h0
  intro d
  induction d with
  | zero =>
    intro t s ht hs
    obtain rfl : t = n := by omega
    obtain ⟨hcond, hfail⟩ := hlast s hs
    exact fails_while_body hcond hfail
  | succ d ih =>
    intro t s ht hs
    obtain ⟨hcond, s', hs', hI⟩ := hbody t s (by omega) hs
    exact fails_while_true hcond hs' (ih (t + 1) s' (by omega) hI)

/-- **The invariant rule** for a loop whose rounds make a measure smaller. -/
theorem ends_while_decreasing (μ : σ → ℕ) (Inv : σ → Prop) (h0 : Inv s)
    (hbody : ∀ s, Inv s → cond s = true → Ends (body s) fun s' => Inv s' ∧ μ s' < μ s) :
    Ends (whileLoop cond body s) fun s => Inv s ∧ cond s = false := by
  induction hμ : μ s using Nat.strong_induction_on generalizing s with
  | _ n ih =>
    cases hcond : cond s with
    | false => exact ⟨s, returns_while_false hcond, h0, hcond⟩
    | true =>
      obtain ⟨s', hs', hI, hlt⟩ := hbody s h0 hcond
      obtain ⟨s'', hret, h⟩ := ih (μ s') (hμ ▸ hlt) hI rfl
      exact ⟨s'', returns_while_true hcond hs' hret, h⟩

/-- **Divergence.** A loop whose state repeats never ends. -/
theorem stuck_while_fixed (h : cond s = true) (hb : ∀ fuel, (body s).run fuel = .ok s) :
    Stuck (whileLoop cond body s) := by
  refine ⟨0, fun fuel _ => ⟨.outOfFuel, trivial, ?_⟩⟩
  clear * - h hb
  induction fuel with
  | zero => rfl
  | succ fuel ih => exact (run_while_true h (hb fuel)).trans ih

end Exec
