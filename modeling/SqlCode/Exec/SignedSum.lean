import SqlCode.Exec.Prog
import Mathlib.Algebra.BigOperators.Group.List.Basic
import Mathlib.Algebra.Order.Ring.Int
import Mathlib.Data.List.Induction

/-!
# Sums of signed words

`accumulate` adds up signed words of `w` bits one after the other. Its addition is a
parameter: C says what a sum is only while it `Fits` the word, and beyond that a compiler
may let it wrap around (`wrapAdd`), trap (`trapAdd`) or do something else. `SignedAdd` says
what can be relied on.

* `accumulates_wrapAdd_iff` — an addition that wraps around gives the true sum if and only
  if that sum fits, whatever the partial sums do on the way.
* `accumulates_iff` — all additions give it if and only if every partial sum fits.

Both follow `accumulate_concat`, which says when the running sum stays the word of the true
one. The addition that traps is the one that needs every partial sum.
-/

namespace Exec

variable {w : ℕ}

/-- The integers that a signed word of `w` bits can hold. -/
def Fits (w : ℕ) (z : ℤ) : Prop := -2 ^ w ≤ 2 * z ∧ 2 * z < 2 ^ w

instance (z : ℤ) : Decidable (Fits w z) := inferInstanceAs (Decidable (_ ∧ _))

/-- The additions of signed words that C allows. -/
def SignedAdd (add : BitVec w → BitVec w → Prog (BitVec w)) : Prop :=
  ∀ a b, Fits w (a.toInt + b.toInt) → add a b = pure (a + b)

/-- Addition that wraps around. -/
def wrapAdd (a b : BitVec w) : Prog (BitVec w) := pure (a + b)

/-- Addition that ends the process when the sum does not fit. -/
def trapAdd (a b : BitVec w) : Prog (BitVec w) :=
  if Fits w (a.toInt + b.toInt) then pure (a + b) else throw .exit

/-- `for (…) sum += v`, from zero on. -/
def accumulate (add : BitVec w → BitVec w → Prog (BitVec w)) (vs : List (BitVec w)) :
    Prog (BitVec w) :=
  vs.foldlM add 0

/-- The true sum of words. -/
def total (vs : List (BitVec w)) : ℤ := (vs.map BitVec.toInt).sum

/-- The words are added up to their true sum. -/
def Accumulates (add : BitVec w → BitVec w → Prog (BitVec w)) (vs : List (BitVec w)) : Prop :=
  Ends (accumulate add vs) fun s => s.toInt = total vs

theorem signedAdd_trapAdd : SignedAdd (@trapAdd w) :=
  fun _ _ h => if_pos h

@[simp] theorem total_nil : total ([] : List (BitVec w)) = 0 := rfl

@[simp] theorem total_concat (vs : List (BitVec w)) (v : BitVec w) :
    total (vs ++ [v]) = total vs + v.toInt := by
  simp [total]

/-! ### The word of an integer -/

theorem fits_toInt (v : BitVec w) : Fits w v.toInt :=
  ⟨BitVec.le_two_mul_toInt, BitVec.two_mul_toInt_lt⟩

/-- The integers that a word can hold are those that it gives back. -/
theorem toInt_ofInt_iff {z : ℤ} : (BitVec.ofInt w z).toInt = z ↔ Fits w z := by
  constructor
  · intro h
    rw [← h]
    exact fits_toInt _
  · rintro ⟨hlo, hhi⟩
    rw [BitVec.toInt_ofInt]
    apply Int.bmod_eq_of_le_mul_two
    · push_cast
      rwa [mul_comm]
    · push_cast
      rwa [mul_comm]

/-! ### Running sums -/

variable {add : BitVec w → BitVec w → Prog (BitVec w)} {vs : List (BitVec w)}

theorem accumulate_append (add : BitVec w → BitVec w → Prog (BitVec w)) (vs : List (BitVec w))
    (v : BitVec w) : accumulate add (vs ++ [v]) = accumulate add vs >>= fun s => add s v := by
  simp [accumulate, List.foldlM_append]

/-- **One addition** keeps the running sum the word of the true one. -/
theorem accumulate_concat {v : BitVec w} (hvs : accumulate add vs = pure (BitVec.ofInt w (total vs)))
    (hadd : add (BitVec.ofInt w (total vs)) v = pure (BitVec.ofInt w (total vs) + v)) :
    accumulate add (vs ++ [v]) = pure (BitVec.ofInt w (total (vs ++ [v]))) :=
  calc accumulate add (vs ++ [v])
      = add (BitVec.ofInt w (total vs)) v := by rw [accumulate_append, hvs, pure_bind]
    _ = pure (BitVec.ofInt w (total vs) + v) := hadd
    _ = pure (BitVec.ofInt w (total (vs ++ [v]))) := by
        rw [total_concat, BitVec.ofInt_add, BitVec.ofInt_toInt]

theorem accumulate_wrapAdd (vs : List (BitVec w)) :
    accumulate wrapAdd vs = pure (BitVec.ofInt w (total vs)) := by
  induction vs using List.reverseRecOn with
  | nil => rfl
  | append_singleton vs v ih => exact accumulate_concat ih rfl

theorem accumulate_of_fits (hadd : SignedAdd add) (h : ∀ ps, ps <+: vs → Fits w (total ps)) :
    accumulate add vs = pure (BitVec.ofInt w (total vs)) := by
  induction vs using List.reverseRecOn with
  | nil => rfl
  | append_singleton vs v ih =>
    have hvs : Fits w (total vs) := h vs (List.prefix_append vs [v])
    have hsum : Fits w (total vs + v.toInt) := by
      rw [← total_concat]
      exact h _ List.prefix_rfl
    refine accumulate_concat (ih fun ps hps => h ps (hps.trans (List.prefix_append vs [v]))) ?_
    exact hadd _ _ (by rwa [toInt_ofInt_iff.mpr hvs])

/-- An addition that traps does so unless all partial sums fit. -/
theorem fails_accumulate_trapAdd (h : ¬ ∀ ps, ps <+: vs → Fits w (total ps)) :
    Raises (accumulate trapAdd vs) := by
  induction vs using List.reverseRecOn with
  | nil =>
    refine absurd (fun ps hps => ?_) h
    rw [List.prefix_nil.mp hps]
    simpa using fits_toInt (0 : BitVec w)
  | append_singleton vs v ih =>
    rw [accumulate_append]
    by_cases hall : ∀ ps, ps <+: vs → Fits w (total ps)
    · -- only the sum of all words is too large, so the last addition traps
      have hsum : ¬ Fits w (total vs + v.toInt) := by
        intro hfit
        refine h fun ps hps => ?_
        rcases List.prefix_concat_iff.mp hps with rfl | hps
        · rwa [total_concat]
        · exact hall ps hps
      have hvs : (BitVec.ofInt w (total vs)).toInt = total vs :=
        toInt_ofInt_iff.mpr (hall vs List.prefix_rfl)
      rw [accumulate_of_fits signedAdd_trapAdd hall, pure_bind, trapAdd, hvs, if_neg hsum]
      exact fails_throw (by decide)
    · exact (ih hall).bind_left _

/-! ### When the sum is right -/

theorem accumulates_wrapAdd_iff : Accumulates wrapAdd vs ↔ Fits w (total vs) := by
  rw [Accumulates, accumulate_wrapAdd, ends_pure_iff]
  exact toInt_ofInt_iff

theorem accumulates_iff :
    (∀ add, SignedAdd add → Accumulates add vs) ↔ ∀ ps, ps <+: vs → Fits w (total ps) := by
  constructor
  · intro h
    by_contra hall
    exact (h trapAdd signedAdd_trapAdd).not_fails (fails_accumulate_trapAdd hall)
  · intro h add hadd
    rw [Accumulates, accumulate_of_fits hadd h, ends_pure_iff]
    exact toInt_ofInt_iff.mpr (h vs List.prefix_rfl)

end Exec
