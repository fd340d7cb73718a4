import SqlCode.Exec.Cells
import Mathlib.Algebra.Order.Field.Basic
import Mathlib.Data.Finset.Max
import Mathlib.Order.Bounds.Basic
import Mathlib.Tactic.FieldSimp
import Mathlib.Tactic.Linarith
import Mathlib.Tactic.Positivity

/-!
# Measuring and rescaling

`dsp_max_min_val` and `scale` of `fft_utils.c`, over an ordered field.

The loop of `dsp_max_min_val` compares an element with the minimum only if it is no new maximum. So
what it returns is the greatest element, and the least of those that were rejected as a maximum
(`dspMaxMinVal_ends`). A smallest element is one of these unless it is the first of the array
and no other is as small (`min_eq_iff`), and a rising array has none at all.

`scale` takes the segment between its two bounds to the one that is asked for, so the data come
out in range exactly if the bounds are right (`rescales_iff`).
-/

namespace SqlCode.FftSerial

open Exec

variable {K : Type} [Field K] [LinearOrder K] {n : ℕ}

/-- `SHRT_MIN`. -/
def shrtMin : ℤ := -32768

/-- `SHRT_MAX`. -/
def shrtMax : ℤ := 32767

/-- `dsp_max_min_val`, with what it stores to `*max` and `*min`. -/
def dspMaxMinVal (x : Vector K n) (nx : ℕ) : Prog (K × K) :=
  forRange 0 nx ((shrtMin : K), (shrtMax : K)) fun i (max, min) => do
    let c ← rd x i
    if max < c then pure (c, min)
    else if c < min then pure (max, c)
    else pure (max, min)

/-- `scale`. -/
def scale (x : Vector K n) (xmax xmin : K) (count : ℕ) (sLow sHigh : K) : Prog (Vector K n) :=
  let deltaS := sHigh - sLow
  let deltaX := xmax - xmin
  forRange 0 count x fun i x => do
    wr x i (deltaS * ((← rd x i) - xmin) / deltaX + sLow)

/-- Measuring and rescaling puts the data in range: the division is by a number other than zero,
every element comes to lie in the range, a largest at its upper end and a smallest at its
lower end, and in the same order. -/
def Rescales (x : Vector K n) (sLow sHigh : K) : Prop :=
  ∃ max min, Returns (dspMaxMinVal x n) (max, min) ∧ max - min ≠ 0 ∧
    Ends (scale x max min n sLow sHigh) fun y =>
      (∀ i, i < n → sLow ≤ cell y i ∧ cell y i ≤ sHigh) ∧
      (∀ i, i < n → (∀ j, j < n → cell x j ≤ cell x i) → cell y i = sHigh) ∧
      (∀ i, i < n → (∀ j, j < n → cell x i ≤ cell x j) → cell y i = sLow) ∧
      ∀ i j, i < n → j < n → (cell x i < cell x j ↔ cell y i < cell y j)

variable {x : Vector K n}

/-! ### Measuring -/

/-- The elements before `i`, and the start value of the maximum. -/
def Seen (x : Vector K n) (i : ℕ) : Set K := {y | y = shrtMin ∨ ∃ k, k < i ∧ y = cell x k}

/-- The elements before `i` that were no new maximum, and the start value of the minimum. -/
def Rejected (x : Vector K n) (i : ℕ) : Set K :=
  {y | y = shrtMax ∨ ∃ k, k < i ∧ y = cell x k ∧ ∃ z ∈ Seen x k, cell x k ≤ z}

omit [LinearOrder K] in
theorem seen_succ (x : Vector K n) (i : ℕ) : Seen x (i + 1) = insert (cell x i) (Seen x i) := by
  ext y
  simp only [Seen, Set.mem_ofPred_eq, Set.mem_insert_iff, Nat.lt_succ_iff_lt_or_eq]
  constructor
  · rintro (hy | ⟨k, hk | rfl, hy⟩)
    · exact .inr (.inl hy)
    · exact .inr (.inr ⟨k, hk, hy⟩)
    · exact .inl hy
  · rintro (hy | hy | ⟨k, hk, hy⟩)
    · exact .inr ⟨i, .inr rfl, hy⟩
    · exact .inl hy
    · exact .inr ⟨k, .inl hk, hy⟩

/-- An element that is a new maximum is not rejected. -/
theorem rejected_of_lt {i : ℕ} {m : K} (hm : IsGreatest (Seen x i) m) (h : m < cell x i) :
    Rejected x (i + 1) = Rejected x i := by
  ext y
  refine or_congr_right ⟨?_, fun ⟨k, hk, hy⟩ => ⟨k, Nat.lt_succ_of_lt hk, hy⟩⟩
  rintro ⟨k, hk, hy, z, hz, hle⟩
  rcases Nat.lt_succ_iff_lt_or_eq.mp hk with hk | rfl
  · exact ⟨k, hk, hy, z, hz, hle⟩
  · exact absurd (hle.trans (hm.2 hz)) (not_le.mpr h)

/-- One that is not is. -/
theorem rejected_of_le {i : ℕ} {m : K} (hm : IsGreatest (Seen x i) m) (h : cell x i ≤ m) :
    Rejected x (i + 1) = insert (cell x i) (Rejected x i) := by
  ext y
  constructor
  · rintro (hy | ⟨k, hk, hy, hle⟩)
    · exact .inr (.inl hy)
    · rcases Nat.lt_succ_iff_lt_or_eq.mp hk with hk | rfl
      · exact .inr (.inr ⟨k, hk, hy, hle⟩)
      · exact .inl hy
  · rintro (hy | hy | ⟨k, hk, hy⟩)
    · exact .inr ⟨i, Nat.lt_succ_self i, hy, m, hm.1, h⟩
    · exact .inl hy
    · exact .inr ⟨k, Nat.lt_succ_of_lt hk, hy⟩

/-- The invariant of the loop: the maximum so far, and the least of what was rejected. -/
def Measured (x : Vector K n) (i : ℕ) (p : K × K) : Prop :=
  IsGreatest (Seen x i) p.1 ∧ IsLeast (Rejected x i) p.2

/-- **What is measured.** -/
theorem dspMaxMinVal_ends (x : Vector K n) : Ends (dspMaxMinVal x n) (Measured x n) := by
  have h0 : Measured x 0 ((shrtMin : K), (shrtMax : K)) := by
    refine ⟨⟨.inl rfl, ?_⟩, ⟨.inl rfl, ?_⟩⟩
    · rintro y (rfl | ⟨k, hk, -⟩)
      · exact le_rfl
      · exact absurd hk (Nat.not_lt_zero k)
    · rintro y (rfl | ⟨k, hk, -⟩)
      · exact le_rfl
      · exact absurd hk (Nat.not_lt_zero k)
  refine ends_forRange (Nat.zero_le n) (Measured x) h0 ?_
  rintro i ⟨mx, mn⟩ - hi ⟨hmax, hmin⟩
  dsimp only
  rw [rd_eq x hi, pure_bind]
  by_cases hlt : mx < cell x i
  · have hnew := hmax.insert (cell x i)
    rw [max_eq_left hlt.le, ← seen_succ] at hnew
    rw [← rejected_of_lt hmax hlt] at hmin
    rw [if_pos hlt]
    exact ends_pure ⟨hnew, hmin⟩
  · -- not a new maximum, so it is compared with the minimum
    have hle := not_lt.mp hlt
    have hkeep := hmax.insert (cell x i)
    rw [max_eq_right hle, ← seen_succ] at hkeep
    have hleast := hmin.insert (cell x i)
    rw [← rejected_of_le hmax hle] at hleast
    rw [if_neg hlt]
    split_ifs with hmn
    · rw [min_eq_left hmn.le] at hleast
      exact ends_pure ⟨hkeep, hleast⟩
    · rw [min_eq_right (not_lt.mp hmn)] at hleast
      exact ends_pure ⟨hkeep, hleast⟩

/-! ### The bounds -/

/-- The elements are in the range of the start values. -/
def InRange (x : Vector K n) : Prop :=
  ∀ i, i < n → (shrtMin : K) ≤ cell x i ∧ cell x i ≤ (shrtMax : K)

/-- The first element is a new maximum, and all the others are greater. -/
def FirstIsLeast (x : Vector K n) : Prop :=
  cell x 0 ≠ shrtMin ∧ ∀ i, 0 < i → i < n → cell x 0 < cell x i

variable {mx mn : K} {p : ℕ}

/-- The maximum is right. -/
theorem Measured.max_eq (h : Measured x n (mx, mn)) (hx : InRange x) (hp : p < n)
    (hmax : ∀ j, j < n → cell x j ≤ cell x p) : mx = cell x p := by
  apply le_antisymm
  · rcases h.1.1 with hmx | ⟨k, hk, hmx⟩
    · calc mx = shrtMin := hmx
        _ ≤ cell x p := (hx p hp).1
    · calc mx = cell x k := hmx
        _ ≤ cell x p := hmax k hk
  · exact h.1.2 (.inr ⟨p, hp, rfl⟩)

/-- The minimum is not below a smallest element. -/
theorem Measured.le_min (h : Measured x n (mx, mn)) (hx : InRange x) (hp : p < n)
    (hmin : ∀ j, j < n → cell x p ≤ cell x j) : cell x p ≤ mn := by
  rcases h.2.1 with hmn | ⟨k, hk, hmn, -⟩
  · calc cell x p ≤ shrtMax := (hx p hp).2
      _ = mn := hmn.symm
  · calc cell x p ≤ cell x k := hmin k hk
      _ = mn := hmn.symm

/-- A smallest element that was no new maximum is the minimum. -/
theorem Measured.min_eq (h : Measured x n (mx, mn)) (hx : InRange x) (hp : p < n)
    (hmin : ∀ j, j < n → cell x p ≤ cell x j) {z : K} (hz : z ∈ Seen x p) (hle : cell x p ≤ z) :
    mn = cell x p :=
  le_antisymm (h.2.2 (.inr ⟨p, hp, rfl, z, hz, hle⟩)) (h.le_min hx hp hmin)

/-- **When the minimum is right**: unless the first element is the only smallest one. -/
theorem Measured.min_eq_iff (h : Measured x n (mx, mn)) (hx : InRange x) (hn : 2 ≤ n)
    (hp : p < n) (hmin : ∀ j, j < n → cell x p ≤ cell x j) :
    mn = cell x p ↔ ¬ FirstIsLeast x := by
  constructor
  · rintro hmn ⟨hne, hfirst⟩
    have hlt : shrtMin < cell x 0 := lt_of_le_of_ne (hx 0 (by omega)).1 hne.symm
    have hle : mn ≤ cell x 0 := hmn.le.trans (hmin 0 (by omega))
    rcases h.2.1 with hmn | ⟨k, hk, hmn, z, hz, hkz⟩
    · -- nothing was rejected
      have hlast := (hfirst 1 Nat.one_pos hn).trans_le (hx 1 hn).2
      exact absurd (hmn.ge.trans hle) (not_le.mpr hlast)
    · rcases Nat.eq_zero_or_pos k with rfl | hpos
      · -- the first element was not
        obtain rfl : z = shrtMin := by
          rcases hz with hz | ⟨j, hj, -⟩
          · exact hz
          · exact absurd hj (Nat.not_lt_zero j)
        exact absurd hkz (not_le.mpr hlt)
      · exact absurd (hmn.ge.trans hle) (not_le.mpr (hfirst k hpos hk))
  · intro hfirst
    by_cases hmn : cell x 0 = shrtMin
    · -- the first element is as small as can be
      have heq : cell x p = cell x 0 :=
        le_antisymm (hmin 0 (by omega)) (hmn.le.trans (hx p hp).1)
      rw [heq]
      exact h.min_eq hx (by omega) (fun j hj => heq ▸ hmin j hj) (.inl rfl) hmn.le
    · -- another one is as small as the first
      obtain ⟨q, hpos, hq, hle⟩ : ∃ q, 0 < q ∧ q < n ∧ cell x q ≤ cell x 0 := by
        by_contra hno
        push Not at hno
        exact hfirst ⟨hmn, hno⟩
      rcases Nat.eq_zero_or_pos p with rfl | hppos
      · have heq : cell x 0 = cell x q := le_antisymm (hmin q hq) hle
        rw [heq]
        exact h.min_eq hx hq (fun j hj => heq ▸ hmin j hj) (.inr ⟨0, hpos, rfl⟩) hle
      · exact h.min_eq hx hp hmin (.inr ⟨0, hppos, rfl⟩) (hmin 0 (by omega))

/-! ### Rescaling -/

variable {sLow sHigh : K}

/-- What `scale` makes of an element. -/
def scaled (mx mn sLow sHigh t : K) : K := (sHigh - sLow) * (t - mn) / (mx - mn) + sLow

omit [LinearOrder K] in
theorem scale_ends (x : Vector K n) (mx mn sLow sHigh : K) :
    Ends (scale x mx mn n sLow sHigh) fun y =>
      ∀ i, i < n → cell y i = scaled mx mn sLow sHigh (cell x i) := by
  refine (ends_forCells (fun i => scaled mx mn sLow sHigh (cell x i)) (Nat.zero_le n) ?_).mono
    fun y hy i hi => hy.1 i (Nat.zero_le i) hi
  intro i y _ hi htodo
  rw [rd_eq y hi, pure_bind, wr_eq y hi, htodo i (.inr le_rfl)]
  exact ends_pure ⟨cell_set_self y hi _, fun t ht => cell_set_ne y hi _ ht⟩

omit [LinearOrder K] in
theorem scaled_min : scaled mx mn sLow sHigh mn = sLow := by
  simp [scaled]

omit [LinearOrder K] in
theorem scaled_max (h : mx - mn ≠ 0) : scaled mx mn sLow sHigh mx = sHigh := by
  unfold scaled
  rw [mul_div_cancel_right₀ _ h, sub_add_cancel]

/-- Only the minimum comes to lie at the lower end. -/
theorem eq_min_of_scaled {t : K} (h : mx - mn ≠ 0) (hs : sLow < sHigh)
    (ht : scaled mx mn sLow sHigh t = sLow) : t = mn := by
  unfold scaled at ht
  have hzero : (sHigh - sLow) * (t - mn) / (mx - mn) = 0 := by simpa using ht
  rcases div_eq_zero_iff.mp hzero with hmul | hdiv
  · rcases mul_eq_zero.mp hmul with hd | ht
    · exact absurd (sub_eq_zero.mp hd) hs.ne'
    · exact sub_eq_zero.mp ht
  · exact absurd hdiv h

/-- There is a smallest element. -/
theorem exists_smallest (x : Vector K n) (hn : 0 < n) :
    ∃ p, p < n ∧ ∀ j, j < n → cell x p ≤ cell x j := by
  obtain ⟨p, hp, hmin⟩ :=
    Finset.exists_min_image _ (cell x) (Finset.nonempty_range_iff.mpr hn.ne')
  exact ⟨p, Finset.mem_range.mp hp, fun j hj => hmin j (Finset.mem_range.mpr hj)⟩

/-- There is a largest element. -/
theorem exists_largest (x : Vector K n) (hn : 0 < n) :
    ∃ q, q < n ∧ ∀ j, j < n → cell x j ≤ cell x q := by
  obtain ⟨q, hq, hmax⟩ :=
    Finset.exists_max_image _ (cell x) (Finset.nonempty_range_iff.mpr hn.ne')
  exact ⟨q, Finset.mem_range.mp hq, fun j hj => hmax j (Finset.mem_range.mpr hj)⟩

/-- A smallest element at the lower end is the minimum that was measured. -/
theorem not_firstIsLeast (hn : 2 ≤ n) (hx : InRange x) (hs : sLow < sHigh)
    (h : Rescales x sLow sHigh) : ¬ FirstIsLeast x := by
  obtain ⟨mx, mn, hreturns, hdx, y, hy, -, -, hlow, -⟩ := h
  have hmeasure : Measured x n (mx, mn) := (dspMaxMinVal_ends x).of_unique hreturns
  obtain ⟨p, hp, hmin⟩ := exists_smallest x (by omega)
  have hscaled := (scale_ends x mx mn sLow sHigh).of_unique hy p hp
  have hlowest : scaled mx mn sLow sHigh (cell x p) = sLow := hscaled.symm.trans (hlow p hp hmin)
  exact (hmeasure.min_eq_iff hx hn hp hmin).mp (eq_min_of_scaled hdx hs hlowest).symm

variable [IsStrictOrderedRing K]

/-- **The order is kept** if the bounds are in order. -/
theorem scaled_strictMono (h : mn < mx) (hs : sLow < sHigh) :
    StrictMono (scaled mx mn sLow sHigh) := by
  intro s t hst
  have hdx : 0 < mx - mn := sub_pos.mpr h
  have hds : 0 < sHigh - sLow := sub_pos.mpr hs
  unfold scaled
  gcongr

/-- **When the data are put in range**: for data that are not all equal exactly if the first element
is not the only smallest one, or is `SHRT_MIN`. -/
theorem rescales_iff (x : Vector K n) (hn : 2 ≤ n) (hx : InRange x)
    (hne : ∃ i j, i < n ∧ j < n ∧ cell x i ≠ cell x j) (hs : sLow < sHigh) :
    Rescales x sLow sHigh ↔ ¬ FirstIsLeast x := by
  refine ⟨not_firstIsLeast hn hx hs, fun hfirst => ?_⟩
  obtain ⟨⟨mx, mn⟩, hmeasure, h⟩ := dspMaxMinVal_ends x
  obtain ⟨p, hp, hmin⟩ := exists_smallest x (by omega)
  obtain ⟨q, hq, hmax⟩ := exists_largest x (by omega)
  have hmx : mx = cell x q := h.max_eq hx hq hmax
  have hmn : mn = cell x p := (h.min_eq_iff hx hn hp hmin).mpr hfirst
  have hlt : mn < mx := by
    obtain ⟨i, j, hi, hj, hij⟩ := hne
    by_contra hle
    -- between equal bounds all elements are equal
    have hconst : ∀ k, k < n → cell x k = mn := by
      intro k hk
      apply le_antisymm
      · calc cell x k ≤ cell x q := hmax k hk
          _ = mx := hmx.symm
          _ ≤ mn := not_lt.mp hle
      · calc mn = cell x p := hmn
          _ ≤ cell x k := hmin k hk
    exact hij ((hconst i hi).trans (hconst j hj).symm)
  have hdx : mx - mn ≠ 0 := (sub_pos.mpr hlt).ne'
  -- the scaled values are in the order of the elements, from `sLow` to `sHigh`
  have hmono := scaled_strictMono hlt hs
  refine ⟨mx, mn, hmeasure, hdx, (scale_ends x mx mn sLow sHigh).mono fun y hy => ?_⟩
  refine ⟨fun i hi => ?_, fun i hi hlargest => ?_, fun i hi hsmallest => ?_, fun i j hi hj => ?_⟩
  · rw [hy i hi]
    constructor
    · calc sLow = scaled mx mn sLow sHigh mn := scaled_min.symm
        _ ≤ scaled mx mn sLow sHigh (cell x i) := hmono.monotone (hmn ▸ hmin i hi)
    · calc scaled mx mn sLow sHigh (cell x i) ≤ scaled mx mn sLow sHigh mx :=
            hmono.monotone (hmx ▸ hmax i hi)
        _ = sHigh := scaled_max hdx
  · rw [hy i hi, ← h.max_eq hx hi hlargest, scaled_max hdx]
  · rw [hy i hi, ← (h.min_eq_iff hx hn hi hsmallest).mpr hfirst, scaled_min]
  · rw [hy i hi, hy j hj, hmono.lt_iff_lt]

/-- An array that does not begin with its least element. -/
theorem rescales_three : Rescales (#v[2, 1, 3] : Vector ℚ 3) (-10) 10 := by
  refine (rescales_iff _ (by decide) ?_ ⟨0, 1, by decide, by decide, ?_⟩ (by decide)).mpr ?_
  · unfold InRange
    decide +kernel
  · decide +kernel
  · rintro ⟨-, h⟩
    exact absurd (h 1 (by decide) (by decide)) (by decide +kernel)

/-- In a rising array nothing is ever compared with the minimum. -/
theorem not_rescales_rising : ¬ Rescales (#v[1, 2] : Vector ℚ 2) 0 1 := by
  intro h
  refine not_firstIsLeast (by decide) ?_ (by decide) h ⟨by decide +kernel, fun i hpos hi => ?_⟩
  · unfold InRange
    decide +kernel
  · obtain rfl : i = 1 := by omega
    decide +kernel

end SqlCode.FftSerial
