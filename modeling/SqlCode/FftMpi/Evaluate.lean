import SqlCode.Exec.Cells
import SqlCode.Dft.Cplx
import SqlCode.Dft.RootTower
import Mathlib.Logic.Equiv.Defs

/-!
# Polynomial evaluation in the MPI FFT

`comp_add`, `comp_multiply`, `shuffle` and `evaluate` of `fft_mpi.c`. The local
arrays have `2 * MAX_N` entries with arbitrary initial contents, given by `junk`;
the arrays `f`, `x` and `y` have any length. The argument `totalLength` is passed
along and never read; it is left out. Indices are natural numbers: they are never
negative.

`evaluate` splits a polynomial into its even and odd coefficients, which
`shuffle` brings next to each other (`shuffle_spec`), and evaluates both at the
squares of the points. For every number of coefficients, it leaves in `y` the
values at the points in range, and permutes the coefficients
(`evaluate_spec`). The induction follows the recursion on ranges (`range_induction`).
From three coefficients on, both ranges have to fit the local arrays, which are
indexed like `f` and `y` (`evaluate_values_fails`).
-/

namespace SqlCode.FftMpi

open Exec Dft

/-- `MAX_N`. -/
def maxN : ℕ := 4096

variable {R : Type} [CommRing R] {flen xlen ylen : ℕ}

/-- `comp_add`. -/
def compAdd (c1 c2 : Cplx R) : Cplx R :=
  ⟨c1.real + c2.real, c1.imag + c2.imag⟩

/-- `comp_multiply`. -/
def compMultiply (c1 c2 : Cplx R) : Cplx R :=
  ⟨c1.real * c2.real - c1.imag * c2.imag, c1.real * c2.imag + c2.real * c1.imag⟩

/-- `shuffle`. -/
def shuffle (junk : ℕ → Cplx R) (f : Vector (Cplx R) flen) (beginPos endPos : ℕ) :
    Prog (Vector (Cplx R) flen) := do
  let temp := malloc junk (2 * maxN)
  let temp ← forRange beginPos (endPos + 1) temp fun i temp => do
    wr temp i (← rd f i)
  let j := beginPos
  let (f, j) ← forLoop beginPos (endPos + 1) 2 (f, j) fun i (f, j) => do
    let f ← wr f j (← rd temp i)
    pure (f, j + 1)
  let (f, _) ← forLoop (beginPos + 1) (endPos + 1) 2 (f, j) fun i (f, j) => do
    let f ← wr f j (← rd temp i)
    pure (f, j + 1)
  pure f

/-- `evaluate` with calls nested at most as deep as the budget. -/
def evaluateFuel (junk : ℕ → Cplx R) (fuel : ℕ) {xlen ylen : ℕ} (f : Vector (Cplx R) flen)
    (beginPos endPos : ℕ) (x : Vector (Cplx R) xlen) (y : Vector (Cplx R) ylen)
    (leftPos rightPos : ℕ) : Except Fault (Vector (Cplx R) flen × Vector (Cplx R) ylen) :=
  match fuel with
  | 0 => .error .outOfFuel
  | fuel + 1 =>
    if beginPos > endPos ∨ leftPos > rightPos then
      .error .exit
    else if beginPos = endPos then do
      let y ← (forRange leftPos (rightPos + 1) y fun i y => do
        wr y i (← rd f beginPos)).run fuel
      .ok (f, y)
    else if beginPos + 1 = endPos then do
      let y ← (forRange leftPos (rightPos + 1) y fun i y => do
        let temp := compMultiply (← rd f endPos) (← rd x i)
        wr y i (compAdd (← rd f beginPos) temp)).run fuel
      .ok (f, y)
    else do
      let midPos := (beginPos + endPos) / 2
      let f ← (shuffle junk f beginPos endPos).run fuel
      let tempX ← (forRange leftPos (rightPos + 1) (malloc junk (2 * maxN)) fun i tempX => do
        wr tempX i (compMultiply (← rd x i) (← rd x i))).run fuel
      let (f, tempY1) ← evaluateFuel junk fuel f beginPos midPos tempX
        (malloc junk (2 * maxN)) leftPos rightPos
      let (f, tempY2) ← evaluateFuel junk fuel f (midPos + 1) endPos tempX
        (malloc junk (2 * maxN)) leftPos rightPos
      let y ← (forRange leftPos (rightPos + 1) y fun i y => do
        let temp := compMultiply (← rd x i) (← rd tempY2 i)
        wr y i (compAdd (← rd tempY1 i) temp)).run fuel
      .ok (f, y)

/-- `evaluate`, which changes `f` and `y`. -/
def evaluate (junk : ℕ → Cplx R) (f : Vector (Cplx R) flen) (beginPos endPos : ℕ)
    (x : Vector (Cplx R) xlen) (y : Vector (Cplx R) ylen) (leftPos rightPos : ℕ) :
    Prog (Vector (Cplx R) flen × Vector (Cplx R) ylen) :=
  fun fuel => evaluateFuel junk fuel f beginPos endPos x y leftPos rightPos

theorem compAdd_eq (a b : Cplx R) : compAdd a b = a + b := rfl

theorem compMultiply_eq (a b : Cplx R) : compMultiply a b = a * b := by
  ext <;> simp [compMultiply]
  ring

/-! ### The shuffle -/

/-- Where the entry at `i` comes from when the entries from `b` to `b + n - 1` are
shuffled: first those at even offsets, then those at odd ones. -/
def shuffled (b n i : ℕ) : ℕ :=
  if i < b ∨ b + n ≤ i then i
  else if i - b < (n + 1) / 2 then b + 2 * (i - b)
  else b + (2 * (i - b - (n + 1) / 2) + 1)

/-- Where the entry at `i` goes to. -/
def unshuffled (b n i : ℕ) : ℕ :=
  if i < b ∨ b + n ≤ i then i
  else if (i - b) % 2 = 0 then b + (i - b) / 2
  else b + (n + 1) / 2 + (i - b) / 2

/-- The shuffle as a permutation of the positions. -/
def shufflePerm (b n : ℕ) : Equiv.Perm ℕ where
  toFun := shuffled b n
  invFun := unshuffled b n
  left_inv i := by
    unfold shuffled unshuffled
    split_ifs <;> omega
  right_inv i := by
    unfold shuffled unshuffled
    split_ifs <;> omega

/-- The two loops that write back: entries of `temp`, two apart from `lo` on, go to
entries of `f` next to each other, from `j` on. -/
theorem everySecond_ends {tlen lo j count : ℕ} (temp : Vector (Cplx R) tlen)
    (f : Vector (Cplx R) flen) (hread : ∀ t, t < count → lo + t * 2 < tlen)
    (hwrite : j + count ≤ flen) :
    Ends (forCount lo 2 count (f, j) fun i (f, j) => do
        let f ← wr f j (← rd temp i)
        pure (f, j + 1)) fun p => p.2 = j + count ∧ ∀ i, cell p.1 i =
      if j ≤ i ∧ i < j + count then cell temp (lo + (i - j) * 2) else cell f i := by
  refine ends_forCount (fun t (p : Vector (Cplx R) flen × ℕ) => p.2 = j + t ∧ ∀ i, cell p.1 i =
    if j ≤ i ∧ i < j + t then cell temp (lo + (i - j) * 2) else cell f i)
    ⟨rfl, fun i => by rw [if_neg (by omega)]⟩ ?_
  rintro t ⟨g, _⟩ ht ⟨rfl, hg⟩
  dsimp only
  rw [rd_eq temp (hread t ht), pure_bind, wr_eq g (by omega), pure_bind]
  refine ends_pure ⟨rfl, fun i => ?_⟩
  rw [cell_set]
  by_cases hi : i = j + t
  · rw [if_pos hi, if_pos (by omega), hi, Nat.add_sub_cancel_left]
  · rw [if_neg hi, hg]
    exact if_congr (by omega) rfl rfl

/-- `shuffle` moves the entries as `shuffled` says, and stays inside its arrays. -/
theorem shuffle_spec (junk : ℕ → Cplx R) (f : Vector (Cplx R) flen) {b e : ℕ}
    (hbe : b ≤ e) (he : e < flen) (het : e < 2 * maxN) :
    Ends (shuffle junk f b e) fun f' =>
      ∀ i, cell f' i = cell f (shuffled b (e + 1 - b) i) := by
  unfold shuffle forLoop
  refine (ends_forCells (cell f) (by omega) fun k y h1 h2 _ => ?_).bind fun temp htemp => ?_
  · rw [rd_eq f (by omega), pure_bind, wr_eq y (by omega)]
    exact ends_pure ⟨cell_set_self _ _ _, fun t ht => cell_set_ne _ _ _ ht⟩
  -- the even offsets fill the first half, from `b` on
  rw [show (e + 1 - b + (2 - 1)) / 2 = (e + 1 - b + 1) / 2 by omega]
  refine (everySecond_ends temp f (fun t ht => by omega) (by omega)).bind ?_
  rintro ⟨g, _⟩ ⟨rfl, hg⟩
  -- the odd offsets fill the second half, right after it
  refine (everySecond_ends temp g (fun t ht => by omega) (by omega)).bind ?_
  rintro ⟨g', _⟩ ⟨-, hg'⟩
  refine ends_pure fun i => ?_
  rw [hg', hg]
  unfold shuffled
  split_ifs with h1 h2 h3 h4 h5 <;> first | omega | skip
  · rw [htemp.1 _ (by omega) (by omega)]
    congr 1
    omega
  · rw [htemp.1 _ (by omega) (by omega)]
    congr 1
    omega
  · rfl

/-! ### The recursion -/

/-- The polynomial with the `L` coefficients of `f` from `b` on, at the point `z`. -/
def polyAt (f : ℕ → Cplx R) (b L : ℕ) (z : Cplx R) : Cplx R :=
  ∑ t ∈ Finset.range L, f (b + t) * z ^ t

theorem polyAt_congr {f g : ℕ → Cplx R} {b L : ℕ} (h : ∀ i, b ≤ i → i < b + L → f i = g i)
    (z : Cplx R) : polyAt f b L z = polyAt g b L z :=
  Finset.sum_congr rfl fun t ht => by
    have htL := Finset.mem_range.mp ht
    rw [h (b + t) (by omega) (by omega)]

/-- A polynomial at `z`, from its shuffled halves at `z * z`. -/
theorem polyAt_shuffled (f : ℕ → Cplx R) (b L : ℕ) (z : Cplx R) :
    polyAt f b L z = polyAt (fun i => f (shuffled b L i)) b ((L + 1) / 2) (z * z)
      + z * polyAt (fun i => f (shuffled b L i)) (b + (L + 1) / 2) (L / 2) (z * z) := by
  unfold polyAt
  -- the coefficients at even distance are the first half, the others the second
  rw [sum_range_halves, Finset.mul_sum]
  congr 1
  · refine Finset.sum_congr rfl fun t ht => ?_
    have htL := Finset.mem_range.mp ht
    have hsrc : shuffled b L (b + t) = b + 2 * t := by
      unfold shuffled
      rw [if_neg (by omega), if_pos (by omega), Nat.add_sub_cancel_left]
    beta_reduce
    rw [hsrc, pow_mul, pow_two]
  · refine Finset.sum_congr rfl fun t ht => ?_
    have htL := Finset.mem_range.mp ht
    have hsrc : shuffled b L (b + (L + 1) / 2 + t) = b + (2 * t + 1) := by
      unfold shuffled
      rw [if_neg (by omega), if_neg (by omega)]
      congr 2
      omega
    beta_reduce
    rw [hsrc, pow_succ, pow_mul, pow_two]
    ring

/-- The last branch of `evaluate`. -/
def evaluateHalves (junk : ℕ → Cplx R) (f : Vector (Cplx R) flen) (beginPos endPos : ℕ)
    (x : Vector (Cplx R) xlen) (y : Vector (Cplx R) ylen) (leftPos rightPos : ℕ) :
    Prog (Vector (Cplx R) flen × Vector (Cplx R) ylen) := do
  let midPos := (beginPos + endPos) / 2
  let f ← shuffle junk f beginPos endPos
  let tempX ← forRange leftPos (rightPos + 1) (malloc junk (2 * maxN)) fun i tempX => do
    wr tempX i (compMultiply (← rd x i) (← rd x i))
  let (f, tempY1) ← evaluate junk f beginPos midPos tempX (malloc junk (2 * maxN)) leftPos rightPos
  let (f, tempY2) ← evaluate junk f (midPos + 1) endPos tempX (malloc junk (2 * maxN))
    leftPos rightPos
  let y ← forRange leftPos (rightPos + 1) y fun i y => do
    let temp := compMultiply (← rd x i) (← rd tempY2 i)
    wr y i (compAdd (← rd tempY1 i) temp)
  pure (f, y)

theorem evaluate_halves {junk : ℕ → Cplx R} {f : Vector (Cplx R) flen} {b e l r : ℕ}
    {x : Vector (Cplx R) xlen} {y : Vector (Cplx R) ylen} (hbe : b + 1 < e) (hlr : l ≤ r)
    (fuel : ℕ) :
    (evaluate junk f b e x y l r).run (fuel + 1)
      = (evaluateHalves junk f b e x y l r).run fuel := by
  change evaluateFuel junk (fuel + 1) f b e x y l r = _
  rw [evaluateFuel, if_neg (by omega), if_neg (by omega), if_neg (by omega)]
  rfl

/-- The first branch: a constant. -/
theorem evaluate_single {junk : ℕ → Cplx R} {f : Vector (Cplx R) flen} {b l r : ℕ}
    {x : Vector (Cplx R) xlen} {y : Vector (Cplx R) ylen} (hlr : l ≤ r) (fuel : ℕ) :
    (evaluate junk f b b x y l r).run (fuel + 1)
      = (do
          let y ← forRange l (r + 1) y fun i y => do wr y i (← rd f b)
          pure (f, y) : Prog _).run fuel := by
  change evaluateFuel junk (fuel + 1) f b b x y l r = _
  rw [evaluateFuel, if_neg (by omega), if_pos rfl]
  rfl

/-- The second branch: two coefficients. -/
theorem evaluate_pair {junk : ℕ → Cplx R} {f : Vector (Cplx R) flen} {b l r : ℕ}
    {x : Vector (Cplx R) xlen} {y : Vector (Cplx R) ylen} (hlr : l ≤ r) (fuel : ℕ) :
    (evaluate junk f b (b + 1) x y l r).run (fuel + 1)
      = (do
          let y ← forRange l (r + 1) y fun i y => do
            let temp := compMultiply (← rd f (b + 1)) (← rd x i)
            wr y i (compAdd (← rd f b) temp)
          pure (f, y) : Prog _).run fuel := by
  change evaluateFuel junk (fuel + 1) f b (b + 1) x y l r = _
  rw [evaluateFuel, if_neg (by omega), if_neg (by omega), if_pos rfl]
  rfl

/-- What a call of `evaluate` leaves in its two arrays. -/
structure Evaluated (f : Vector (Cplx R) flen) (b e : ℕ) (x : Vector (Cplx R) xlen)
    (y : Vector (Cplx R) ylen) (l r : ℕ) (p : Vector (Cplx R) flen × Vector (Cplx R) ylen) :
    Prop where
  /-- The coefficients in range are permuted, and the others stay in place. -/
  perm : ∃ σ : Equiv.Perm ℕ, (∀ i, i < b ∨ e < i → σ i = i) ∧
    ∀ i, cell p.1 i = cell f (σ i)
  /-- The entries in range are the values of the polynomial. -/
  value : ∀ i, l ≤ i → i ≤ r → cell p.2 i = polyAt (cell f) b (e + 1 - b) (cell x i)
  /-- The other entries stay. -/
  frame : ∀ i, i < l ∨ r < i → cell p.2 i = cell y i

/-- The three loops over the points compute `v i` at every point. -/
theorem points_ends {l r : ℕ} {y : Vector (Cplx R) ylen}
    {body : ℕ → Vector (Cplx R) ylen → Prog (Vector (Cplx R) ylen)} (v : ℕ → Cplx R)
    (hlr : l ≤ r) (hr : r < ylen)
    (hbody : ∀ i y, l ≤ i → i ≤ r → body i y = wr y i (v i)) :
    Ends (forRange l (r + 1) y body) fun z =>
      (∀ i, l ≤ i → i ≤ r → cell z i = v i) ∧ ∀ i, i < l ∨ r < i → cell z i = cell y i := by
  refine (ends_forCells v (by omega) fun k z h1 h2 _ => ?_).mono fun z hz =>
    ⟨fun i h1 h2 => hz.1 i h1 (by omega), fun i hi => hz.2 i (by omega)⟩
  rw [hbody k z h1 (by omega), wr_eq z (by omega)]
  exact ends_pure ⟨cell_set_self _ _ _, fun t ht => cell_set_ne _ _ _ ht⟩

/-- **The recursion of `evaluate`** on the coefficients from `b` to `e`: one coefficient, two
coefficients, or two halves. -/
@[elab_as_elim]
theorem range_induction {motive : ∀ b e : ℕ, b ≤ e → Prop} (one : ∀ b, motive b b le_rfl)
    (two : ∀ b, motive b (b + 1) (Nat.le_succ b))
    (halves : ∀ b e, b + 1 < e → ∀ (hleft : b ≤ (b + e) / 2) (hright : (b + e) / 2 + 1 ≤ e)
      (hbe : b ≤ e), motive b ((b + e) / 2) hleft → motive ((b + e) / 2 + 1) e hright →
        motive b e hbe)
    (b e : ℕ) (hbe : b ≤ e) : motive b e hbe := by
  induction hL : e + 1 - b using Nat.strong_induction_on generalizing b e with
  | _ L ih =>
    subst hL
    rcases (by omega : e = b ∨ e = b + 1 ∨ b + 1 < e) with rfl | rfl | hlong
    · exact one e
    · exact two b
    · apply halves b e hlong (by omega) (by omega) hbe
      · exact ih _ (by omega) b ((b + e) / 2) _ rfl
      · exact ih _ (by omega) ((b + e) / 2 + 1) e _ rfl

/-- The local arrays have entries at both ranges, where they are used. -/
def LocalFits (b e r : ℕ) : Prop := b + 1 < e → e < 2 * maxN ∧ r < 2 * maxN

/-- **`evaluate` evaluates**, for every number of coefficients, and its error exit
is out of reach. -/
theorem evaluate_spec (junk : ℕ → Cplx R) (f : Vector (Cplx R) flen) (x : Vector (Cplx R) xlen)
    (y : Vector (Cplx R) ylen) {b e l r : ℕ} (hbe : b ≤ e) (hlr : l ≤ r) (he : e < flen)
    (hx : r < xlen) (hy : r < ylen) (hlocal : LocalFits b e r) :
    Ends (evaluate junk f b e x y l r) (Evaluated f b e x y l r) := by
  induction b, e, hbe using range_induction generalizing xlen ylen f x y with
  | one b =>
    refine Ends.of_budget (evaluate_single hlr) ?_
    refine (points_ends (fun _ => cell f b) hlr hy fun i y _ _ => ?_).bind fun z hz => ?_
    · rw [rd_eq f he, pure_bind]
    · exact ends_pure ⟨⟨.refl ℕ, fun _ _ => rfl, fun _ => rfl⟩,
        fun i h1 h2 => by rw [hz.1 i h1 h2]; simp [polyAt], hz.2⟩
  | two b =>
    refine Ends.of_budget (evaluate_pair hlr) ?_
    refine (points_ends (fun i => cell f b + cell f (b + 1) * cell x i) hlr hy
      fun i y _ _ => ?_).bind fun z hz => ?_
    · rw [rd_eq f he, rd_eq f (by omega), rd_eq x (by omega)]
      simp only [pure_bind, compAdd_eq, compMultiply_eq]
    · refine ends_pure ⟨⟨.refl ℕ, fun _ _ => rfl, fun _ => rfl⟩, fun i h1 h2 => ?_, hz.2⟩
      rw [hz.1 i h1 h2, polyAt, show b + 1 + 1 - b = 2 by omega]
      simp [Finset.sum_range_succ]
  | halves b e hlong _ _ hbe ih₁ ih₂ =>
    refine Ends.of_budget (evaluate_halves hlong hlr) ?_
    obtain ⟨het, hr⟩ := hlocal hlong
    -- the two calls get the even and the odd coefficients
    have hfirst : (b + e) / 2 + 1 - b = (e + 1 - b + 1) / 2 := by omega
    have hsecond : e + 1 - ((b + e) / 2 + 1) = (e + 1 - b) / 2 := by omega
    unfold evaluateHalves
    refine (shuffle_spec junk f hbe he het).bind fun f₁ hf₁ => ?_
    refine (points_ends (fun i => cell x i * cell x i) hlr hr fun i y _ _ => ?_).bind
      fun tempX hX => ?_
    · rw [rd_eq x (by omega)]
      simp only [pure_bind, compMultiply_eq]
    refine (ih₁ f₁ tempX (malloc junk _) (by omega) hr hr fun _ => ⟨by omega, hr⟩).bind ?_
    rintro ⟨f₂, y₁⟩ ⟨⟨σ₁, hout₁, hσ₁⟩, hy₁, -⟩
    refine (ih₂ f₂ tempX (malloc junk _) he hr hr fun _ => ⟨het, hr⟩).bind ?_
    rintro ⟨f₃, y₂⟩ ⟨⟨σ₂, hout₂, hσ₂⟩, hy₂, -⟩
    refine (points_ends (fun i => cell y₁ i + cell x i * cell y₂ i) hlr hy
      fun i y _ _ => ?_).bind fun z hz => ?_
    · rw [rd_eq x (by omega), rd_eq y₂ (by omega), rd_eq y₁ (by omega)]
      simp only [pure_bind, compAdd_eq, compMultiply_eq]
    refine ends_pure ⟨⟨(σ₂.trans σ₁).trans (shufflePerm b (e + 1 - b)), ?_, ?_⟩, ?_, hz.2⟩
    · -- outside the range, none of the three permutations moves anything
      intro i hi
      have hfix : shuffled b (e + 1 - b) i = i := by
        unfold shuffled
        rw [if_pos (by omega)]
      change shuffled b (e + 1 - b) (σ₁ (σ₂ i)) = i
      rw [hout₂ i (by omega), hout₁ i (by omega), hfix]
    · intro i
      rw [hσ₂, hσ₁, hf₁]
      rfl
    · intro i h1 h2
      -- the second call finds its coefficients where `shuffle` put them
      have hsame : ∀ t, (b + e) / 2 + 1 ≤ t → cell f₂ t = cell f₁ t := by
        intro t ht
        rw [hσ₁, hout₁ t (by omega)]
      calc cell z i = cell y₁ i + cell x i * cell y₂ i := hz.1 i h1 h2
        _ = polyAt (cell f₁) b ((e + 1 - b + 1) / 2) (cell tempX i)
            + cell x i * polyAt (cell f₁) ((b + e) / 2 + 1) ((e + 1 - b) / 2)
              (cell tempX i) := by
            rw [hy₁ i h1 h2, hy₂ i h1 h2, hfirst, hsecond,
              polyAt_congr fun t ht _ => hsame t ht]
        _ = polyAt (cell f) b (e + 1 - b) (cell x i) := by
            rw [polyAt_shuffled (cell f), hX.1 i h1 h2,
              show (b + e) / 2 + 1 = b + (e + 1 - b + 1) / 2 by omega, funext hf₁]

/-- **Polynomial evaluation.** For every range of coefficients and every range of
points within the arrays, the local ones included from three coefficients on, `evaluate` returns
the values at the points, leaves the other entries of `y` and the coefficients outside the range
alone, and permutes those inside. A run that returns has not passed the error exit, in no call. -/
theorem evaluate_values (junk : ℕ → Cplx R) (f : Vector (Cplx R) flen) (x : Vector (Cplx R) xlen)
    (y : Vector (Cplx R) ylen) {b e l r : ℕ} (hbe : b ≤ e) (hlr : l ≤ r) (he : e < flen)
    (hx : r < xlen) (hy : r < ylen) (hlocal : b + 1 < e → e < 2 * maxN ∧ r < 2 * maxN) :
    (∃ f' y', Returns (evaluate junk f b e x y l r) (f', y') ∧
      (∀ i, l ≤ i → i ≤ r → cell y' i =
        ∑ t ∈ Finset.range (e + 1 - b), cell f (b + t) * cell x i ^ t) ∧
      (∀ i, i < l ∨ r < i → cell y' i = cell y i) ∧
      (∀ i, i < b ∨ e < i → cell f' i = cell f i) ∧
      ∃ σ : Equiv.Perm ℕ, (∀ i, i < b ∨ e < i → σ i = i) ∧ ∀ i, cell f' i = cell f (σ i)) ∧
      ¬ Fails (· = .exit) (evaluate junk f b e x y l r) := by
  have hspec := evaluate_spec junk f x y hbe hlr he hx hy hlocal
  refine ⟨?_, hspec.not_fails⟩
  obtain ⟨⟨f', y'⟩, hret, ⟨σ, hout, hσ⟩, hvalue, hframe⟩ := hspec
  refine ⟨f', y', hret, hvalue, hframe, fun i hi => ?_, σ, hout, hσ⟩
  rw [hσ, hout i hi]

/-- Three coefficients from position one on, at the two points of an array. -/
theorem evaluate_values_three :
    let f : Vector (Cplx ℤ) 4 := Vector.ofFn fun i => ⟨(i : ℕ), 1⟩
    let x : Vector (Cplx ℤ) 2 := Vector.ofFn fun i => ⟨1, (i : ℕ)⟩
    (∃ f' y', Returns (evaluate (fun _ => 0) f 1 3 x f 0 1) (f', y') ∧
      (∀ i, 0 ≤ i → i ≤ 1 → cell y' i =
        ∑ t ∈ Finset.range (3 + 1 - 1), cell f (1 + t) * cell x i ^ t) ∧
      (∀ i, i < 0 ∨ 1 < i → cell y' i = cell f i) ∧
      (∀ i, i < 1 ∨ 3 < i → cell f' i = cell f i) ∧
      ∃ σ : Equiv.Perm ℕ, (∀ i, i < 1 ∨ 3 < i → σ i = i) ∧ ∀ i, cell f' i = cell f (σ i)) ∧
      ¬ Fails (· = .exit) (evaluate (fun _ => 0) f 1 3 x f 0 1) :=
  evaluate_values _ _ _ _ (by decide) (by decide) (by decide) (by decide) (by decide)
    fun _ => ⟨by decide, by decide⟩

/-! ### Past the local arrays -/

omit [CommRing R] in
/-- A loop that fills a local array leaves it, if it goes far enough. -/
theorem fill_fails {l r : ℕ} (temp : Vector (Cplx R) (2 * maxN)) (v : ℕ → Cplx R) (hlr : l ≤ r)
    (hr : 2 * maxN ≤ r) {body : ℕ → Vector (Cplx R) (2 * maxN) → Prog _}
    (hbody : ∀ i y, l ≤ i → i ≤ r → body i y = wr y i (v i)) :
    Fails (· = .outOfBounds) (forRange l (r + 1) temp body) := by
  refine fails_forRange (k := max l (2 * maxN)) (by omega) (by omega) (fun _ _ => True) trivial
    (fun i y h1 h2 _ => ?_) fun y _ => ?_
  · rw [hbody i y h1 (by omega), wr_eq y (by omega)]
    exact ends_pure trivial
  · rw [hbody _ y (by omega) (by omega)]
    exact fails_wr (E := (· = .outOfBounds)) rfl y (by omega) _

/-- Otherwise `evaluate` goes out of bounds, in `shuffle` or when it squares the points. -/
theorem evaluate_fails (junk : ℕ → Cplx R) (f : Vector (Cplx R) flen) (x : Vector (Cplx R) xlen)
    (y : Vector (Cplx R) ylen) {b e l r : ℕ} (hlr : l ≤ r) (he : e < flen) (hx : r < xlen)
    (hlocal : ¬ LocalFits b e r) : Fails (· = .outOfBounds) (evaluate junk f b e x y l r) := by
  obtain ⟨hlong, hout⟩ : b + 1 < e ∧ ¬ (e < 2 * maxN ∧ r < 2 * maxN) := by
    unfold LocalFits at hlocal
    rwa [Classical.not_imp] at hlocal
  refine Fails.of_budget (evaluate_halves hlong hlr) ?_
  rcases Nat.lt_or_ge e (2 * maxN) with hshort | hshort
  · obtain ⟨f', hf', -⟩ := shuffle_spec junk f (by omega : b ≤ e) he hshort
    refine Fails.bind_right hf' (Fails.bind_left ?_ _)
    refine fill_fails _ (fun i => cell x i * cell x i) hlr (by omega) fun i y _ _ => ?_
    rw [rd_eq x (by omega)]
    simp only [pure_bind, compMultiply_eq]
  · refine Fails.bind_left (Fails.bind_left ?_ _) _
    refine fill_fails _ (cell f) (by omega) hshort fun i y _ _ => ?_
    rw [rd_eq f (by omega), pure_bind]

/-- Three coefficients, the last of them at index `2 * MAX_N`, and one point. -/
theorem evaluate_values_fails :
    let f : Vector (Cplx ℤ) (2 * maxN + 1) := Vector.replicate _ 1
    let x : Vector (Cplx ℤ) 1 := Vector.replicate _ 1
    Fails (· = .outOfBounds) (evaluate (fun _ => 0) f (2 * maxN - 2) (2 * maxN) x x 0 0) := by
  intro f x
  refine evaluate_fails _ f x x le_rfl (by omega) (by omega) fun h => ?_
  exact absurd (h (by decide)).1 (lt_irrefl _)

end SqlCode.FftMpi
