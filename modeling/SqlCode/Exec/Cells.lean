import SqlCode.Exec.Prog
import Mathlib.Algebra.Notation.Defs

/-!
# Arrays with checked accesses

A C array of `n` elements is a `Vector α n`. Reading it (`rd`) or writing it
(`wr`) outside its bounds is the fault `outOfBounds`, so a program over arrays
that returns has stayed inside every array it was given.

Proofs look at an array through `cell`, its contents as a function on `ℕ` that
is `0` past the end: `rd_eq` and `wr_eq` turn the in-bounds accesses of a
program into pure values, `cell_set` and `cell_ofFn` compute on them, and
`ext_cell` goes back from contents to arrays.
-/

namespace Exec

variable {α β : Type} {n : ℕ}

/-- `x[i]`. -/
def rd (x : Vector α n) (i : ℕ) : Prog α :=
  if h : i < n then pure x[i] else throw .outOfBounds

/-- `x[i] = v`. -/
def wr (x : Vector α n) (i : ℕ) (v : α) : Prog (Vector α n) :=
  if h : i < n then pure (x.set i v) else throw .outOfBounds

/-- Fresh memory for `n` elements, holding whatever `junk` says. -/
def malloc (junk : ℕ → α) (n : ℕ) : Vector α n :=
  Vector.ofFn fun i => junk i

variable [Zero α]

/-- The contents of an array. -/
def cell (x : Vector α n) (i : ℕ) : α :=
  if h : i < n then x[i] else 0

theorem cell_eq {x : Vector α n} {i : ℕ} (h : i < n) : cell x i = x[i] :=
  dif_pos h

theorem rd_eq (x : Vector α n) {i : ℕ} (h : i < n) : rd x i = pure (cell x i) := by
  rw [rd, dif_pos h, cell_eq h]

theorem returns_rd (x : Vector α n) {i : ℕ} (h : i < n) : Returns (rd x i) (cell x i) := by
  rw [rd_eq x h]
  exact returns_pure _

omit [Zero α] in
theorem wr_eq (x : Vector α n) {i : ℕ} (h : i < n) (v : α) :
    wr x i v = pure (x.set i v) :=
  dif_pos h

omit [Zero α] in
theorem fails_rd {E : Fault → Prop} (hE : E .outOfBounds) (x : Vector α n) {i : ℕ} (h : n ≤ i) :
    Fails E (rd x i) := by
  rw [rd, dif_neg (by omega)]
  exact fails_throw hE

omit [Zero α] in
theorem fails_wr {E : Fault → Prop} (hE : E .outOfBounds) (x : Vector α n) {i : ℕ} (h : n ≤ i)
    (v : α) : Fails E (wr x i v) := by
  rw [wr, dif_neg (by omega)]
  exact fails_throw hE

omit [Zero α] in
/-- The only fault of a read is `outOfBounds`. -/
theorem avoids_rd {e : Fault} (he : .outOfBounds ≠ e) (x : Vector α n) (i : ℕ) :
    Avoids e (rd x i) := by
  unfold rd
  split
  · exact avoids_pure _
  · exact avoids_throw he

omit [Zero α] in
/-- The only fault of a write is `outOfBounds`. -/
theorem avoids_wr {e : Fault} (he : .outOfBounds ≠ e) (x : Vector α n) (i : ℕ) (v : α) :
    Avoids e (wr x i v) := by
  unfold wr
  split
  · exact avoids_pure _
  · exact avoids_throw he

theorem cell_set (x : Vector α n) {i : ℕ} (h : i < n) (v : α) (k : ℕ) :
    cell (x.set i v) k = if k = i then v else cell x k := by
  unfold cell
  by_cases hk : k < n
  · rw [dif_pos hk, dif_pos hk, Vector.getElem_set]
    by_cases hki : k = i
    · rw [if_pos hki.symm, if_pos hki]
    · rw [if_neg (Ne.symm hki), if_neg hki]
  · rw [dif_neg hk, dif_neg hk, if_neg (by omega)]

@[simp] theorem cell_set_self (x : Vector α n) {i : ℕ} (h : i < n) (v : α) :
    cell (x.set i v) i = v := by
  rw [cell_set, if_pos rfl]

theorem cell_set_ne (x : Vector α n) {i k : ℕ} (h : i < n) (v : α) (hk : k ≠ i) :
    cell (x.set i v) k = cell x k := by
  rw [cell_set, if_neg hk]

theorem cell_ofFn (f : Fin n → α) {i : ℕ} (h : i < n) :
    cell (Vector.ofFn f) i = f ⟨i, h⟩ := by
  rw [cell_eq h, Vector.getElem_ofFn]

/-- Arrays with the same contents are equal. -/
theorem ext_cell {x y : Vector α n} (h : ∀ i, i < n → cell x i = cell y i) : x = y := by
  ext i hi
  rw [← cell_eq hi, ← cell_eq hi, h i hi]

omit [Zero α] in
/-- A loop over the elements of an array is a fold. -/
theorem forRange_eq_foldlM {σ : Type} {m : Type → Type} [Monad m] [LawfulMonad m]
    {body : ℕ → σ → m σ} (x : Vector α n) (f : σ → α → m σ)
    (h : ∀ i (hi : i < n) s, body i s = f s x[i]) (s : σ) :
    forRange 0 n s body = x.toList.foldlM f s := by
  have hpart : ∀ c, c ≤ n → forCount 0 1 c s body = (x.toList.take c).foldlM f s := by
    intro c hc
    induction c with
    | zero => rfl
    | succ c ih =>
      have hlen : c < x.toList.length := by
        rw [Vector.length_toList]
        exact hc
      rw [forCount_add, ih (by omega), ← List.take_append_getElem hlen, List.foldlM_append]
      congr 1
      funext s
      simp [forCount, h c (by omega)]
  rw [forRange, Nat.sub_zero, hpart n le_rfl, List.take_of_length_le (by simp)]

/-! ### Blocks of cells -/

/-- The `k` elements of `x` from `off` on. -/
def slice (x : Vector α n) (off k : ℕ) : List α :=
  (List.range k).map fun j => cell x (off + j)

/-- `x` with the elements of `l` from `off` on. -/
def blit (x : Vector α n) (off : ℕ) (l : List α) : Vector α n :=
  Vector.ofFn fun i : Fin n =>
    if off ≤ i ∧ (i : ℕ) < off + l.length then l.getD (i - off) 0 else x.get i

theorem slice_eq_map {x : Vector α n} {off k : ℕ} {f : ℕ → α}
    (h : ∀ j, j < k → cell x (off + j) = f j) : slice x off k = (List.range k).map f :=
  List.map_congr_left fun j hj => h j (List.mem_range.mp hj)

theorem cell_blit (x : Vector α n) {off : ℕ} {l : List α} (h : off + l.length ≤ n) (i : ℕ) :
    cell (blit x off l) i =
      if off ≤ i ∧ i < off + l.length then l.getD (i - off) 0 else cell x i := by
  by_cases hi : i < n
  · rw [blit, cell_ofFn _ hi, cell_eq hi]
    rfl
  · rw [if_neg (by omega), cell, cell, dif_neg hi, dif_neg hi]

/-- **A loop over cells.** A loop whose round `k` computes cell `k` from the cells
that the rounds before it left alone computes every cell of its range. -/
theorem ends_forCells {lo hi : ℕ} {body : ℕ → Vector α n → Prog (Vector α n)} {x : Vector α n}
    (v : ℕ → α) (hle : lo ≤ hi)
    (hbody : ∀ k y, lo ≤ k → k < hi → (∀ t, t < lo ∨ k ≤ t → cell y t = cell x t) →
      Ends (body k y) fun z => cell z k = v k ∧ ∀ t, t ≠ k → cell z t = cell y t) :
    Ends (forRange lo hi x body) fun y =>
      (∀ k, lo ≤ k → k < hi → cell y k = v k) ∧
        ∀ k, k < lo ∨ hi ≤ k → cell y k = cell x k := by
  refine ends_forRange hle (fun i y => (∀ k, lo ≤ k → k < i → cell y k = v k) ∧
    ∀ k, k < lo ∨ i ≤ k → cell y k = cell x k)
    ⟨fun k h1 h2 => absurd h2 (by omega), fun _ _ => rfl⟩ ?_
  rintro i y h1 h2 ⟨hdone, htodo⟩
  refine (hbody i y h1 h2 htodo).mono fun z hz => ⟨fun k hk hki => ?_, fun k hk => ?_⟩
  · by_cases h : k = i
    · rw [h, hz.1]
    · rw [hz.2 k h, hdone k hk (by omega)]
  · rw [hz.2 k (by omega), htodo k (by omega)]

end Exec
