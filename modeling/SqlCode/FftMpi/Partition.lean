import SqlCode.FftMpi.Exchange
import Mathlib.Data.Set.Lattice
import Mathlib.Order.CompletePartialOrder
import Mathlib.Order.Interval.Set.Basic

/-!
# The division of the points among the ranks

The ranks divide the `2 * n` points evenly, and rank 0 takes the remainder. For
every number of points and every number of ranks that the check of rank 0 lets
through, the ranges from `startPos` to `stopPos` are a partition of the points
(`partition`). The error exit of `evaluate` is for an empty range, of the
coefficients or of the points. Neither occurs in the first call, and a call on
nonempty ranges makes its own calls on nonempty ranges (`evaluate_avoids_exit`),
whatever the sizes of the arrays.
-/

namespace SqlCode.FftMpi

open Exec Dft

/-! ### The ranges -/

section Ranges

variable {size n : ℕ}

/-- The range of a rank as an interval that is open on the right: it ends where that of the
next rank begins. -/
theorem mem_range_iff (hpos : 1 ≤ size) (hsize : size ≤ 2 * n) (rank j : ℕ) :
    j ∈ Set.Icc (startPos size n rank) (stopPos size n rank) ↔
      startPos size n rank ≤ j ∧ j < startPos size n (rank + 1) := by
  rw [Set.mem_Icc, le_stopPos_iff hpos hsize, startPos_succ]

theorem startPos_lt_succ (hpos : 1 ≤ size) (hsize : size ≤ 2 * n) (rank : ℕ) :
    startPos size n rank < startPos size n (rank + 1) := by
  have hever := everageLength_pos hpos hsize
  cases rank with
  | zero =>
    rw [startPos_succ, startPos, if_pos rfl]
    omega
  | succ k =>
    rw [startPos_succ, startPos_succ, Nat.succ_mul (k + 1)]
    omega

theorem startPos_mono (hpos : 1 ≤ size) (hsize : size ≤ 2 * n) : Monotone (startPos size n) :=
  monotone_nat_of_le_succ fun rank => (startPos_lt_succ hpos hsize rank).le

/-- The last range ends with the last point. -/
theorem startPos_size (hpos : 1 ≤ size) : startPos size n size = 2 * n := by
  rw [startPos, if_neg (by omega)]
  exact parts_total size n

/-- No range is empty. -/
theorem startPos_le_stopPos (hpos : 1 ≤ size) (hsize : size ≤ 2 * n) (rank : ℕ) :
    startPos size n rank ≤ stopPos size n rank := by
  rw [le_stopPos_iff hpos hsize, ← startPos_succ]
  exact startPos_lt_succ hpos hsize rank

/-- The range of a rank other than 0, by the offset and the length that rank 0 uses. -/
theorem range_of_peer (hpos : 1 ≤ size) (hsize : size ≤ 2 * n) {r : ℕ} (hr : 1 ≤ r) :
    startPos size n r = moreLength size n + r * everageLength size n ∧
      stopPos size n r + 1 = startPos size n r + everageLength size n := by
  have hever := everageLength_pos hpos hsize
  constructor
  · rw [startPos, if_neg (by omega)]
  · rw [stopPos, if_neg (by omega)]
    omega

/-- Different ranks have disjoint ranges. -/
theorem ranges_disjoint (hpos : 1 ≤ size) (hsize : size ≤ 2 * n) {r q : ℕ} (hrq : r < q) :
    Disjoint (Set.Icc (startPos size n r) (stopPos size n r))
      (Set.Icc (startPos size n q) (stopPos size n q)) := by
  rw [Set.disjoint_left]
  intro j hr hq
  rw [mem_range_iff hpos hsize] at hr hq
  have hle : startPos size n (r + 1) ≤ startPos size n q := startPos_mono hpos hsize hrq
  omega

/-- The first `m` ranges cover the points before the range of rank `m`. -/
theorem exists_range (hpos : 1 ≤ size) (hsize : size ≤ 2 * n) {m j : ℕ}
    (hj : j < startPos size n m) :
    ∃ r < m, j ∈ Set.Icc (startPos size n r) (stopPos size n r) := by
  induction m with
  | zero => exact absurd hj (Nat.not_lt_zero j)
  | succ m ih =>
    by_cases hm : startPos size n m ≤ j
    · exact ⟨m, Nat.lt_succ_self m, (mem_range_iff hpos hsize m j).mpr ⟨hm, hj⟩⟩
    · obtain ⟨r, hr, hmem⟩ := ih (by omega)
      exact ⟨r, hr.trans (Nat.lt_succ_self m), hmem⟩

theorem ranges_cover (hpos : 1 ≤ size) (hsize : size ≤ 2 * n) :
    (⋃ r ∈ Set.Iio size, Set.Icc (startPos size n r) (stopPos size n r))
      = Set.Icc 0 (2 * n - 1) := by
  ext j
  simp only [Set.mem_iUnion, Set.mem_Iio, exists_prop]
  have hsizeEq := startPos_size (n := n) hpos
  constructor
  · rintro ⟨r, hr, hmem⟩
    have hlt := ((mem_range_iff hpos hsize r j).mp hmem).2
    have hle : startPos size n (r + 1) ≤ startPos size n size := startPos_mono hpos hsize hr
    exact ⟨Nat.zero_le j, by omega⟩
  · rintro ⟨-, hj⟩
    exact exists_range hpos hsize (by omega)

end Ranges

/-! ### The error exit -/

section ErrorExit

variable {R : Type} [CommRing R] {flen xlen ylen : ℕ}

omit [CommRing R] in
theorem shuffle_avoids_exit (junk : ℕ → Cplx R) (f : Vector (Cplx R) flen) (b e : ℕ) :
    Avoids .exit (shuffle junk f b e) := by
  have hstep : ∀ (temp : Vector (Cplx R) (2 * maxN)) (lo count : ℕ) (s : Vector (Cplx R) flen × ℕ),
      Avoids .exit (forCount lo 2 count s fun i p => do
        let f ← wr p.1 p.2 (← rd temp i)
        pure (f, p.2 + 1)) := by
    intro temp lo count s
    refine avoids_forCount fun i p => ?_
    refine (avoids_rd (by decide) temp i).bind fun v => ?_
    exact (avoids_wr (by decide) p.1 p.2 v).bind fun f => avoids_pure _
  unfold shuffle
  refine (avoids_forCount fun i temp => ?_).bind fun temp => ?_
  · exact (avoids_rd (by decide) f i).bind fun v => avoids_wr (by decide) temp i v
  refine (hstep temp _ _ _).bind fun p => ?_
  exact (hstep temp _ _ _).bind fun q => avoids_pure q.1

/-- **The error exit of `evaluate`** is out of reach from nonempty ranges, whatever the sizes of
the arrays. -/
theorem evaluate_avoids_exit (junk : ℕ → Cplx R) (f : Vector (Cplx R) flen)
    (x : Vector (Cplx R) xlen) (y : Vector (Cplx R) ylen) {b e l r : ℕ} (hbe : b ≤ e)
    (hlr : l ≤ r) : Avoids .exit (evaluate junk f b e x y l r) := by
  induction b, e, hbe using range_induction generalizing xlen ylen f x y with
  | one b =>
    refine Avoids.of_budget rfl (evaluate_single hlr) (by decide) ?_
    refine (avoids_forCount fun i y => ?_).bind fun y => avoids_pure _
    exact (avoids_rd (by decide) f b).bind fun v => avoids_wr (by decide) y i v
  | two b =>
    refine Avoids.of_budget rfl (evaluate_pair hlr) (by decide) ?_
    refine (avoids_forCount fun i y => ?_).bind fun y => avoids_pure _
    refine (avoids_rd (by decide) f (b + 1)).bind fun c => ?_
    refine (avoids_rd (by decide) x i).bind fun z => ?_
    exact (avoids_rd (by decide) f b).bind fun v => avoids_wr (by decide) y i _
  | halves b e hlong _ _ _ ih₁ ih₂ =>
    refine Avoids.of_budget rfl (evaluate_halves hlong hlr) (by decide) ?_
    unfold evaluateHalves
    refine (shuffle_avoids_exit junk f b e).bind fun f₁ => ?_
    refine (avoids_forCount fun i tempX => ?_).bind fun tempX => ?_
    · refine (avoids_rd (by decide) x i).bind fun z => ?_
      exact (avoids_rd (by decide) x i).bind fun z' => avoids_wr (by decide) tempX i _
    -- both calls are on shorter ranges, which are nonempty again
    refine (ih₁ f₁ tempX (malloc junk _)).bind ?_
    rintro ⟨f₂, y₁⟩
    refine (ih₂ f₂ tempX (malloc junk _)).bind ?_
    rintro ⟨f₃, y₂⟩
    refine (avoids_forCount fun i y => ?_).bind fun y => avoids_pure _
    refine (avoids_rd (by decide) x i).bind fun z => ?_
    refine (avoids_rd (by decide) y₂ i).bind fun v₂ => ?_
    exact (avoids_rd (by decide) y₁ i).bind fun v₁ => avoids_wr (by decide) y i _

end ErrorExit

variable {R : Type} [Field R]

/-- What rank 0 receives from rank `r` goes where rank `r` has it. -/
theorem slice_transfer {size n len r : ℕ} (hpos : 1 ≤ size) (hsize : size ≤ 2 * n) (hr : 1 ≤ r)
    (hrs : r < size) (hlen : 2 * n ≤ len) (s s' : Vector (Cplx R) len) :
    ∃ s'', recvBlock s' (moreLength size n + r * everageLength size n) (everageLength size n)
        (.doubles (slice s (startPos size n r) (everageLength size n))) = some s'' ∧
      ∀ i, cell s'' i =
        if startPos size n r ≤ i ∧ i ≤ stopPos size n r then cell s i else cell s' i := by
  obtain ⟨hstart, hstop⟩ := range_of_peer hpos hsize hr
  have hpart := @part_le size n r hrs
  obtain ⟨s'', hs'', hcell⟩ := recvBlock_map s'
    (fun j => cell s (startPos size n r + j)) (hpart.trans hlen)
  refine ⟨s'', hs'', fun i => ?_⟩
  rw [hcell, ← hstart]
  by_cases hi : startPos size n r ≤ i ∧ i ≤ stopPos size n r
  · rw [if_pos hi, if_pos (by omega), Nat.add_sub_cancel' hi.1]
  · rw [if_neg hi, if_neg (by omega)]

/-- The computation of a rank does not reach the error exit. -/
theorem compute_avoids_exit (M : Libm R) (J : Job R) (hpos : 1 ≤ J.size) {rank : ℕ} {st : Rank R}
    (hsize : J.size ≤ 2 * st.variableNum) : Avoids .exit (compute M J rank st) := by
  unfold compute
  refine (avoids_forCount fun i w => avoids_wr (by decide) w i _).bind fun w => ?_
  refine (evaluate_avoids_exit (J.junk rank) st.p w st.s (Nat.zero_le _)
    (startPos_le_stopPos hpos hsize rank)).bind fun p => ?_
  exact avoids_pure _

/-- **The division of the work.** For every number of coefficients and every number of ranks up
to twice that number, the ranges of the ranks are a partition of the points, `evaluate` does not
reach its error exit on them, and rank 0 receives the part of a rank at the place it is sent
from. -/
theorem partition {size n : ℕ} (hpos : 1 ≤ size) (hsize : size ≤ 2 * n) :
    (∀ r, r < size → startPos size n r ≤ stopPos size n r) ∧
    (∀ r q, r < size → q < size → r ≠ q →
      Disjoint (Set.Icc (startPos size n r) (stopPos size n r))
        (Set.Icc (startPos size n q) (stopPos size n q))) ∧
    (⋃ r ∈ Set.Iio size, Set.Icc (startPos size n r) (stopPos size n r))
      = Set.Icc 0 (2 * n - 1) ∧
    (∀ r, r < size → ∀ (flen len : ℕ) (junk : ℕ → Cplx R) (f : Vector (Cplx R) flen)
      (x y : Vector (Cplx R) len),
      Avoids .exit (evaluate junk f 0 (n - 1) x y (startPos size n r) (stopPos size n r))) ∧
    (∀ (M : Libm R) (J : Job R) (r : ℕ) (st : Rank R), J.size = size → r < size →
      st.variableNum = n → Avoids .exit (compute M J r st)) ∧
    ∀ r, 1 ≤ r → r < size →
      startPos size n r = moreLength size n + r * everageLength size n ∧
      stopPos size n r + 1 = startPos size n r + everageLength size n ∧
      ∀ len, 2 * n ≤ len → ∀ s s' : Vector (Cplx R) len,
        ∃ s'', recvBlock s' (moreLength size n + r * everageLength size n) (everageLength size n)
            (.doubles (slice s (startPos size n r) (everageLength size n))) = some s'' ∧
          ∀ i, cell s'' i =
            if startPos size n r ≤ i ∧ i ≤ stopPos size n r then cell s i else cell s' i := by
  refine ⟨?nonempty, ?disjoint, ranges_cover hpos hsize, ?evaluate, ?compute, ?slices⟩
  case nonempty => exact fun r _ => startPos_le_stopPos hpos hsize r
  case disjoint =>
    intro r q _ _ hrq
    rcases Nat.lt_or_gt_of_ne hrq with h | h
    · exact ranges_disjoint hpos hsize h
    · exact (ranges_disjoint hpos hsize h).symm
  case evaluate =>
    intro r _ flen len junk f x y
    exact evaluate_avoids_exit junk f x y (Nat.zero_le _) (startPos_le_stopPos hpos hsize r)
  case compute =>
    rintro M J r st rfl - rfl
    exact compute_avoids_exit M J hpos hsize
  case slices =>
    intro r hr hrs
    obtain ⟨hstart, hstop⟩ := range_of_peer hpos hsize hr
    exact ⟨hstart, hstop, fun len hlen s s' => slice_transfer hpos hsize hr hrs hlen s s'⟩

/-- Eight points among three ranks, with a remainder of two for rank 0. -/
theorem partition_three_ranks :
    (∀ r, r < 3 → startPos 3 4 r ≤ stopPos 3 4 r) ∧
    (∀ r q, r < 3 → q < 3 → r ≠ q →
      Disjoint (Set.Icc (startPos 3 4 r) (stopPos 3 4 r))
        (Set.Icc (startPos 3 4 q) (stopPos 3 4 q))) ∧
    (⋃ r ∈ Set.Iio 3, Set.Icc (startPos 3 4 r) (stopPos 3 4 r)) = Set.Icc 0 7 ∧
    ∀ (junk : ℕ → Cplx ℚ) (f : Vector (Cplx ℚ) 4) (x y : Vector (Cplx ℚ) 8),
      Avoids .exit (evaluate junk f 0 3 x y (startPos 3 4 2) (stopPos 3 4 2)) := by
  obtain ⟨hle, hdisj, hcover, heval, -⟩ := @partition ℚ _ 3 4 (by decide)
    (by decide)
  exact ⟨hle, hdisj, hcover, heval 2 (by decide) 4 8⟩

end SqlCode.FftMpi
