import Mathlib.NumberTheory.LucasLehmer
import SqlCode.KissFft.Transform

/-!
# `kf_work` compiled with OpenMP

With OpenMP the call of `kf_work` that `kiss_fft_stride` makes runs its `p` work units in
different threads if `p` is at most 5. The calls they make have a larger `fstride` and so
are the plain ones.

The units are the rounds of the plain loop, which are independent. So every
interleaving of their accesses leaves what the plain call leaves
(`ompWork_iff`), if the units are what the plain loop would run: the parallel branch leaves out
the test for `m == 1`. For the lengths up to 5, where `m` is 1, the units read
factors that were never written (`ompReadsJunk_iff`).

The second part is about the general butterfly. Its `int` index of the table overflows
when two indices together reach `2^31`, as they do for every prime above `2^30`
(`kfWork_overflows`).
-/

namespace SqlCode.KissFft

open Exec Dft SharedMemory SharedMemory.Thread

section Model

variable {R : Type} [Field R]

/-- A work unit of the parallel loop. -/
def workUnit (st : KissFftState R) (inStride : ℕ) (factors : List (ℕ × ℕ)) (Fout f : Ptr)
    (fstride p m k : ℕ) : Thread Loc (Cplx R) Unit :=
  kfWork st inStride factors (Fout.add (k * m)) (f.add (fstride * inStride * k)) (fstride * p)

/-- `kf_work` as compiled with OpenMP, with `fstride = 1`: from one memory to another. -/
inductive OmpWork (st : KissFftState R) (inStride : ℕ) (Fout f : Ptr) :
    Memory Loc (Cplx R) → Memory Loc (Cplx R) → Prop
  /-- The work units in any interleaving, and the butterfly when all of them are done. -/
  | parallel {p m : ℕ} {factors : List (ℕ × ℕ)} {mem : Memory Loc (Cplx R)}
      {q : Pool Loc (Cplx R)} (hfactors : st.factors = (p, m) :: factors) (hp : p ≤ 5)
      (hrun : Reaches p ⟨workUnit st inStride factors Fout f 1 p m, mem⟩ q)
      (hq : q.Finished p) :
      OmpWork st inStride Fout f mem ((kfBfly st Fout 1 m p).run q.mem).2
  | plain {p m : ℕ} {factors : List (ℕ × ℕ)} {mem : Memory Loc (Cplx R)}
      (hfactors : st.factors = (p, m) :: factors) (hp : 5 < p) :
      OmpWork st inStride Fout f mem ((kfWork st inStride st.factors Fout f 1).run mem).2

/-- A work unit that the call runs reads a factor that was never written. -/
def OmpReadsJunk (st : KissFftState R) (inStride : ℕ) (Fout f : Ptr)
    (mem : Memory Loc (Cplx R)) : Prop :=
  ∃ p m factors k, st.factors = (p, m) :: factors ∧ p ≤ 5 ∧ k < p ∧
    (workUnit st inStride factors Fout f 1 p m k).Touches mem (.factor st.addr)

/-- Where the plain loop calls itself, its rounds are the work units. -/
theorem workUnit_eq_part {st : KissFftState R} {inStride p m : ℕ} {factors : List (ℕ × ℕ)}
    {Fout f : Ptr} {fstride : ℕ} (hm : m ≠ 1) :
    workUnit st inStride factors Fout f fstride p m =
      part st inStride factors Fout f fstride p m := by
  funext k
  rw [workUnit, part, if_neg hm, mul_comm k (fstride * inStride)]

end Model

section Schedule

variable {st : KissFftState ℝ} {addr n inStride : ℕ} {inverse : Bool} {Fout f : Ptr}
  {mem mem' : Memory Loc (Cplx ℝ)}

/-- What the first pair of a configuration leaves to the units. -/
theorem Configured.rest {p m : ℕ} {factors : List (ℕ × ℕ)} (h : Configured addr n inverse st)
    (hn : 0 < n) (h30 : n ≤ 2 ^ 30) (hfactors : st.factors = (p, m) :: factors)
    (inStride : ℕ) :
    p * m = n ∧ (m ≠ 1 → Works st (kissRoot n inverse) inStride factors m) := by
  have hchain := h.factors.chain
  rw [hfactors] at hchain
  refine ⟨hchain.1, fun hm => ?_⟩
  have hroots : Roots st.inverse (kissRoot n inverse) st.nfft := by
    rw [h.inverse_eq, h.nfft_eq]
    exact kissRoot_roots hn inverse
  refine kfWork_spec hroots (h.nfft_eq ▸ h30) (Nat.pos_of_mul_pos_left (hchain.1 ▸ hn)) hchain.2 ?_
  rintro rfl
  exact hm hchain.2

/-- The call with a first factor of at most 5: some interleaving of the units ran to its end. -/
theorem ompWork_parallel_iff {p m : ℕ} {factors : List (ℕ × ℕ)}
    (hfactors : st.factors = (p, m) :: factors) (hp : p ≤ 5) :
    OmpWork st inStride Fout f mem mem' ↔
      ∃ q, Reaches p ⟨workUnit st inStride factors Fout f 1 p m, mem⟩ q ∧ q.Finished p ∧
        mem' = ((kfBfly st Fout 1 m p).run q.mem).2 := by
  constructor
  · intro homp
    cases homp with
    | parallel hfactors' hp' hrun hq =>
      obtain ⟨⟨rfl, rfl⟩, rfl⟩ := by simpa [hfactors] using hfactors'
      exact ⟨_, hrun, hq, rfl⟩
    | plain hfactors' hp' =>
      obtain ⟨⟨rfl, rfl⟩, rfl⟩ := by simpa [hfactors] using hfactors'
      omega
  · rintro ⟨q, hrun, hq, rfl⟩
    exact .parallel hfactors hp hrun hq

/-- The call with a larger first factor. -/
theorem ompWork_plain_iff {p m : ℕ} {factors : List (ℕ × ℕ)}
    (hfactors : st.factors = (p, m) :: factors) (hp : 5 < p) :
    OmpWork st inStride Fout f mem mem' ↔
      mem' = ((kfWork st inStride st.factors Fout f 1).run mem).2 := by
  constructor
  · intro homp
    cases homp with
    | parallel hfactors' hp' hrun hq =>
      obtain ⟨⟨rfl, rfl⟩, rfl⟩ := by simpa [hfactors] using hfactors'
      omega
    | plain hfactors' hp' => rfl
  · rintro rfl
    exact .plain hfactors hp

/-- **Schedule independence.** For every length above 5 and every interleaving, the call leaves
what the plain one leaves; and there is an interleaving that runs to the end. -/
theorem ompWork_iff (h : Configured addr n inverse st) (h5 : 5 < n) (h30 : n ≤ 2 ^ 30)
    (hbuf : f.buf ≠ Fout.buf) :
    OmpWork st inStride Fout f mem mem' ↔
      mem' = ((kfWork st inStride st.factors Fout f 1).run mem).2 := by
  obtain ⟨⟨p, m⟩, factors, hfactors⟩ := List.exists_cons_of_ne_nil h.factors.ne_nil
  obtain ⟨hpm, hrec⟩ := h.rest (by omega) h30 hfactors inStride
  by_cases hp : p ≤ 5
  · have hm : m ≠ 1 := by
      rintro rfl
      omega
    -- the parallel branch; its units are the rounds of the plain loop, since `m` is not 1
    have hindep := parts_independent hrec Nat.one_pos
      (by rw [hpm, h.nfft_eq, one_mul]) hbuf
    have hplain : ((kfWork st inStride st.factors Fout f 1).run mem).2 =
        ((kfBfly st Fout 1 m p).run
          (sequential (part st inStride factors Fout f 1 p m) mem p)).2 := by
      rw [hfactors, kfWork_cons, run_bind, run_forRange]
    rw [ompWork_parallel_iff hfactors hp, hplain, workUnit_eq_part hm]
    constructor
    · rintro ⟨q, hrun, hq, rfl⟩
      rw [interleaving_eq_sequential hindep hrun hq]
    -- the sequential order is one of the interleavings
    · rintro rfl
      obtain ⟨q, hrun, hq, hmem⟩ :=
        reaches_sequential p ⟨part st inStride factors Fout f 1 p m, mem⟩
      exact ⟨q, hrun, hq, by rw [hmem]⟩
  · exact ompWork_plain_iff hfactors (by omega)

/-- Three work units, for every fourth sample of twelve. -/
theorem ompWork_twelve : ∃ st : KissFftState ℝ, Configured 0 12 false st ∧ ∀ mem mem',
    OmpWork st 1 ⟨2, 0⟩ ⟨1, 0⟩ mem mem' ↔
      mem' = ((kfWork st 1 st.factors ⟨2, 0⟩ ⟨1, 0⟩ 1).run mem).2 := by
  obtain ⟨st, -, h⟩ := kissFftInit_spec (fun _ => 0) 0 (by decide : 0 < 12) (by decide) false
  exact ⟨st, h, fun _ _ => ompWork_iff h (by decide) (by decide) (by decide)⟩

/-- The plain call reads written factors only. -/
theorem kfWork_not_touches_factor (h : Configured addr n inverse st) (hn : 0 < n)
    (h30 : n ≤ 2 ^ 30) :
    ¬ (kfWork st inStride st.factors Fout f 1).Touches mem (.factor st.addr) := by
  intro htouch
  have hin := ((h.works hn h30 inStride).within Fout f 1 Nat.one_pos (one_mul _)).touches htouch
  simp [table, samples, block, Ptr.nth] at hin

/-- **The lengths from 1 to 5** are those for which the parallel branch reads factors that were
never written. -/
theorem ompReadsJunk_iff (h : Configured addr n inverse st) (hn : 0 < n) (h30 : n ≤ 2 ^ 30) :
    OmpReadsJunk st inStride Fout f mem ↔ n ≤ 5 := by
  constructor
  · rintro ⟨p, m, factors, k, hfactors, hp, hk, htouch⟩
    by_contra hn5
    obtain ⟨hpm, hrec⟩ := h.rest hn h30 hfactors inStride
    have hm : m ≠ 1 := by
      rintro rfl
      omega
    rw [workUnit_eq_part hm] at htouch
    have hin := (part_within hrec Nat.one_pos (by rw [hpm, h.nfft_eq, one_mul]) hk).touches htouch
    simp [table, samples, block, Ptr.nth, Ptr.add] at hin
  · intro hn5
    have hprime : n = 1 ∨ n = 4 ∨ n.Prime := by
      rcases (by omega : n = 1 ∨ n = 2 ∨ n = 3 ∨ n = 4 ∨ n = 5) with rfl | rfl | rfl | rfl | rfl
      · exact .inl rfl
      · exact .inr (.inr Nat.prime_two)
      · exact .inr (.inr Nat.prime_three)
      · exact .inr (.inl rfl)
      · exact .inr (.inr Nat.prime_five)
    -- there is one pair, and the units are called for those after it
    exact ⟨n, 1, [], 0, h.factors.eq_singleton hprime, hn5, hn, .inl rfl⟩

/-- One such length. -/
theorem ompReadsJunk_three : ∃ st : KissFftState ℝ, Configured 0 3 false st ∧ ∀ mem,
    OmpReadsJunk st 1 ⟨2, 0⟩ ⟨1, 0⟩ mem := by
  obtain ⟨st, -, h⟩ := kissFftInit_spec (fun _ => 0) 0 (by decide : 0 < 3) (by decide) false
  exact ⟨st, h, fun _ => (ompReadsJunk_iff h (by decide) (by decide)).mpr (by decide)⟩

end Schedule

/-! ### The index of the general butterfly -/

section Overflow

variable {R : Type} [Field R] {st : KissFftState R} {Fout : Ptr} {mem : Memory Loc (Cplx R)}

/-- Two indices of `2^30` make a negative one. -/
theorem advance_overflow {n : ℕ} (hn : 2 ^ 30 < n) :
    advance n 1 (2 ^ 30) (advance n 1 (2 ^ 30) 0) = -2 ^ 31 := by
  have hfirst : advance n 1 (2 ^ 30) 0 = 2 ^ 30 := by
    unfold advance
    rw [show toInt (0 + (1 : ℕ) * (2 ^ 30 : ℕ)) = 2 ^ 30 by decide, if_neg (by omega)]
  rw [hfirst]
  unfold advance
  rw [show toInt (2 ^ 30 + (1 : ℕ) * (2 ^ 30 : ℕ)) = -2 ^ 31 by decide, if_neg (by omega)]

theorem genericAt_overflows (hn : 2 ^ 30 < st.nfft) {p : ℕ} (hp : 2 < p)
    (scratch : List (Cplx R)) :
    (genericAt st scratch Fout 1 p (2 ^ 30)).Touches mem (.twiddle st.addr (-2 ^ 31)) := by
  refine Touches.bind_right (Touches.bind_left ?_)
  -- round 2 is the first one with a sum of two indices
  refine touches_forRange (by decide : 1 ≤ 2) hp
    (fun q twidx _ => twidx = if q = 1 then 0 else advance st.nfft 1 (2 ^ 30) 0) rfl ?_ ?_
  · rintro q twidx mem' hq hq2 rfl
    obtain rfl : q = 1 := by omega
    simp only [Leaves, run_bind, run_get, run_put]
    rfl
  · rintro twidx mem' rfl
    rw [if_neg (by decide), advance_overflow hn]
    exact (touches_get _ _).bind_left

/-- **Beyond `2^30`.** For a prime length above it the butterfly reads in front of the table,
whatever is in memory. -/
theorem kfWork_overflows {addr n : ℕ} {inverse : Bool} {st : KissFftState ℝ}
    (h : Configured addr n inverse st) (hprime : n.Prime) (hn : 2 ^ 30 < n) (inStride : ℕ)
    (Fout f : Ptr) (mem : Memory Loc (Cplx ℝ)) :
    (kfWork st inStride st.factors Fout f 1).Touches mem (.twiddle addr (-2 ^ 31)) := by
  have hgeneric : kfBfly st Fout 1 1 n = kfBflyGeneric st Fout 1 1 n := by
    unfold kfBfly
    split <;> first | omega | rfl
  rw [h.factors.eq_singleton (.inr (.inr hprime)), kfWork_cons, hgeneric]
  refine Touches.bind_right ?_
  refine touches_forRange le_rfl Nat.one_pos (fun _ _ _ => True) trivial (by omega)
    fun _ mem' _ => ?_
  refine Touches.bind_right ?_
  refine touches_forRange (Nat.zero_le (2 ^ 30)) hn (fun _ _ _ => True) trivial
    (fun _ _ _ _ _ _ => trivial) fun _ mem'' _ => ?_
  rw [← h.addr_eq]
  have hlt : 2 ^ 30 < st.nfft := h.nfft_eq ▸ hn
  exact genericAt_overflows hlt (by omega) _

/-- The largest `int` is such a prime. -/
theorem kfWork_overflows_mersenne : ∃ st : KissFftState ℝ, Configured 0 2147483647 false st ∧
    ∀ mem, (kfWork st 1 st.factors ⟨2, 0⟩ ⟨1, 0⟩ 1).Touches mem (.twiddle 0 (-2 ^ 31)) := by
  obtain ⟨st, -, h⟩ := kissFftInit_spec (fun _ => 0) 0 (by norm_num : 0 < 2147483647)
    (by norm_num) false
  have hprime : (2147483647 : ℕ).Prime := by
    simpa [mersenne] using lucas_lehmer_sufficiency 31 (by norm_num) (by norm_num)
  exact ⟨st, h, kfWork_overflows h hprime (by norm_num) 1 ⟨2, 0⟩ ⟨1, 0⟩⟩

end Overflow

end SqlCode.KissFft
