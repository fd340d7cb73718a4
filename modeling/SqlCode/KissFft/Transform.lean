import SqlCode.KissFft.Butterflies
import SqlCode.KissFft.Factor
import SqlCode.Dft.Circle

/-!
# `kiss_fft` is the discrete Fourier transform

A call of `kf_work` for the factors of `N` makes `p` calls for decimated samples, which leave
their transforms in blocks of `m` elements one after the other, and a butterfly that
recombines these. The calls read the samples and write different blocks, so each of them
leaves what it leaves on its own (`parts_independent`). By induction on the
factors the block holds the transform of the samples (`kfWork_spec`).
-/

namespace SqlCode.KissFft

open Exec Dft SharedMemory SharedMemory.Thread

variable {R : Type} [Field R]

/-! ### One stage -/

/-- Samples `s` elements apart. -/
def samples (f : Ptr) (s N : ℕ) : Set Loc := {l | ∃ t, t < N ∧ l = f.nth (t * s)}

/-- What the loop of `kf_work` does in its round `q`. -/
def part (st : KissFftState R) (inStride : ℕ) (factors : List (ℕ × ℕ)) (Fout f : Ptr)
    (fstride p m q : ℕ) : Thread Loc (Cplx R) Unit :=
  if m = 1 then do put (Fout.nth q) (← get (f.nth (q * (fstride * inStride))))
  else kfWork st inStride factors (Fout.add (q * m)) (f.add (q * (fstride * inStride)))
    (fstride * p)

theorem kfWork_cons (st : KissFftState R) (inStride p m : ℕ) (factors : List (ℕ × ℕ))
    (Fout f : Ptr) (fstride : ℕ) :
    kfWork st inStride ((p, m) :: factors) Fout f fstride =
      ((forRange 0 p () fun q _ => part st inStride factors Fout f fstride p m q) >>= fun _ =>
        kfBfly st Fout fstride m p) := by
  by_cases hm : m = 1
  · simp only [kfWork, part, if_pos hm]
  · simp only [kfWork, part, if_neg hm]

@[simp] theorem add_nth (p : Ptr) (i j : ℕ) : (p.add i).nth j = p.nth (i + j) := by
  simp [Ptr.add, Ptr.nth, Nat.add_assoc]

/-- The blocks of the rounds lie in the block of the call. -/
theorem block_add_subset {Fout : Ptr} {p m q : ℕ} (hq : q < p) :
    block (Fout.add (q * m)) m ⊆ block Fout (p * m) := by
  rintro l ⟨u, hu, rfl⟩
  refine ⟨q * m + u, ?_, add_nth ..⟩
  calc q * m + u < q * m + m := Nat.add_lt_add_left hu _
    _ = (q + 1) * m := by ring
    _ ≤ p * m := Nat.mul_le_mul_right m hq

/-- The rounds have different blocks. -/
theorem block_add_apart {Fout : Ptr} {m q q' : ℕ} (hne : q ≠ q') {l : Loc}
    (hl : l ∈ block (Fout.add (q * m)) m) : l ∉ block (Fout.add (q' * m)) m := by
  rintro ⟨u', hu', heq⟩
  obtain ⟨u, hu, rfl⟩ := hl
  rw [add_nth, add_nth, nth_inj] at heq
  -- both are the quotient of the offset
  have hdiv := congrArg (· / m) heq
  simp only [Nat.mul_comm _ m, Nat.mul_add_div (by omega : 0 < m), Nat.div_eq_of_lt hu,
    Nat.div_eq_of_lt hu'] at hdiv
  omega

/-- The samples of a round are samples of the call. -/
theorem samples_add_subset {f : Ptr} {s p m q : ℕ} (hq : q < p) :
    samples (f.add (q * s)) (p * s) m ⊆ samples f s (p * m) := by
  rintro l ⟨t, ht, rfl⟩
  refine ⟨p * t + q, ?_, ?_⟩
  · calc p * t + q < p * t + p := Nat.add_lt_add_left hq _
      _ = p * (t + 1) := by ring
      _ ≤ p * m := Nat.mul_le_mul_left p ht
  · rw [add_nth]
    congr 1
    ring

/-- What `kf_work` does with the factors of `N`. -/
structure Works (st : KissFftState R) (ω : Cplx R) (inStride : ℕ) (factors : List (ℕ × ℕ))
    (N : ℕ) : Prop where
  /-- It reads the table, the samples and its block, and writes its block. -/
  within : ∀ (Fout f : Ptr) (fstride : ℕ), 0 < fstride → fstride * N = st.nfft →
    (kfWork st inStride factors Fout f fstride).Within
      (table st ∪ samples f (fstride * inStride) N ∪ block Fout N) (block Fout N)
  /-- It leaves the transform of the samples in its block. -/
  leaves : ∀ (Fout f : Ptr) (fstride : ℕ) (mem : Memory Loc (Cplx R)), 0 < fstride →
    fstride * N = st.nfft → f.buf ≠ Fout.buf → TwiddlesAt ω st mem →
    ∀ k, k < N → ((kfWork st inStride factors Fout f fstride).run mem).2.val (Fout.nth k) =
      dft (ω ^ fstride) N (fun t => mem.val (f.nth (t * (fstride * inStride)))) k

section Stage

variable {st : KissFftState R} {ω : Cplx R} {inStride : ℕ} {factors : List (ℕ × ℕ)}
  {Fout f : Ptr} {fstride p m q : ℕ}

theorem part_within (hrec : m ≠ 1 → Works st ω inStride factors m) (hf : 0 < fstride)
    (hn : fstride * (p * m) = st.nfft) (hq : q < p) :
    (part st inStride factors Fout f fstride p m q).Within
      (table st ∪ samples f (fstride * inStride) (p * m) ∪ block (Fout.add (q * m)) m)
      (block (Fout.add (q * m)) m) := by
  unfold part
  split_ifs with hm
  · subst hm
    have hcell : Fout.nth q ∈ block (Fout.add (q * 1)) 1 := ⟨0, Nat.one_pos, by simp⟩
    exact (within_get (.inl (.inr ⟨q, by omega, rfl⟩))).bind fun v => within_put hcell v
  · refine ((hrec hm).within _ _ (fstride * p) (Nat.mul_pos hf (by omega)) ?_).mono ?_ subset_rfl
    · rw [← hn, mul_assoc]
    · refine Set.union_subset_union_left _ (Set.union_subset_union_right _ ?_)
      rw [mul_comm fstride p, mul_assoc p]
      exact samples_add_subset hq

/-- **The rounds are independent** if the samples lie in another buffer. -/
theorem parts_independent (hrec : m ≠ 1 → Works st ω inStride factors m) (hf : 0 < fstride)
    (hn : fstride * (p * m) = st.nfft) (hbuf : f.buf ≠ Fout.buf) :
    Independent p (part st inStride factors Fout f fstride p m)
      (fun q => table st ∪ samples f (fstride * inStride) (p * m) ∪
        block (Fout.add (q * m)) m)
      (fun q => block (Fout.add (q * m)) m) where
  within q hq := part_within hrec hf hn hq
  apart q q' _ _ hne l hl := by
    refine ⟨fun h => ?_, block_add_apart hne hl⟩
    rcases h with (h | h) | h
    · obtain ⟨u, -, rfl⟩ := hl
      exact nth_not_mem_table h
    · obtain ⟨u, -, rfl⟩ := hl
      obtain ⟨t, -, heq⟩ := h
      exact hbuf (Loc.buf.inj heq).1.symm
    · exact block_add_apart hne hl h

/-- What the loop leaves of the transforms of the decimated samples. -/
theorem part_leaves (hrec : m ≠ 1 → Works st ω inStride factors m) (hf : 0 < fstride)
    (hn : fstride * (p * m) = st.nfft) (hbuf : f.buf ≠ Fout.buf)
    {mem : Memory Loc (Cplx R)} (hmem : TwiddlesAt ω st mem) (hq : q < p) {u : ℕ}
    (hu : u < m) :
    ((part st inStride factors Fout f fstride p m q).run mem).2.val (Fout.nth (u + q * m)) =
      dft ((ω ^ fstride) ^ p) m
        (fun t => mem.val (f.nth ((p * t + q) * (fstride * inStride)))) u := by
  unfold part
  split_ifs with hm
  · subst hm
    obtain rfl : u = 0 := by omega
    rw [run_bind, run_get, run_put, dft_one]
    simp [Memory.val_write_self]
  · have hleaves := (hrec hm).leaves (Fout.add (q * m)) (f.add (q * (fstride * inStride)))
      (fstride * p) mem (Nat.mul_pos hf (by omega)) (by rw [← hn, mul_assoc]) hbuf hmem u hu
    rw [add_nth, add_comm] at hleaves
    rw [hleaves, pow_mul]
    refine dft_congr (fun t _ => ?_) u
    rw [add_nth]
    congr 2
    ring

/-- **One stage.** -/
theorem works_cons [CharZero R] (hω : Roots st.inverse ω st.nfft) (h30 : st.nfft ≤ 2 ^ 30)
    (hm : 0 < m) (hrec : m ≠ 1 → Works st ω inStride factors m) :
    Works st ω inStride ((p, m) :: factors) (p * m) where
  within Fout f fstride hf hn := by
    rw [kfWork_cons]
    refine Within.bind (within_forRange fun q _ hq => ?_) fun _ => ?_
    · exact (part_within hrec hf hn hq).mono
        (Set.union_subset_union_right _ (block_add_subset hq)) (block_add_subset hq)
    · exact (kfBfly_within hn hf hm h30).mono
        (Set.union_subset_union_left _ Set.subset_union_left) subset_rfl
  leaves Fout f fstride mem hf hn hbuf hmem k hk := by
    have hindep := parts_independent hrec hf hn hbuf
    rw [kfWork_cons, run_bind, run_forRange]
    set mem' := sequential (part st inStride factors Fout f fstride p m) mem p
    have hmem' : TwiddlesAt ω st mem' := fun i hi =>
      (hindep.val_frame mem fun q _ => by
        rintro ⟨u, -, heq⟩
        cases heq).trans (hmem i hi)
    rw [kfBfly_leaves hω hn hf hm h30 hmem' k hk]
    refine recombine_dft ?_ hm (fun q u hq hu => ?_) k
    · rw [← pow_mul, hn, hω.root.pow_eq_one]
    · have hcell : Fout.nth (u + q * m) ∈ block (Fout.add (q * m)) m :=
        ⟨u, hu, by rw [add_nth, add_comm]⟩
      rw [hindep.val_sequential hq mem hcell]
      exact part_leaves hrec hf hn hbuf hmem hq hu

/-- **`kf_work`** for the factors of a number. -/
theorem kfWork_spec [CharZero R] (hω : Roots st.inverse ω st.nfft) (h30 : st.nfft ≤ 2 ^ 30)
    {N : ℕ} (hN : 0 < N) (hchain : ChainTo N factors 1) (hne : factors ≠ []) :
    Works st ω inStride factors N := by
  induction factors generalizing N with
  | nil => exact absurd rfl hne
  | cons a factors ih =>
    obtain ⟨p, m⟩ := a
    obtain ⟨rfl, hrest⟩ := hchain
    have hm : 0 < m := Nat.pos_of_mul_pos_left hN
    refine works_cons hω h30 hm fun hm1 => ih hm hrest ?_
    rintro rfl
    exact hm1 hrest

end Stage

/-! ### Configurations -/

open Real in
/-- The root of unity of a configuration. -/
noncomputable def kissRoot (n : ℕ) (inverse : Bool) : Cplx ℝ :=
  cis (if inverse then (2 : ℕ) * π / n else -((2 : ℕ) * π / n))

theorem kissRoot_eq (n : ℕ) (inverse : Bool) :
    kissRoot n inverse = cis (if inverse then 2 * Real.pi / n else -(2 * Real.pi / n)) := by
  rw [kissRoot, Nat.cast_ofNat]

theorem kissRoot_unit (n : ℕ) (inverse : Bool) :
    kissRoot n inverse * Cplx.conj (kissRoot n inverse) = 1 := by
  rw [kissRoot_eq, conj_cis, cis_mul_neg]

theorem kissRoot_roots {n : ℕ} (hn : 0 < n) (inverse : Bool) :
    Roots inverse (kissRoot n inverse) n where
  root := by
    cases inverse
    · exact fourierRoot_cis_neg hn
    · exact fourierRoot_cis hn
  unit := kissRoot_unit n inverse
  quarter m hm := by
    have hm0 : (m : ℝ) ≠ 0 := Nat.cast_ne_zero.mpr (by omega)
    have hangle : (m : ℝ) * (2 * Real.pi / n) = Real.pi / 2 := by
      rw [← hm]
      push_cast
      field_simp
      ring
    rw [kissRoot_eq, cis_pow]
    cases inverse
    · rw [if_neg Bool.false_ne_true, if_neg Bool.false_ne_true, mul_neg, hangle]
      ext <;> simp [cis]
    · rw [if_pos rfl, if_pos rfl, hangle]
      ext <;> simp [cis]

/-- What `kiss_fft_alloc` makes at the address `st`. -/
structure Configured (addr n : ℕ) (inverse : Bool) (st : KissFftState ℝ) : Prop where
  addr_eq : st.addr = addr
  nfft_eq : st.nfft = n
  inverse_eq : st.inverse = inverse
  factors : Factorisation n st.factors
  twiddle : ∀ i, i < n → cell st.twiddles i = kissRoot n inverse ^ i

/-- **Every configuration** that fits an `int` is made. -/
theorem kissFftInit_spec (junk : ℕ → Cplx ℝ) (addr : ℕ) {n : ℕ} (hn : 0 < n) (h31 : n < 2 ^ 31)
    (inverse : Bool) :
    Ends (kissFftInit exactLibm junk addr n inverse) (Configured addr n inverse) := by
  -- the loop for the table, cell by cell, and then the factors
  refine (ends_forCells (fun i => kissRoot n inverse ^ i) (Nat.zero_le n)
    fun i y _ hi _ => ?_).bind fun twiddles htw => ?_
  · rw [wr_eq y hi]
    refine ends_pure ⟨?_, fun t ht => cell_set_ne _ _ _ ht⟩
    have hphase : twiddlePhase exactLibm n inverse i
        = i * (if inverse then 2 * Real.pi / n else -(2 * Real.pi / n)) := by
      unfold twiddlePhase
      cases inverse
      · simp only [Bool.false_eq_true, if_false, exactLibm]
        push_cast
        ring
      · simp only [if_true, exactLibm]
        push_cast
        ring
    rw [cell_set_self, hphase, kissRoot_eq, cis_pow]
    rfl
  · refine (kfFactor_spec hn h31).bind fun factors hfactors => ends_pure ?_
    exact ⟨rfl, rfl, rfl, hfactors, fun i hi => htw.1 i (Nat.zero_le i) hi⟩

/-- **Who owns the memory.** Without `lenmem` the configuration is in a fresh block, and with it
in the block `mem` if there is one and it is large enough; otherwise there is none. `*lenmem`
becomes the size needed. -/
theorem kissFftAlloc_spec (junk : ℕ → Cplx ℝ) (sizeofState sizeofCpx fresh : ℕ) {n : ℕ}
    (hn : 0 < n) (h31 : n < 2 ^ 31) (inverse : Bool) (mem lenmem : Option ℕ) :
    Ends (kissFftAlloc exactLibm junk sizeofState sizeofCpx fresh n inverse mem lenmem) fun r =>
      r.2 = lenmem.map (fun _ => memneeded sizeofState sizeofCpx n) ∧
        match lenmem, mem with
        | none, _ => ∃ st, r.1 = some st ∧ Configured fresh n inverse st
        | some _, none => r.1 = none
        | some len, some addr =>
          if memneeded sizeofState sizeofCpx n ≤ len then
            ∃ st, r.1 = some st ∧ Configured addr n inverse st
          else r.1 = none := by
  -- the contents are the same wherever the block comes from
  have hinit : ∀ addr, Ends (some <$> kissFftInit exactLibm junk addr n inverse) fun cfg =>
      ∃ st, cfg = some st ∧ Configured addr n inverse st := by
    intro addr
    exact (kissFftInit_spec junk addr hn h31 inverse).bind fun st h => ends_pure ⟨st, rfl, h⟩
  unfold kissFftAlloc
  cases lenmem with
  | none => exact (hinit fresh).bind fun cfg h => ends_pure ⟨rfl, h⟩
  | some len =>
    cases mem with
    | none => exact ends_pure ⟨rfl, rfl⟩
    | some addr =>
      by_cases hle : memneeded sizeofState sizeofCpx n ≤ len
      · simp only [hle, if_true, Option.filter, decide_true]
        exact (hinit addr).bind fun cfg h => ends_pure ⟨rfl, h⟩
      · simp only [hle, if_false, Option.filter, decide_false, Bool.false_eq_true]
        exact ends_pure ⟨rfl, rfl⟩

/-- The block of the caller is as large as it must be. -/
theorem kissFftAlloc_in_place :
    Ends (kissFftAlloc exactLibm (fun _ => 0) 272 8 5 12 true (some 0) (some 360)) fun r =>
      r.2 = some 360 ∧ ∃ st, r.1 = some st ∧ Configured 0 12 true st :=
  (kissFftAlloc_spec (fun _ => 0) 272 8 5 (by decide) (by decide) true (some 0) (some 360)).mono
    fun _ h => h

/-- The table of a configuration is in memory. -/
def Holds (st : KissFftState R) (mem : Memory Loc (Cplx R)) : Prop :=
  ∀ i : ℕ, i < st.nfft → mem.val (.twiddle st.addr i) = cell st.twiddles i

theorem Configured.twiddlesAt {addr n : ℕ} {inverse : Bool} {st : KissFftState ℝ}
    (h : Configured addr n inverse st) {mem : Memory Loc (Cplx ℝ)} (hmem : Holds st mem) :
    TwiddlesAt (kissRoot n inverse) st mem := by
  intro i hi
  rw [hmem i hi, h.twiddle i (h.nfft_eq ▸ hi)]

theorem Configured.works {addr n : ℕ} {inverse : Bool} {st : KissFftState ℝ}
    (h : Configured addr n inverse st) (hn : 0 < n) (h30 : n ≤ 2 ^ 30) (inStride : ℕ) :
    Works st (kissRoot n inverse) inStride st.factors st.nfft := by
  obtain ⟨-, rfl, rfl, hfactors, -⟩ := h
  exact kfWork_spec (kissRoot_roots hn _) h30 hn hfactors.chain hfactors.ne_nil

/-! ### The calls -/

/-- What a call may write. -/
def outputs (tmp : ℕ) (fin fout : Ptr) (n : ℕ) : Set Loc :=
  if fin = fout then block ⟨tmp, 0⟩ n ∪ block fout n else block fout n

/-- The arguments of a call: one pointer, with the temporary buffer elsewhere, or pointers
into different buffers. -/
def Apart (tmp : ℕ) (fin fout : Ptr) : Prop :=
  if fin = fout then tmp ≠ fout.buf else fin.buf ≠ fout.buf

theorem apart_of_buf_ne {tmp : ℕ} {fin fout : Ptr} (h : fin.buf ≠ fout.buf) :
    Apart tmp fin fout := by
  unfold Apart
  rw [if_neg fun heq => h (congrArg Ptr.buf heq)]
  exact h

theorem apart_self {tmp : ℕ} {fout : Ptr} (h : tmp ≠ fout.buf) : Apart tmp fout fout := by
  unfold Apart
  rw [if_pos rfl]
  exact h

theorem outputs_of_buf_ne {tmp : ℕ} {fin fout : Ptr} (h : fin.buf ≠ fout.buf) (n : ℕ) :
    outputs tmp fin fout n = block fout n := by
  unfold outputs
  rw [if_neg fun heq => h (congrArg Ptr.buf heq)]

section Copy

variable {src dst : Ptr} {N : ℕ} {mem : Memory Loc (Cplx R)}

omit [Field R] in
theorem copy_within : (forRange 0 N () fun i _ => do
      put (dst.nth i) (← get (src.nth i)) : Thread Loc (Cplx R) Unit).Within
    (block src N) (block dst N) := by
  refine within_forRange fun i _ hi => ?_
  rw [within_get_bind]
  exact ⟨⟨i, hi, rfl⟩, fun v => within_put_iff.mpr ⟨i, hi, rfl⟩⟩

omit [Field R] in
/-- `memcpy` between different buffers. -/
theorem copy_leaves (hbuf : src.buf ≠ dst.buf) :
    (forRange 0 N () fun i _ => do put (dst.nth i) (← get (src.nth i))).Leaves mem
      fun _ mem' => ∀ k, k < N → mem'.val (dst.nth k) = mem.val (src.nth k) := by
  have hne : ∀ i j, src.nth i ≠ dst.nth j := fun i j h => hbuf (Loc.buf.inj h).1
  refine (leaves_forRange (Nat.zero_le N) (fun i _ mem' =>
    (∀ k, k < i → mem'.val (dst.nth k) = mem.val (src.nth k)) ∧
      ∀ k, mem'.val (src.nth k) = mem.val (src.nth k))
    ⟨fun k hk => absurd hk (Nat.not_lt_zero k), fun _ => rfl⟩ ?_).mono fun _ _ h => h.1
  rintro i _ mem' - - ⟨hdone, hsrc⟩
  refine ⟨fun k hk => ?_, fun k => ?_⟩
  · rw [run_bind, run_get, run_put, Memory.val_write]
    split_ifs with heq
    · rw [nth_inj.mp heq, hsrc]
    · exact hdone k (lt_of_le_of_ne (Nat.le_of_lt_succ hk) fun h => heq (h ▸ rfl))
  · rw [run_bind, run_get, run_put, mem'.val_write_ne _ (hne k i), hsrc]

end Copy

section Stride

variable {st : KissFftState ℝ} {addr n inStride tmp : ℕ} {inverse : Bool} {fin fout : Ptr}
  {mem : Memory Loc (Cplx ℝ)}

/-- **`kiss_fft_stride` stays in bounds**: of the `n` samples, of the table and of what it
may write. -/
theorem kissFftStride_within (h : Configured addr n inverse st) (hn : 0 < n) (h30 : n ≤ 2 ^ 30) :
    (kissFftStride st tmp fin fout inStride).Within
      (table st ∪ samples fin inStride n ∪ outputs tmp fin fout n) (outputs tmp fin fout n) := by
  have hwork : ∀ out : Ptr, (kfWork st inStride st.factors out fin 1).Within
      (table st ∪ samples fin inStride n ∪ block out n) (block out n) := by
    intro out
    have hin := (h.works hn h30 inStride).within out fin 1 Nat.one_pos (one_mul _)
    rwa [one_mul, h.nfft_eq] at hin
  unfold kissFftStride outputs
  split_ifs with heq
  · refine Within.bind ((hwork _).mono ?_ Set.subset_union_left) fun _ => ?_
    · exact Set.union_subset_union_right _ Set.subset_union_left
    · rw [h.nfft_eq]
      exact copy_within.mono (Set.subset_union_of_subset_right Set.subset_union_left _)
        Set.subset_union_right
  · exact hwork fout

/-- **`kiss_fft_stride` is the transform** of the samples that are `inStride` elements apart. -/
theorem kissFftStride_leaves (h : Configured addr n inverse st) (hn : 0 < n) (h30 : n ≤ 2 ^ 30)
    (happart : Apart tmp fin fout) (hmem : Holds st mem) :
    (kissFftStride st tmp fin fout inStride).Leaves mem fun _ mem' => ∀ k, k < n →
      mem'.val (fout.nth k) =
        dft (kissRoot n inverse) n (fun t => mem.val (fin.nth (t * inStride))) k := by
  have hwork : ∀ out : Ptr, fin.buf ≠ out.buf →
      (kfWork st inStride st.factors out fin 1).Leaves mem fun _ mem' => ∀ k, k < n →
        mem'.val (out.nth k) =
          dft (kissRoot n inverse) n (fun t => mem.val (fin.nth (t * inStride))) k := by
    intro out hbuf k hk
    have hval := (h.works hn h30 inStride).leaves out fin 1 mem Nat.one_pos (one_mul _) hbuf
      (h.twiddlesAt hmem) k (h.nfft_eq ▸ hk)
    rwa [one_mul, h.nfft_eq, pow_one] at hval
  unfold kissFftStride
  unfold Apart at happart
  split_ifs at happart ⊢ with heq
  · subst heq
    refine (hwork ⟨tmp, 0⟩ happart.symm).bind fun _ mem' hmem' => ?_
    rw [h.nfft_eq]
    refine (copy_leaves happart).mono fun _ mem'' hcopy k hk => ?_
    rw [hcopy k hk, hmem' k hk]
  · exact hwork fout happart

end Stride

/-- **The mixed-radix transform.** For every length up to `2^30`, in either direction and with
any stride, the configuration that `kiss_fft_alloc` makes lets `kiss_fft_stride` leave the
discrete Fourier transform of the samples in the output, also in the place of the samples, and
no access is out of bounds. -/
theorem kissFftStride_spec (junk : ℕ → Cplx ℝ) (addr : ℕ) {n : ℕ} (hn : 0 < n)
    (h30 : n ≤ 2 ^ 30) (inverse : Bool) :
    Ends (kissFftInit exactLibm junk addr n inverse) fun st =>
      ∀ (tmp inStride : ℕ) (fin fout : Ptr),
        (kissFftStride st tmp fin fout inStride).Within
          (table st ∪ samples fin inStride n ∪ outputs tmp fin fout n) (outputs tmp fin fout n) ∧
        ∀ mem : Memory Loc (Cplx ℝ), Holds st mem → Apart tmp fin fout →
          (kissFftStride st tmp fin fout inStride).Leaves mem fun _ mem' => ∀ k, k < n →
            mem'.val (fout.nth k) =
              dft (kissRoot n inverse) n (fun t => mem.val (fin.nth (t * inStride))) k :=
  (kissFftInit_spec junk addr hn (by omega) inverse).mono fun _ h _ _ _ _ =>
    ⟨kissFftStride_within h hn h30, fun _ hmem happart =>
      kissFftStride_leaves h hn h30 happart hmem⟩

/-- A memory with the table of a configuration. -/
def loaded (st : KissFftState R) (x : ℕ → ℕ → Cplx R) : Memory Loc (Cplx R) where
  val
    | .twiddle _ i => cell st.twiddles i.toNat
    | .buf b i => x b i
    | _ => 0
  writes _ := 0

theorem holds_loaded (st : KissFftState R) (x : ℕ → ℕ → Cplx R) : Holds st (loaded st x) :=
  fun _ _ => rfl

/-- The transform of every fifth of the numbers from 0 on. -/
theorem kissFftStride_twelve :
    Ends (kissFftInit exactLibm (fun _ => 0) 0 12 false) fun st =>
      (kissFftStride st 3 ⟨1, 0⟩ ⟨2, 0⟩ 5).Leaves (loaded st fun _ i => i) fun _ mem' =>
        ∀ k, k < 12 → mem'.val (Ptr.nth ⟨2, 0⟩ k) =
          dft (kissRoot 12 false) 12 (fun t => ((0 + t * 5 : ℕ) : Cplx ℝ)) k :=
  (kissFftStride_spec (fun _ => 0) 0 (by decide) (by decide) false).mono fun st h =>
    (h 3 5 ⟨1, 0⟩ ⟨2, 0⟩).2 _ (holds_loaded st _) (apart_of_buf_ne (by decide))

/-! ### There and back -/

theorem kissRoot_inv (n : ℕ) : kissRoot n false * kissRoot n true = 1 := by
  rw [kissRoot_eq, kissRoot_eq, if_neg Bool.false_ne_true, if_pos rfl, mul_comm, cis_mul_neg]

omit [Field R] in
theorem table_not_mem_outputs {st : KissFftState R} {tmp n : ℕ} {fin fout : Ptr} {l : Loc}
    (hl : l ∈ table st) : l ∉ outputs tmp fin fout n := by
  obtain ⟨i, -, rfl⟩ := hl
  unfold outputs
  split_ifs <;> simp [block, Ptr.nth]

/-- A call leaves every table alone. -/
theorem Holds.kissFftStride {st st' : KissFftState ℝ} {addr n inStride tmp : ℕ} {inverse : Bool}
    {fin fout : Ptr} {mem : Memory Loc (Cplx ℝ)} (hmem : Holds st' mem)
    (h : Configured addr n inverse st) (hn : 0 < n) (h30 : n ≤ 2 ^ 30) :
    Holds st' ((KissFft.kissFftStride st tmp fin fout inStride).run mem).2 := by
  intro i hi
  rw [(kissFftStride_within h hn h30).frame mem (table_not_mem_outputs (twiddle_mem_table hi)),
    hmem i hi]

/-- **Back and forth.** The inverse transform of the transform is `nfft` times the data, for
every length and wherever the three buffers lie, provided that two of them are the same or in
different blocks of memory. -/
theorem kissFft_roundTrip (junk : ℕ → Cplx ℝ) (a b : ℕ) {n : ℕ} (hn : 0 < n) (h30 : n ≤ 2 ^ 30) :
    Ends (do
      let fwd ← kissFftInit exactLibm junk a n false
      let inv ← kissFftInit exactLibm junk b n true
      pure (fwd, inv)) fun cfg =>
      ∀ (tmp : ℕ) (x y z : Ptr) (mem : Memory Loc (Cplx ℝ)),
        Holds cfg.1 mem → Holds cfg.2 mem → Apart tmp x y → Apart tmp y z →
        (do kissFft cfg.1 tmp x y; kissFft cfg.2 tmp y z).Leaves mem fun _ mem' =>
          ∀ k, k < n → mem'.val (z.nth k) = n * mem.val (x.nth k) := by
  refine (kissFftInit_spec junk a hn (by omega) false).bind fun fwd hfwd =>
    (kissFftInit_spec junk b hn (by omega) true).bind fun inv hinv => ends_pure ?_
  intro tmp x y z mem hmem₁ hmem₂ hxy hyz
  have hfirst : (kissFft fwd tmp x y).Leaves mem fun _ mem' => ∀ k, k < n → mem'.val (y.nth k) =
      dft (kissRoot n false) n (fun t => mem.val (x.nth (t * 1))) k :=
    kissFftStride_leaves hfwd hn h30 hxy hmem₁
  -- the first transform leaves the table of the second alone
  have htable : Holds inv ((kissFft fwd tmp x y).run mem).2 := hmem₂.kissFftStride hfwd hn h30
  refine Leaves.bind (P := fun _ mem' => Holds inv mem' ∧ ∀ k, k < n → mem'.val (y.nth k) =
    dft (kissRoot n false) n (fun t => mem.val (x.nth (t * 1))) k) ⟨htable, hfirst⟩ ?_
  rintro _ mem' ⟨hmem', hy⟩
  have hsamples : ∀ t, t < n → mem'.val (y.nth (t * 1)) =
      dft (kissRoot n false) n (fun t => mem.val (x.nth (t * 1))) t := by
    intro t ht
    rw [mul_one]
    exact hy t ht
  refine (kissFftStride_leaves hinv hn h30 hyz hmem').mono fun _ mem'' hz k hk => ?_
  have hinverse := (kissRoot_roots hn false).root.dft_inv (kissRoot_inv n)
    (fun t => mem.val (x.nth (t * 1))) hk
  rw [hz k hk, dft_congr hsamples, hinverse, mul_one]

/-- Six samples, transformed in place. -/
theorem kissFft_roundTrip_in_place :
    Ends (do
      let fwd ← kissFftInit exactLibm (fun _ => 0) 0 6 false
      let inv ← kissFftInit exactLibm (fun _ => 0) 1 6 true
      pure (fwd, inv)) fun cfg =>
      ∀ mem : Memory Loc (Cplx ℝ), Holds cfg.1 mem → Holds cfg.2 mem →
        (do kissFft cfg.1 4 ⟨2, 0⟩ ⟨2, 0⟩; kissFft cfg.2 4 ⟨2, 0⟩ ⟨2, 0⟩).Leaves mem fun _ mem' =>
          ∀ k, k < 6 → mem'.val (Ptr.nth ⟨2, 0⟩ k) = (6 : ℕ) * mem.val (Ptr.nth ⟨2, 0⟩ k) :=
  (kissFft_roundTrip (fun _ => 0) 0 1 (by decide) (by decide)).mono fun _ h mem h₁ h₂ =>
    h 4 _ _ _ mem h₁ h₂ (apart_self (by decide)) (apart_self (by decide))

end SqlCode.KissFft
