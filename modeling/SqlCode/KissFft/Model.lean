import SqlCode.Exec.Cells
import SqlCode.Exec.Int32
import SqlCode.Dft.Libm
import SqlCode.Process.SharedMemory
import Mathlib.Data.Nat.Sqrt

/-!
# The mixed-radix FFT

`kiss_fft.c`, `kiss_fftr.c` and the macros of `_kiss_fft_guts.h`, statement by statement, as
compiled without `FIXED_POINT` and `USE_SIMD`; there `C_FIXDIV` does nothing.

The functions that change buffers are threads of a shared memory: a `kiss_fft_cpx *` is a
buffer and an offset, and each read or write of a complex number is one access. That lets
pointers alias as they may in the source, and lets the calls that OpenMP runs side by side
be interleaved. The functions that only compute a configuration are programs with checked
arrays.

Scalars are read as elements of a field with the functions of `Libm`. The `int` counters
are natural numbers but for three of them: `twidx`, which is converted back to `int` after
a sum of type `size_t`, the product in the size of a configuration for real samples, and the
`n` that `kiss_fft_next_fast_size` counts up. The loops `do … while (--m)` run `m` times, `m`
being at least 1 in every entry of a factorisation.
-/

namespace SqlCode.KissFft

open Exec Dft SharedMemory SharedMemory.Thread

/-! ### Memory and configurations -/

/-- What the functions read and write: `st->twiddles` and the entries of `st->factors` that
were never written, for the configuration `st`, the twiddle factors that a real transform
has of its own, and the complex numbers in the buffers. -/
inductive Loc
  | twiddle (st : ℕ) (i : ℤ)
  | factor (st : ℕ)
  | superTwiddle (st i : ℕ)
  | buf (b i : ℕ)
  deriving DecidableEq

/-- A pointer into a buffer. -/
structure Ptr where
  /-- The buffer. -/
  buf : ℕ
  /-- The offset in it. -/
  off : ℕ
  deriving DecidableEq

/-- `p + i`. -/
def Ptr.add (p : Ptr) (i : ℕ) : Ptr := ⟨p.buf, p.off + i⟩

/-- `p[i]`. -/
def Ptr.nth (p : Ptr) (i : ℕ) : Loc := .buf p.buf (p.off + i)

/-- `MAXFACTORS`. -/
def MAXFACTORS : ℕ := 32

/-- `kiss_fft_state`, with its address. Of the array `factors` the list has the pairs that
are written. -/
structure KissFftState (R : Type) where
  addr : ℕ
  nfft : ℕ
  inverse : Bool
  factors : List (ℕ × ℕ)
  twiddles : Vector (Cplx R) nfft

/-! ### Factors -/

/-- The `switch` of `kf_factor`. -/
def nextRadix (p : ℕ) : ℕ :=
  match p with
  | 4 => 2
  | 2 => 3
  | p => p + 2

/-- The inner loop of `kf_factor`. -/
def seekRadix (floorSqrt n p : ℕ) : Prog ℕ :=
  whileLoop (fun p => n % p != 0)
    (fun p =>
      let p := nextRadix p
      -- no more factors, skip to end
      pure (if floorSqrt < p then n else p)) p

/-- `*facbuf++ = p; *facbuf++ = n`, for an array of `2 * MAXFACTORS` entries. -/
def pushFactor (facbuf : List (ℕ × ℕ)) (p n : ℕ) : Prog (List (ℕ × ℕ)) :=
  if facbuf.length < MAXFACTORS then pure (facbuf ++ [(p, n)]) else throw .outOfBounds

/-- The variables of `kf_factor`. -/
structure Factoring where
  n : ℕ
  p : ℕ
  facbuf : List (ℕ × ℕ)

/-- The body of the outer loop of `kf_factor`. -/
def factorRound (floorSqrt : ℕ) (s : Factoring) : Prog Factoring := do
  let p ← seekRadix floorSqrt s.n s.p
  let n := s.n / p
  let facbuf ← pushFactor s.facbuf p n
  pure ⟨n, p, facbuf⟩

/-- `kf_factor`. The square root of an `int` as a `double` has the integer part it should. -/
def kfFactor (n : ℕ) : Prog (List (ℕ × ℕ)) := do
  let floorSqrt := n.sqrt
  let s ← factorRound floorSqrt ⟨n, 4, []⟩
  let s ← whileLoop (fun s : Factoring => decide (1 < s.n)) (factorRound floorSqrt) s
  pure s.facbuf

/-- `while ((m % d) == 0) m /= d`. -/
def divideOut (d m : ℤ) : Prog ℤ :=
  whileLoop (fun m : ℤ => m.tmod d == 0) (fun m => pure (m.tdiv d)) m

/-- What is left of `n` without its factors 2, 3 and 5. -/
def slowPart (n : ℤ) : Prog ℤ := do
  let m ← divideOut 2 n
  let m ← divideOut 3 m
  divideOut 5 m

/-- `kiss_fft_next_fast_size`. The state of the loop is `n` and the test for its `break`. -/
def kissFftNextFastSize (n : ℤ) : Prog ℤ := do
  let (n, _) ← whileLoop (fun s : ℤ × Bool => !s.2) (fun s => do
    let m ← slowPart s.1
    if m ≤ 1 then pure (s.1, true)
    else
      let n ← checkedInt (s.1 + 1)
      pure (n, false)) (n, false)
  pure n

/-! ### Allocation -/

variable {R : Type} [Field R]

/-- `kf_cexp`. -/
def kfCexp (M : Libm R) (phase : R) : Cplx R :=
  ⟨M.cos phase, M.sin phase⟩

/-- The phase of `st->twiddles[i]`. -/
def twiddlePhase (M : Libm R) (nfft : ℕ) (inverse : Bool) (i : ℕ) : R :=
  let phase := -(2 : ℕ) * M.pi * i / nfft
  if inverse then phase * -1 else phase

/-- What `kiss_fft_alloc` stores in a fresh `st`. -/
def kissFftInit (M : Libm R) (junk : ℕ → Cplx R) (st nfft : ℕ) (inverse : Bool) :
    Prog (KissFftState R) := do
  let twiddles ← forRange 0 nfft (malloc junk nfft) fun i twiddles => do
    wr twiddles i (kfCexp M (twiddlePhase M nfft inverse i))
  let factors ← kfFactor nfft
  pure ⟨st, nfft, inverse, factors, twiddles⟩

/-- `memneeded`, given the two sizes, for a positive length. -/
def memneeded (sizeofState sizeofCpx nfft : ℕ) : ℕ :=
  sizeofState + sizeofCpx * (nfft - 1)

/-- `kiss_fft_alloc`. Its results are the configuration, unless that is `NULL`, and
`*lenmem`. `fresh` is what `malloc` returns, which is read as always succeeding, and `mem`
is `none` for `NULL`. -/
def kissFftAlloc (M : Libm R) (junk : ℕ → Cplx R) (sizeofState sizeofCpx fresh nfft : ℕ)
    (inverse : Bool) (mem lenmem : Option ℕ) : Prog (Option (KissFftState R) × Option ℕ) := do
  let need := memneeded sizeofState sizeofCpx nfft
  let st := match lenmem with
    | none => some fresh
    | some len => mem.filter fun _ => need ≤ len
  let cfg ← match st with
    | none => pure none
    | some st => some <$> kissFftInit M junk st nfft inverse
  pure (cfg, lenmem.map fun _ => need)

/-! ### Complex arithmetic -/

/-- `C_MUL`. -/
def cMul (a b : Cplx R) : Cplx R :=
  ⟨a.real * b.real - a.imag * b.imag, a.real * b.imag + a.imag * b.real⟩

/-- `C_ADD` and `C_ADDTO`. -/
def cAdd (a b : Cplx R) : Cplx R :=
  ⟨a.real + b.real, a.imag + b.imag⟩

/-- `C_SUB`. -/
def cSub (a b : Cplx R) : Cplx R :=
  ⟨a.real - b.real, a.imag - b.imag⟩

/-- `C_MULBYSCALAR`. -/
def cMulByScalar (c : Cplx R) (s : R) : Cplx R :=
  ⟨c.real * s, c.imag * s⟩

/-- `HALF_OF`. -/
def halfOf (x : R) : R :=
  x * (1 / (2 : ℕ))

/-! ### Butterflies -/

/-- The body of the loop of `kf_bfly2`. -/
def bfly2At (st : KissFftState R) (Fout : Ptr) (fstride m u : ℕ) : Thread Loc (Cplx R) Unit := do
  let t := cMul (← get (Fout.nth (u + m))) (← get (.twiddle st.addr (u * fstride : ℕ)))
  put (Fout.nth (u + m)) (cSub (← get (Fout.nth u)) t)
  put (Fout.nth u) (cAdd (← get (Fout.nth u)) t)

/-- `kf_bfly2`. -/
def kfBfly2 (st : KissFftState R) (Fout : Ptr) (fstride m : ℕ) : Thread Loc (Cplx R) Unit :=
  forRange 0 m () fun u _ => bfly2At st Fout fstride m u

/-- The body of the loop of `kf_bfly4`. -/
def bfly4At (st : KissFftState R) (Fout : Ptr) (fstride m u : ℕ) : Thread Loc (Cplx R) Unit := do
  let scratch0 := cMul (← get (Fout.nth (u + m))) (← get (.twiddle st.addr (u * fstride : ℕ)))
  let scratch1 := cMul (← get (Fout.nth (u + 2 * m)))
    (← get (.twiddle st.addr (u * (fstride * 2) : ℕ)))
  let scratch2 := cMul (← get (Fout.nth (u + 3 * m)))
    (← get (.twiddle st.addr (u * (fstride * 3) : ℕ)))
  let scratch5 := cSub (← get (Fout.nth u)) scratch1
  put (Fout.nth u) (cAdd (← get (Fout.nth u)) scratch1)
  let scratch3 := cAdd scratch0 scratch2
  let scratch4 := cSub scratch0 scratch2
  put (Fout.nth (u + 2 * m)) (cSub (← get (Fout.nth u)) scratch3)
  put (Fout.nth u) (cAdd (← get (Fout.nth u)) scratch3)
  if st.inverse then
    put (Fout.nth (u + m)) ⟨scratch5.real - scratch4.imag, scratch5.imag + scratch4.real⟩
    put (Fout.nth (u + 3 * m)) ⟨scratch5.real + scratch4.imag, scratch5.imag - scratch4.real⟩
  else
    put (Fout.nth (u + m)) ⟨scratch5.real + scratch4.imag, scratch5.imag - scratch4.real⟩
    put (Fout.nth (u + 3 * m)) ⟨scratch5.real - scratch4.imag, scratch5.imag + scratch4.real⟩

/-- `kf_bfly4`. -/
def kfBfly4 (st : KissFftState R) (Fout : Ptr) (fstride m : ℕ) : Thread Loc (Cplx R) Unit :=
  forRange 0 m () fun u _ => bfly4At st Fout fstride m u

/-- The body of the loop of `kf_bfly3`. -/
def bfly3At (st : KissFftState R) (epi3 : Cplx R) (Fout : Ptr) (fstride m u : ℕ) :
    Thread Loc (Cplx R) Unit := do
  let scratch1 := cMul (← get (Fout.nth (u + m))) (← get (.twiddle st.addr (u * fstride : ℕ)))
  let scratch2 := cMul (← get (Fout.nth (u + 2 * m)))
    (← get (.twiddle st.addr (u * (fstride * 2) : ℕ)))
  let scratch3 := cAdd scratch1 scratch2
  let scratch0 := cSub scratch1 scratch2
  let a ← get (Fout.nth u)
  put (Fout.nth (u + m)) ⟨a.real - halfOf scratch3.real, a.imag - halfOf scratch3.imag⟩
  let scratch0 := cMulByScalar scratch0 epi3.imag
  put (Fout.nth u) (cAdd (← get (Fout.nth u)) scratch3)
  let b ← get (Fout.nth (u + m))
  put (Fout.nth (u + 2 * m)) ⟨b.real + scratch0.imag, b.imag - scratch0.real⟩
  let b ← get (Fout.nth (u + m))
  put (Fout.nth (u + m)) ⟨b.real - scratch0.imag, b.imag + scratch0.real⟩

/-- `kf_bfly3`. -/
def kfBfly3 (st : KissFftState R) (Fout : Ptr) (fstride m : ℕ) : Thread Loc (Cplx R) Unit := do
  let epi3 ← get (.twiddle st.addr (fstride * m : ℕ))
  forRange 0 m () fun u _ => bfly3At st epi3 Fout fstride m u

/-- The body of the loop of `kf_bfly5`. -/
def bfly5At (st : KissFftState R) (ya yb : Cplx R) (Fout : Ptr) (fstride m u : ℕ) :
    Thread Loc (Cplx R) Unit := do
  let scratch0 ← get (Fout.nth u)
  let scratch1 := cMul (← get (Fout.nth (u + m))) (← get (.twiddle st.addr (u * fstride : ℕ)))
  let scratch2 := cMul (← get (Fout.nth (u + 2 * m)))
    (← get (.twiddle st.addr (2 * u * fstride : ℕ)))
  let scratch3 := cMul (← get (Fout.nth (u + 3 * m)))
    (← get (.twiddle st.addr (3 * u * fstride : ℕ)))
  let scratch4 := cMul (← get (Fout.nth (u + 4 * m)))
    (← get (.twiddle st.addr (4 * u * fstride : ℕ)))
  let scratch7 := cAdd scratch1 scratch4
  let scratch10 := cSub scratch1 scratch4
  let scratch8 := cAdd scratch2 scratch3
  let scratch9 := cSub scratch2 scratch3
  let a ← get (Fout.nth u)
  put (Fout.nth u)
    ⟨a.real + (scratch7.real + scratch8.real), a.imag + (scratch7.imag + scratch8.imag)⟩
  let scratch5 : Cplx R :=
    ⟨scratch0.real + scratch7.real * ya.real + scratch8.real * yb.real,
      scratch0.imag + scratch7.imag * ya.real + scratch8.imag * yb.real⟩
  let scratch6 : Cplx R :=
    ⟨scratch10.imag * ya.imag + scratch9.imag * yb.imag,
      -(scratch10.real * ya.imag) - scratch9.real * yb.imag⟩
  put (Fout.nth (u + m)) (cSub scratch5 scratch6)
  put (Fout.nth (u + 4 * m)) (cAdd scratch5 scratch6)
  let scratch11 : Cplx R :=
    ⟨scratch0.real + scratch7.real * yb.real + scratch8.real * ya.real,
      scratch0.imag + scratch7.imag * yb.real + scratch8.imag * ya.real⟩
  let scratch12 : Cplx R :=
    ⟨-(scratch10.imag * yb.imag) + scratch9.imag * ya.imag,
      scratch10.real * yb.imag - scratch9.real * ya.imag⟩
  put (Fout.nth (u + 2 * m)) (cAdd scratch11 scratch12)
  put (Fout.nth (u + 3 * m)) (cSub scratch11 scratch12)

/-- `kf_bfly5`. -/
def kfBfly5 (st : KissFftState R) (Fout : Ptr) (fstride m : ℕ) : Thread Loc (Cplx R) Unit := do
  let ya ← get (.twiddle st.addr (fstride * m : ℕ))
  let yb ← get (.twiddle st.addr (fstride * 2 * m : ℕ))
  forRange 0 m () fun u _ => bfly5At st ya yb Fout fstride m u

/-- `twidx += fstride * k; if (twidx>=Norig) twidx-=Norig;`. The sum is of type `size_t`. -/
def advance (Norig fstride k : ℕ) (twidx : ℤ) : ℤ :=
  let twidx := toInt (twidx + fstride * k)
  if Norig ≤ twidx then twidx - Norig else twidx

/-- The body of the second loop over `q1` in `kf_bfly_generic`. -/
def genericAt (st : KissFftState R) (scratch : List (Cplx R)) (Fout : Ptr) (fstride p k : ℕ) :
    Thread Loc (Cplx R) Unit := do
  put (Fout.nth k) (scratch.getD 0 0)
  let _ ← forRange 1 p (0 : ℤ) fun q twidx => do
    let twidx := advance st.nfft fstride k twidx
    let t := cMul (scratch.getD q 0) (← get (.twiddle st.addr twidx))
    put (Fout.nth k) (cAdd (← get (Fout.nth k)) t)
    pure twidx
  pure ()

/-- The first loop over `q1` in `kf_bfly_generic`. -/
def gather (Fout : Ptr) (m p u : ℕ) : Thread Loc (Cplx R) (List (Cplx R)) :=
  forRange 0 p [] fun q1 scratch => do
    pure (scratch ++ [← get (Fout.nth (u + q1 * m))])

/-- `kf_bfly_generic`. -/
def kfBflyGeneric (st : KissFftState R) (Fout : Ptr) (fstride m p : ℕ) :
    Thread Loc (Cplx R) Unit :=
  forRange 0 m () fun u _ => do
    let scratch ← gather Fout m p u
    forRange 0 p () fun q1 _ => genericAt st scratch Fout fstride p (u + q1 * m)

/-- The `switch` of `kf_work`. -/
def kfBfly (st : KissFftState R) (Fout : Ptr) (fstride m p : ℕ) : Thread Loc (Cplx R) Unit :=
  match p with
  | 2 => kfBfly2 st Fout fstride m
  | 3 => kfBfly3 st Fout fstride m
  | 4 => kfBfly4 st Fout fstride m
  | 5 => kfBfly5 st Fout fstride m
  | p => kfBflyGeneric st Fout fstride m p

/-! ### The transform -/

/-- `kf_work` without OpenMP, called with a pointer to the pair in front of `factors`. A
call that finds no pair reads an entry that was never written; what it would do
then is left open. -/
def kfWork (st : KissFftState R) (inStride : ℕ) :
    List (ℕ × ℕ) → Ptr → Ptr → ℕ → Thread Loc (Cplx R) Unit
  | [], _, _, _ => do
    let _ ← get (.factor st.addr)
  | (p, m) :: factors, Fout, f, fstride => do
    if m = 1 then
      forRange 0 p () fun q _ => do
        put (Fout.nth q) (← get (f.nth (q * (fstride * inStride))))
    else
      forRange 0 p () fun q _ =>
        kfWork st inStride factors (Fout.add (q * m)) (f.add (q * (fstride * inStride)))
          (fstride * p)
    kfBfly st Fout fstride m p

/-- `kiss_fft_stride`, with `tmp` for the buffer that it allocates if it needs one. -/
def kissFftStride (st : KissFftState R) (tmp : ℕ) (fin fout : Ptr) (inStride : ℕ) :
    Thread Loc (Cplx R) Unit := do
  if fin = fout then
    let tmpbuf : Ptr := ⟨tmp, 0⟩
    kfWork st inStride st.factors tmpbuf fin 1
    -- memcpy
    forRange 0 st.nfft () fun i _ => do
      put (fout.nth i) (← get (tmpbuf.nth i))
  else
    kfWork st inStride st.factors fout fin 1

/-- `kiss_fft`. -/
def kissFft (st : KissFftState R) (tmp : ℕ) (fin fout : Ptr) : Thread Loc (Cplx R) Unit :=
  kissFftStride st tmp fin fout 1

/-! ### The transform of real samples -/

/-- `kiss_fftr_state`. Its block of memory has the substate and the super twiddles at the
address of the substate. -/
structure KissFftrState (R : Type) where
  substate : KissFftState R
  tmpbuf : Ptr
  superTwiddles : Vector (Cplx R) (substate.nfft / 2)

/-- The phase of `st->super_twiddles[i]`. -/
def superPhase (M : Libm R) (nfft : ℕ) (inverse : Bool) (i : ℕ) : R :=
  let phase := -M.pi * ((i + 1 : ℕ) / nfft + 1 / (2 : ℕ))
  if inverse then phase * -1 else phase

/-- The sizes of the data types. -/
structure Sizes where
  /-- `sizeof(struct kiss_fft_state)`. -/
  state : ℕ
  /-- `sizeof(struct kiss_fftr_state)`. -/
  rstate : ℕ
  /-- `sizeof(kiss_fft_cpx)`. -/
  cpx : ℕ

/-- A block of memory for a configuration, with the addresses of two of its parts. -/
structure RBlock where
  substate : ℕ
  tmpbuf : Ptr

/-- The memory that a call of `kiss_fftr_alloc` may use, `none` standing for `NULL`. -/
structure RMem where
  /-- What `malloc` returns. -/
  fresh : Option RBlock
  /-- The argument `mem`. -/
  mem : Option RBlock
  /-- The argument `lenmem`. -/
  lenmem : Option ℕ

/-- The block that a configuration of `need` bytes is put into. -/
def RMem.block (a : RMem) (need : ℕ) : Option RBlock :=
  match a.lenmem with
  | none => a.fresh
  | some len => if need ≤ len then a.mem else none

/-- `memneeded` of `kiss_fftr_alloc`, a `size_t` of 64 bits. The product with three is one of
`int`s. -/
def memneededR (S : Sizes) (subsize nfft : ℕ) : ℕ :=
  (((S.rstate + subsize : ℕ) + S.cpx * (toInt (nfft * 3)).tdiv 2 : ℤ) % 2 ^ 64).toNat

/-- `kiss_fftr_alloc`. Its results are the configuration, unless that is `NULL`, and
`*lenmem`. -/
def kissFftrAlloc (M : Libm R) (junk : ℕ → Cplx R) (S : Sizes) (a : RMem) (nfft : ℕ)
    (inverse : Bool) : Prog (Option (KissFftrState R) × Option ℕ) := do
  if nfft % 2 = 1 then
    pure (none, a.lenmem)
  else
    let nfft := nfft / 2
    -- `kiss_fft_alloc` with `NULL` for a block stores the size that it needs
    let subsize := memneeded S.state S.cpx nfft
    let need := memneededR S subsize nfft
    let cfg ← match a.block need with
      | none => pure none
      | some b => do
        -- the super twiddles, which come last, may lie behind the end of the block
        if (a.lenmem.getD need) < S.rstate + subsize + S.cpx * (nfft + nfft / 2) then
          throw .outOfBounds
        -- `kiss_fft_alloc`, whose block is as large as it said
        let sub ← kissFftInit M junk b.substate nfft inverse
        let superTwiddles ← forRange 0 (nfft / 2) (malloc junk (sub.nfft / 2))
          fun i superTwiddles => do
            wr superTwiddles i (kfCexp M (superPhase M nfft inverse i))
        pure (some ⟨sub, b.tmpbuf, superTwiddles⟩)
    pure (cfg, a.lenmem.map fun _ => need)

/-- The body of the loop of `kiss_fftr`. -/
def fftrAt (st : KissFftrState R) (freqdata : Ptr) (k : ℕ) : Thread Loc (Cplx R) Unit := do
  let ncfft := st.substate.nfft
  let fpk ← get (st.tmpbuf.nth k)
  let b ← get (st.tmpbuf.nth (ncfft - k))
  let fpnk : Cplx R := ⟨b.real, -b.imag⟩
  let f1k := cAdd fpk fpnk
  let f2k := cSub fpk fpnk
  let tw := cMul f2k (← get (.superTwiddle st.substate.addr (k - 1)))
  put (freqdata.nth k) ⟨halfOf (f1k.real + tw.real), halfOf (f1k.imag + tw.imag)⟩
  put (freqdata.nth (ncfft - k)) ⟨halfOf (f1k.real - tw.real), halfOf (tw.imag - f1k.imag)⟩

/-- `kiss_fftr`. Its samples are read as the complex numbers that `timedata` is cast to: each
is a sample and the one after it. -/
def kissFftr (st : KissFftrState R) (tmp : ℕ) (timedata freqdata : Ptr) :
    Except Fault (Thread Loc (Cplx R) Unit) :=
  if st.substate.inverse then .error .exit
  else .ok do
    let ncfft := st.substate.nfft
    kissFft st.substate tmp timedata st.tmpbuf
    let tdc ← get (st.tmpbuf.nth 0)
    put (freqdata.nth 0) ⟨tdc.real + tdc.imag, 0⟩
    put (freqdata.nth ncfft) ⟨tdc.real - tdc.imag, 0⟩
    forRange 1 (ncfft / 2 + 1) () fun k _ => fftrAt st freqdata k

/-- The body of the loop of `kiss_fftri`. -/
def fftriAt (st : KissFftrState R) (freqdata : Ptr) (k : ℕ) : Thread Loc (Cplx R) Unit := do
  let ncfft := st.substate.nfft
  let fk ← get (freqdata.nth k)
  let b ← get (freqdata.nth (ncfft - k))
  let fnkc : Cplx R := ⟨b.real, -b.imag⟩
  let fek := cAdd fk fnkc
  let tmp := cSub fk fnkc
  let fok := cMul tmp (← get (.superTwiddle st.substate.addr (k - 1)))
  put (st.tmpbuf.nth k) (cAdd fek fok)
  put (st.tmpbuf.nth (ncfft - k)) (cSub fek fok)
  let c ← get (st.tmpbuf.nth (ncfft - k))
  put (st.tmpbuf.nth (ncfft - k)) ⟨c.real, c.imag * -1⟩

/-- `kiss_fftri`. -/
def kissFftri (st : KissFftrState R) (tmp : ℕ) (freqdata timedata : Ptr) :
    Except Fault (Thread Loc (Cplx R) Unit) :=
  if st.substate.inverse then .ok do
    let ncfft := st.substate.nfft
    let a ← get (freqdata.nth 0)
    let b ← get (freqdata.nth ncfft)
    put (st.tmpbuf.nth 0) ⟨a.real + b.real, a.real - b.real⟩
    forRange 1 (ncfft / 2 + 1) () fun k _ => fftriAt st freqdata k
    kissFft st.substate tmp st.tmpbuf timedata
  else .error .exit

end SqlCode.KissFft
