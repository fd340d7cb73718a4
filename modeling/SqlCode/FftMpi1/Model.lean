import SqlCode.Exec.Cells
import SqlCode.Dft.Libm

/-!
# The FFT program `fft_mpi1` with one process

`Add`, `Sub`, `Mul`, `calculate_M`, `reverse`, `readData`, `printResult` and `main` of
`fft_mpi1.c`, statement by statement, for a world of one process. There the loops
over the other ranks have no rounds, and a broadcast passes nothing on.

Floats and doubles are read as elements of an ordered field with the functions of
`PowLibm`, whose `pi` stands for the source's `PI`; ints are natural numbers. The file
is its first number, the length, and the sequence of the numbers after it. What
`malloc` returns has arbitrary contents, given by `junk` and `junkInt`. Clock
readings and the echo of the input are left out, and of each output line the value
is kept.
-/

namespace SqlCode.FftMpi1

open Exec Dft

variable {R : Type} [Field R] {nLen m wlen : ℕ}

/-- `Add`. -/
def add (c1 c2 : Cplx R) : Cplx R :=
  ⟨c1.real + c2.real, c1.imag + c2.imag⟩

/-- `Sub`. -/
def sub (c1 c2 : Cplx R) : Cplx R :=
  ⟨c1.real - c2.real, c1.imag - c2.imag⟩

/-- `Mul`. -/
def mul (c1 c2 : Cplx R) : Cplx R :=
  ⟨c1.real * c2.real - c1.imag * c2.imag, c1.real * c2.imag + c2.real * c1.imag⟩

/-- `(int)pow(2, e)`. -/
def powInt (L : PowLibm R) (e : R) : ℕ :=
  L.toInt (L.pow (2 : ℕ) e)

/-- `calculate_M`. -/
def calculateM (initNLen : ℕ) : Prog ℕ := do
  let (i, _) ← whileLoop (fun s : ℕ × ℕ => decide (s.2 < initNLen))
    (fun s => pure (s.1 + 1, s.2 * 2)) (0, 1)
  pure i

/-- The two loops of `readData` that fill `A_In`. -/
def fillData (initNLen : ℕ) (data : ℕ → R) (aIn : Vector (Cplx R) nLen) :
    Prog (Vector (Cplx R) nLen) := do
  let aIn ← forRange 0 initNLen aIn fun i aIn => wr aIn i ⟨data i, 0⟩
  forRange initNLen nLen aIn fun i aIn => wr aIn i ⟨0, 0⟩

/-! ### The order of the output -/

/-- The counter `a` of `reverse`, one further: the loop `while (a[j] != 0)`, which ends
at the first zero, and `a[j] = 1`. -/
def increment {M : ℕ} (a : Vector ℕ M) : Prog (Vector ℕ M) := do
  let bit ← rd a 0
  let (a, j, _) ← whileLoop (fun s : Vector ℕ M × ℕ × ℕ => s.2.2 != 0)
    (fun (a, j, _) => do
      let a ← wr a j 0
      let j := j + 1
      let bit ← rd a j
      pure (a, j, bit)) (a, 0, bit)
  wr a j 1

/-- `reverse`, which leaves its table in `b`. -/
def reverse (L : PowLibm R) (junkInt : ℕ → ℕ) (nLen M : ℕ) : Prog (Vector ℕ nLen) := do
  let a := malloc junkInt M
  let b := malloc junkInt nLen
  let a ← forRange 0 M a fun i a => wr a i 0
  let b ← wr b 0 0
  let (_, b) ← forRange 1 nLen (a, b) fun i (a, b) => do
    let a ← increment a
    let b ← wr b i 0
    -- digit `j` has the weight of digit `M - 1 - j`
    let b ← forRange 0 M b fun j b => do
      wr b i ((← rd b i) + (← rd a j) * powInt L ((M - 1 - j : ℕ) : R))
    pure (a, b)
  pure b

/-- `printResult`. The list is what it prints. -/
def printResult (L : PowLibm R) (junk : ℕ → Cplx R) (junkInt : ℕ → ℕ) (M : ℕ)
    (aIn : Vector (Cplx R) nLen) : Prog (List (Cplx R)) := do
  let aOut := malloc junk nLen
  let b ← reverse L junkInt nLen M
  let aOut ← forRange 0 nLen aOut fun i aOut => do
    wr aOut i (← rd aIn (← rd b i))
  pure aOut.toList

/-! ### The butterfly levels -/

/-- What the loops set `W[s]` to. -/
def twiddle (L : PowLibm R) (nLen s : ℕ) : Cplx R :=
  let x := (2 : ℕ) * L.pi * s / nLen
  ⟨L.cos x, -L.sin x⟩

/-- The statements of both loops over `k`, between `P_In[k]` and `P_In[k+dist]`. -/
def butterfly (L : PowLibm R) (nLen dist s k : ℕ) (pIn : Vector (Cplx R) m)
    (w : Vector (Cplx R) wlen) : Prog (Vector (Cplx R) m × Vector (Cplx R) wlen) := do
  let w ← wr w s (twiddle L nLen s)
  let b := add (← rd pIn k) (mul (← rd pIn (k + dist)) (← rd w s))
  let pIn ← wr pIn (k + dist) (sub (← rd pIn k) (mul (← rd pIn (k + dist)) (← rd w s)))
  let pIn ← wr pIn k b
  pure (pIn, w)

/-- The body of the first loop over `lev`. -/
def ownLevel (L : PowLibm R) (nLen lev : ℕ) (pIn : Vector (Cplx R) m)
    (w : Vector (Cplx R) wlen) : Prog (Vector (Cplx R) m × Vector (Cplx R) wlen) := do
  let dist := powInt L (L.log m / L.log (2 : ℕ) - lev)
  forRange 0 dist (pIn, w) fun t (pIn, w) => do
    let (pIn, w, _) ← forLoop t m (2 * dist) (pIn, w, 0) fun k (pIn, w, c) => do
      let s := c * powInt L (L.log nLen / L.log (2 : ℕ) - lev)
      let (pIn, w) ← butterfly L nLen dist s k pIn w
      pure (pIn, w, c + 1)
    pure (pIn, w)

/-- The body of the second loop over `lev`, in which `s` adds up. -/
def mixedLevel (L : PowLibm R) (myid p nLen lev : ℕ) (pIn : Vector (Cplx R) m)
    (w : Vector (Cplx R) wlen) : Prog (Vector (Cplx R) m × Vector (Cplx R) wlen) := do
  let dist := powInt L (L.log nLen / L.log (2 : ℕ) - lev)
  forRange 0 dist (pIn, w) fun t (pIn, w) => do
    let (pIn, w, _, _) ← forLoop t m (2 * dist) (pIn, w, 0, myid * nLen / (2 * p))
      fun k (pIn, w, c, s) => do
        -- no assignment but an addition to what the rounds before have left
        let s := s + c * powInt L (L.log nLen / L.log (2 : ℕ) - lev)
        let (pIn, w) ← butterfly L nLen dist s k pIn w
        pure (pIn, w, c + 1, s)
    pure (pIn, w)

/-- The memory of the first loop over `lev`. -/
structure Levels (R : Type) (m wlen : ℕ) where
  /-- The loop variable. -/
  lev : ℕ
  /-- The data, `P_In`. -/
  pIn : Vector (Cplx R) m
  /-- The twiddle factors. -/
  w : Vector (Cplx R) wlen

/-- The first loop over `lev`, whose bound is a double. -/
def ownLevels [LinearOrder R] (L : PowLibm R) (nLen : ℕ) (pIn : Vector (Cplx R) m)
    (w : Vector (Cplx R) wlen) : Prog (Levels R m wlen) :=
  whileLoop (fun s : Levels R m wlen => decide ((s.lev : R) ≤ L.log m / L.log (2 : ℕ)))
    (fun s => do
      let (pIn, w) ← ownLevel L nLen s.lev s.pIn s.w
      pure ⟨s.lev + 1, pIn, w⟩) ⟨1, pIn, w⟩

/-- The second loop over `lev`, whose bounds are ints. -/
def mixedLevels (L : PowLibm R) (myid p nLen : ℕ) (pIn : Vector (Cplx R) m)
    (w : Vector (Cplx R) wlen) : Prog (Vector (Cplx R) m × Vector (Cplx R) wlen) :=
  forRange (L.toInt (L.log m / L.log (2 : ℕ) + 1)) (L.toInt (L.log nLen / L.log (2 : ℕ)) + 1)
    (pIn, w) fun lev (pIn, w) => mixedLevel L myid p nLen lev pIn w

/-- `main`, in a world of one process. The array `W` has `complexsize*m/2` bytes, which
are `m / 2` elements. -/
def main [LinearOrder R] (L : PowLibm R) (junk : ℕ → Cplx R) (junkInt : ℕ → ℕ) (initNLen : ℕ)
    (data : ℕ → R) : Prog (List (Cplx R)) := do
  let myid := 0
  let p := 1
  -- `readData`
  let M ← calculateM initNLen
  let nLen := powInt L M
  let aIn ← fillData initNLen data (malloc junk nLen)
  let m := nLen / p
  let pIn := malloc junk m
  let pIn ← forRange 0 m pIn fun i pIn => do wr pIn i (← rd aIn (i * p))
  let w := malloc junk (m / 2)
  let s ← ownLevels L nLen pIn w
  -- what the ranks have computed goes through `A_In` and back
  let aIn ← forRange 0 m aIn fun i aIn => do wr aIn (i * p) (← rd s.pIn i)
  let pIn ← forRange 0 m s.pIn fun i pIn => do wr pIn i (← rd aIn i)
  let (pIn, _) ← mixedLevels L myid p nLen pIn s.w
  let aIn ← forRange 0 m aIn fun i aIn => do wr aIn i (← rd pIn i)
  printResult L junk junkInt M aIn

end SqlCode.FftMpi1
