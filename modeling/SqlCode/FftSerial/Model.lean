import SqlCode.Exec.Cells
import SqlCode.Exec.Int32
import SqlCode.Dft.Cplx
import SqlCode.FftSerial.Utils
import Mathlib.Algebra.Field.Defs

/-!
# The serial FFT

`fft`, `fft_real`, `ifft` and `ifft_real` of `fft_serial/fft.c`, statement by
statement. The array `x` of `len` elements and the number `N` of samples are
separate, as they are for the C functions: nothing ties `N` to the array, and
every access is checked against `len`.

Floats are read as elements of a commutative ring (of a field, where the code
divides). The tables `sin_tb` and `cos_tb` are a parameter; `sourceTables` are the
21 decimals of the source.

`N` is a `uint32_t`, so the longest power of two is `2^31`. The `int` loop variables are
natural numbers. They reach values above `INT_MAX` only for `N = 2^31` and only on leaving a
loop: compared with `N`, they count as the `uint32_t` of the same value. The `int`s `le`
and `le2` of `fft` are integers, since the last stage for `N = 2^31` computes `1 << 31`.
-/

namespace SqlCode.FftSerial

open Exec Dft

variable {R : Type} {len : ℕ}

/-- The two constant tables, as accesses to them. -/
structure Tables (R : Type) where
  /-- `sin_tb[k]`, which stands for `sin (π / 2^k)`. -/
  sinTb : ℕ → Prog R
  /-- `cos_tb[k]`, which stands for `cos (π / 2^k)`. -/
  cosTb : ℕ → Prog R

/-- The tables as written in the source, 21 entries each. -/
def sourceTables [Field R] : Tables R where
  sinTb := rd (Vector.mk (n := 21) #[
    0.000000, 1.000000, 0.707107, 0.382683, 0.195090, 0.098017,
    0.049068, 0.024541, 0.012272, 0.006136, 0.003068, 0.001534,
    0.000767, 0.000383, 0.000192, 0.000096, 0.000048, 0.000024,
    0.000012, 0.000006, 0.000003] rfl)
  cosTb := rd (Vector.mk (n := 21) #[
    -1.000000, 0.000000, 0.707107, 0.923880, 0.980785, 0.995185,
    0.998795, 0.999699, 0.999925, 0.999981, 0.999995, 0.999999,
    1.000000, 1.000000, 1.000000, 1.000000, 1.000000, 1.000000,
    1.000000, 1.000000, 1.000000] rfl)

/-- `x[i].real = v`. -/
def wrReal (x : Vector (Cplx R) len) (i : ℕ) (v : R) : Prog (Vector (Cplx R) len) := do
  let c ← rd x i
  wr x i { c with real := v }

/-- `x[i].imag = v`. -/
def wrImag (x : Vector (Cplx R) len) (i : ℕ) (v : R) : Prog (Vector (Cplx R) len) := do
  let c ← rd x i
  wr x i { c with imag := v }

/-! ### The complex transform -/

/-- The exchange of `x[i]` and `x[j]` in the bit reversal of `fft`. -/
def swap (x : Vector (Cplx R) len) (i j : ℕ) : Prog (Vector (Cplx R) len) := do
  let t ← rd x j
  let x ← wr x j (← rd x i)
  wr x i t

/-- The `while (k <= j)` loop of the bit reversal, with `k = l` before and
`j = j + k` after it. -/
def carry (l j : ℕ) : Prog ℕ := do
  let (j, k) ← whileLoop (fun s : ℕ × ℕ => decide (s.2 ≤ s.1))
    (fun s => pure (s.1 - s.2, s.2 >>> 1)) (j, l)
  pure (j + k)

/-- The bit reversal sorting of `fft`. Its bound `ip = N - 2` is negative for
`N < 2`, where the loop has no rounds. -/
def bitReversal (x : Vector (Cplx R) len) (N : ℕ) : Prog (Vector (Cplx R) len) := do
  let l := N >>> 1
  let (x, _) ← forRange 1 (N - 1) (x, l) fun i (x, j) => do
    let x ← if i < j then swap x i j else pure x
    -- `j` counts on in every round, swap or not
    let j ← carry l j
    pure (x, j)
  pure x

section Ring

variable [CommRing R]

/-- The body of the butterfly loops, between `x[i]` and `x[ip]` with twiddle
factor `(uR, uI)`. -/
def butterfly (u : Cplx R) (i ip : ℕ) (x : Vector (Cplx R) len) : Prog (Vector (Cplx R) len) := do
  let a ← rd x ip
  let tR := a.real * u.real - a.imag * u.imag
  let tI := a.real * u.imag + a.imag * u.real
  let b ← rd x i
  let x ← wr x ip ⟨b.real - tR, b.imag - tI⟩
  let b ← rd x i
  wr x i ⟨b.real + tR, b.imag + tI⟩

/-- The recurrence that advances `(uR, uI)` by `(sR, sI)`. -/
def advance (u s : Cplx R) : Cplx R :=
  ⟨u.real * s.real - u.imag * s.imag, u.real * s.imag + u.imag * s.real⟩

/-- The step `(sR, sI)` of the twiddle factors, for butterflies `h` cells apart; `h` is a
`uint32_t` as the argument of `floor_log2_32`. -/
def twiddleStep (T : Tables R) (h : ℕ) : Prog (Cplx R) := do
  let k ← floorLog2_32 h
  let sR ← T.cosTb k
  let sI ← T.sinTb k
  pure ⟨sR, -sI⟩

/-- The body of the loop over `l`. For `l = 31`, `le` is `INT_MIN` and the loop over `j` has
no rounds. -/
def stage (T : Tables R) (N l : ℕ) (x : Vector (Cplx R) len) : Prog (Vector (Cplx R) len) := do
  let le : ℤ := toInt (1 <<< l : ℕ)
  let le2 : ℤ := le >>> (1 : ℕ)
  let s ← twiddleStep T (toUint32 le2)
  let (x, _) ← forRange 1 (le2 + 1).toNat (x, (⟨1, 0⟩ : Cplx R)) fun j (x, u) => do
    -- `le` and `le2` are positive when this loop runs
    let x ← forLoop (j - 1) N le.toNat x fun i x => butterfly u i (i + le2.toNat) x
    pure (x, advance u s)
  pure x

/-- `fft`. -/
def fft (T : Tables R) (x : Vector (Cplx R) len) (N : ℕ) : Prog (Vector (Cplx R) len) := do
  let M ← floorLog2_32 N
  let x ← bitReversal x N
  forRange 1 (M + 1) x fun l x => stage T N l x

end Ring

/-! ### The transform of real samples -/

section Field

variable [Field R]

/-- The loop that packs even and odd samples into `x[0 .. M)`. -/
def separate (x : Vector (Cplx R) len) (M : ℕ) : Prog (Vector (Cplx R) len) :=
  forRange 0 M x fun i x => do
    let x ← wrReal x i (← rd x (i <<< 1)).real
    wrImag x i (← rd x ((i <<< 1) + 1)).real

/-- The body of the even/odd decomposition loop. -/
def decomposeAt (M i : ℕ) (x : Vector (Cplx R) len) : Prog (Vector (Cplx R) len) := do
  let j := M - i
  let k := i + M
  let l := j + M
  -- the odd samples, to the upper half
  let x ← wrReal x k (((← rd x i).imag + (← rd x j).imag) / (2 : ℕ))
  let x ← wrReal x l (← rd x k).real
  let x ← wrImag x k (-((← rd x i).real - (← rd x j).real) / (2 : ℕ))
  let x ← wrImag x l (-(← rd x k).imag)
  -- the even samples, in place: entry `j` is made from the new entry `i`
  let x ← wrReal x i (((← rd x i).real + (← rd x j).real) / (2 : ℕ))
  let x ← wrReal x j (← rd x i).real
  let x ← wrImag x i (((← rd x i).imag - (← rd x j).imag) / (2 : ℕ))
  wrImag x j (-(← rd x i).imag)

/-- The even/odd frequency domain decomposition, the loop and the special cases
after it. -/
def decompose (x : Vector (Cplx R) len) (N M ND4 : ℕ) : Prog (Vector (Cplx R) len) := do
  let x ← forRange 1 ND4 x fun i x => decomposeAt M i x
  -- the entries that are their own mirror images
  let x ← wrReal x (N - ND4) (← rd x ND4).imag
  let x ← wrReal x M (← rd x 0).imag
  let x ← wrImag x (N - ND4) 0
  let x ← wrImag x M 0
  let x ← wrImag x ND4 0
  wrImag x 0 0

/-- The last stage of `fft_real`. -/
def lastStage (T : Tables R) (x : Vector (Cplx R) len) (M : ℕ) : Prog (Vector (Cplx R) len) := do
  let s ← twiddleStep T M
  let (x, _) ← forRange 0 M (x, (⟨1, 0⟩ : Cplx R)) fun i (x, u) => do
    let x ← butterfly u i (i + M) x
    pure (x, advance u s)
  pure x

/-- `fft_real`. -/
def fftReal (T : Tables R) (x : Vector (Cplx R) len) (N : ℕ) : Prog (Vector (Cplx R) len) := do
  let M := N >>> 1
  let x ← separate x M
  let x ← fft T x M
  let ND4 := N >>> 2
  let x ← decompose x N M ND4
  lastStage T x M

/-! ### The inverse transforms -/

/-- `N - 1` on `uint32_t`. -/
def uint32Pred (N : ℕ) : ℕ :=
  if N = 0 then 2 ^ 32 - 1 else N - 1

/-- `ifft`. -/
def ifft (T : Tables R) (x : Vector (Cplx R) len) (N : ℕ) : Prog (Vector (Cplx R) len) := do
  -- `k <= N-1`, also at `N = 0`
  let x ← forRange 0 (uint32Pred N + 1) x fun k x => do
    wrImag x k (-(← rd x k).imag)
  let x ← fft T x N
  forRange 0 (uint32Pred N + 1) x fun k x => do
    let x ← wrReal x k ((← rd x k).real / N)
    wrImag x k (-(← rd x k).imag / N)

/-- `ifft_real`. -/
def ifftReal (T : Tables R) (x : Vector (Cplx R) len) (N : ℕ) : Prog (Vector (Cplx R) len) := do
  let x ← forRange ((N >>> 1) + 1) N x fun k x => do
    let x ← wrReal x k (← rd x (N - k)).real
    wrImag x k (-(← rd x (N - k)).imag)
  let x ← forRange 0 N x fun k x => do
    let c ← rd x k
    wrReal x k (c.real + c.imag)
  let x ← fftReal T x N
  forRange 0 N x fun k x => do
    let c ← rd x k
    let x ← wrReal x k ((c.real + c.imag) / N)
    wrImag x k 0

end Field

end SqlCode.FftSerial
