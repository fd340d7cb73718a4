import SqlCode.Exec.Cells
import SqlCode.Dft.Libm
import Mathlib.Algebra.Order.Field.Basic

/-!
# The OpenMP FFT

`ccopy`, `cffti`, `step` and `cfft2` of `fft_openmp.c`, statement by statement.
A complex vector of `n` entries is an array of `2 * n` doubles, entry `i` at
`i * 2 + 0` and `i * 2 + 1`. The pointer arguments of `step` are an array and
an offset: `a` and `b` point into one array, `c` and `d` into another.

Doubles are read as elements of an ordered field with the functions of `Libm`,
and `int` variables as natural numbers. The rounds of the parallel loops write
different entries and read no entry that another round writes; they are run in
order.
-/

namespace SqlCode.FftOpenMp

open Exec Dft

variable {R : Type} [Field R] {xlen ylen wlen : ℕ}

/-- `ccopy`. -/
def ccopy (n : ℕ) (x : Vector R xlen) (y : Vector R ylen) : Prog (Vector R ylen) :=
  forRange 0 n y fun i y => do
    let y ← wr y (i * 2 + 0) (← rd x (i * 2 + 0))
    wr y (i * 2 + 1) (← rd x (i * 2 + 1))

/-- `cffti`. -/
def cffti (M : Libm R) (n : ℕ) (w : Vector R wlen) : Prog (Vector R wlen) :=
  let n2 := n / 2
  let aw := (2 : ℕ) * M.pi / n
  forRange 0 n2 w fun i w => do
    let arg := aw * i
    let w ← wr w (i * 2 + 0) (M.cos arg)
    wr w (i * 2 + 1) (M.sin arg)

variable [LinearOrder R]

/-- The twiddle factor `wjw` of `step`. -/
def twiddle (w : Vector R wlen) (jw : ℕ) (sgn : R) : Prog (Cplx R) := do
  let wjw0 ← rd w (jw * 2 + 0)
  let wjw1 ← rd w (jw * 2 + 1)
  pure ⟨wjw0, if sgn < 0 then -wjw1 else wjw1⟩

/-- The body of the loop over `k` in `step`. -/
def stepAt (src : Vector R xlen) (a b : ℕ) (c d : ℕ) (wjw : Cplx R) (j mj k : ℕ)
    (dst : Vector R ylen) : Prog (Vector R ylen) := do
  let ja := j * mj
  let jb := ja
  let jc := j * (2 * mj)
  let jd := jc
  let dst ← wr dst (c + ((jc + k) * 2 + 0))
    ((← rd src (a + ((ja + k) * 2 + 0))) + (← rd src (b + ((jb + k) * 2 + 0))))
  let dst ← wr dst (c + ((jc + k) * 2 + 1))
    ((← rd src (a + ((ja + k) * 2 + 1))) + (← rd src (b + ((jb + k) * 2 + 1))))
  -- the difference, turned by the twiddle factor
  let ambr := (← rd src (a + ((ja + k) * 2 + 0))) - (← rd src (b + ((jb + k) * 2 + 0)))
  let ambu := (← rd src (a + ((ja + k) * 2 + 1))) - (← rd src (b + ((jb + k) * 2 + 1)))
  let dst ← wr dst (d + ((jd + k) * 2 + 0)) (wjw.real * ambr - wjw.imag * ambu)
  wr dst (d + ((jd + k) * 2 + 1)) (wjw.imag * ambr + wjw.real * ambu)

/-- `step`, with `a` and `b` pointing into `src`, `c` and `d` into `dst`. -/
def step (n mj : ℕ) (src : Vector R xlen) (a b : ℕ) (dst : Vector R ylen) (c d : ℕ)
    (w : Vector R wlen) (sgn : R) : Prog (Vector R ylen) := do
  let mj2 := 2 * mj
  if mj2 = 0 then throw .divideByZero
  let lj := n / mj2
  forRange 0 lj dst fun j dst => do
    let wjw ← twiddle w (j * mj) sgn
    forRange 0 mj dst fun k dst => stepAt src a b c d wjw j mj k dst

/-- What the passes of `cfft2` change: the two arrays, `mj` and `tgle`. -/
structure Work (R : Type) (xlen ylen : ℕ) where
  /-- The input array. -/
  x : Vector R xlen
  /-- The output array. -/
  y : Vector R ylen
  /-- The number of entries in a group. -/
  mj : ℕ
  /-- Whether the last pass wrote `y`. -/
  tgle : Bool

/-- The body of the loop of `cfft2`. -/
def innerPass (n : ℕ) (w : Vector R wlen) (sgn : R) (s : Work R xlen ylen) :
    Prog (Work R xlen ylen) := do
  let mj := s.mj * 2
  -- the array written last is the source
  if s.tgle then
    let x ← step n mj s.y (0 * 2 + 0) (n / 2 * 2 + 0) s.x (0 * 2 + 0) (mj * 2 + 0) w sgn
    pure ⟨x, s.y, mj, false⟩
  else
    let y ← step n mj s.x (0 * 2 + 0) (n / 2 * 2 + 0) s.y (0 * 2 + 0) (mj * 2 + 0) w sgn
    pure ⟨s.x, y, mj, true⟩

/-- The copy before the last pass. -/
def moveToX (n : ℕ) (s : Work R xlen ylen) : Prog (Vector R xlen) :=
  if s.tgle then ccopy n s.y s.x else pure s.x

/-- `cfft2`, which changes `x` and `y`. -/
def cfft2 (M : Libm R) (n : ℕ) (x : Vector R xlen) (y : Vector R ylen) (w : Vector R wlen)
    (sgn : R) : Prog (Vector R xlen × Vector R ylen) := do
  let m := M.toInt (M.log n / M.log 1.99)
  let mj := 1
  let y ← step n mj x (0 * 2 + 0) (n / 2 * 2 + 0) y (0 * 2 + 0) (mj * 2 + 0) w sgn
  if n = 2 then
    pure (x, y)
  else
    let s ← forRange 0 (m - 2) ⟨x, y, mj, true⟩ fun _ s => innerPass n w sgn s
    -- the last pass goes from `x` to `y`, wherever the loop has left the data
    let x ← moveToX n s
    let mj := n / 2
    let y ← step n mj x (0 * 2 + 0) (n / 2 * 2 + 0) s.y (0 * 2 + 0) (mj * 2 + 0) w sgn
    pure (x, y)

/-- The two calls of `fft_main`: the tables, then the transform. -/
def transform (M : Libm R) (n : ℕ) (x : Vector R xlen) (y : Vector R ylen) (w : Vector R wlen)
    (sgn : R) : Prog (Vector R xlen × Vector R ylen) := do
  let w ← cffti M n w
  cfft2 M n x y w sgn

end SqlCode.FftOpenMp
