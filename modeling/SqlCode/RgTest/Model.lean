import SqlCode.Exec.Cells
import SqlCode.Dft.Libm

/-!
# The transforms of `rg_test`

`getWN`, `DFT`, `IDFT`, `FFT_remap` and `FFT` of `rg_test/rg.c`, statement by statement,
with the three operations on complex numbers they call. The source's `Complex`
is `Cplx`; its field `imagin` is `imag`.

Doubles are read as elements of a field with the functions of `Libm`, and the
`int` counters as natural numbers. What `malloc` returns is an array with
arbitrary contents, given by the parameter `junk`; it is read as always
succeeding. Clock readings and messages are left out, but for the value that each
line of `IDFT` prints.
-/

namespace SqlCode.RgTest

open Exec Dft

variable {R : Type} [Field R] {len dlen : ℕ}

/-- `Add_Complex`. -/
def addComplex (src1 src2 : Cplx R) : Cplx R :=
  ⟨src1.real + src2.real, src1.imag + src2.imag⟩

/-- `Sub_Complex`. -/
def subComplex (src1 src2 : Cplx R) : Cplx R :=
  ⟨src1.real - src2.real, src1.imag - src2.imag⟩

/-- `Multy_Complex`. -/
def multyComplex (src1 src2 : Cplx R) : Cplx R :=
  let r1 := src1.real
  let r2 := src2.real
  let i1 := src1.imag
  let i2 := src2.imag
  ⟨r1 * r2 - i1 * i2, r1 * i2 + r2 * i1⟩

/-- `getWN`. -/
def getWN (M : Libm R) (n sizeN : R) : Cplx R :=
  let x := (2 : ℕ) * M.pi * n / sizeN
  ⟨M.cos x, -M.sin x⟩

/-- The quadratic `DFT`. -/
def dft (M : Libm R) (src : Vector R len) (dst : Vector (Cplx R) dlen) (size : ℕ) :
    Prog (Vector (Cplx R) dlen) :=
  forRange 0 size dst fun m dst => do
    let (real, imagin) ← forRange 0 size ((0 : R), (0 : R)) fun n (real, imagin) => do
      let x := M.pi * (2 : ℕ) * m * n
      let real := real + (← rd src n) * M.cos (x / size)
      let imagin := imagin + (← rd src n) * -M.sin (x / size)
      pure (real, imagin)
    wr dst m ⟨real, imagin⟩

/-- `SIZE`, which the source defines without brackets; it only divides. -/
def SIZE : ℕ := 1024 * 8

/-- The two sums of `IDFT` for the value at `m`. -/
def idftSum (M : Libm R) (src : Vector (Cplx R) len) (size m : ℕ) : Prog (R × R) :=
  forRange 0 size ((0 : R), (0 : R)) fun n (real, imagin) => do
    let x := M.pi * (2 : ℕ) * m * n / size
    let a ← rd src n
    let real := real + (a.real * M.cos x - a.imag * M.sin x)
    let imagin := imagin + (a.real * M.sin x + a.imag * M.cos x)
    pure (real, imagin)

/-- The quadratic `IDFT`, which changes `dst` unless that is `NULL`. The list is
what it prints. -/
def idft (M : Libm R) (src : Vector (Cplx R) len) (dst : Option (Vector (Cplx R) dlen))
    (size : ℕ) : Prog (Option (Vector (Cplx R) dlen) × List (Cplx R)) :=
  forRange 0 size (dst, []) fun m (dst, printed) => do
    let (real, imagin) ← idftSum M src size m
    let real := real / SIZE
    let imagin := imagin / SIZE
    let dst ← match dst with
      | none => pure none
      | some dst => do
        let dst ← wr dst m ⟨real, imagin⟩
        pure (some dst)
    pure (dst, printed ++ [⟨real, imagin⟩])

/-- The two loops of `FFT_remap`, on the `sizeN` elements of `src` from `off` on. -/
def deinterleave (junk : ℕ → R) (src : Vector R len) (off sizeN : ℕ) : Prog (Vector R len) := do
  let temp := malloc junk sizeN
  let temp ← forRange 0 sizeN temp fun i temp => do
    if i % 2 = 0 then
      wr temp (i / 2) (← rd src (off + i))
    else
      wr temp ((sizeN + i) / 2) (← rd src (off + i))
  forRange 0 sizeN src fun i src => do
    wr src (off + i) (← rd temp i)

/-- `FFT_remap` with calls nested at most as deep as the budget. -/
def fftRemapFuel (junk : ℕ → R) : ℕ → Vector R len → ℕ → ℕ → Except Fault (Vector R len)
  | 0, _, _, _ => .error .outOfFuel
  | fuel + 1, src, off, sizeN =>
    if sizeN = 1 then .ok src
    else do
      -- the even elements, then the odd ones, and each half in its turn
      let src ← (deinterleave junk src off sizeN).run fuel
      let src ← fftRemapFuel junk fuel src off (sizeN / 2)
      fftRemapFuel junk fuel src (off + sizeN / 2) (sizeN / 2)

/-- `FFT_remap (src + off, sizeN)`. -/
def fftRemap (junk : ℕ → R) (src : Vector R len) (off sizeN : ℕ) : Prog (Vector R len) :=
  fun fuel => fftRemapFuel junk fuel src off sizeN

/-- `while (k /= 2) z++` from `k = sizeN` and `z = 0` on. -/
def halvings (sizeN : ℕ) : Prog ℕ := do
  let (_, z) ← whileLoop (fun s : ℕ × ℕ => s.1 / 2 != 0) (fun s => pure (s.1 / 2, s.2 + 1))
    (sizeN, 0)
  pure z

/-- The body of the loop over `j` in pass `i`, with the counter `z`. -/
def passAt (M : Libm R) (sizeN k i j : ℕ) (s : Vector (Cplx R) sizeN × ℕ) :
    Prog (Vector (Cplx R) sizeN × ℕ) := do
  let (com, z) := s
  if j / (1 <<< i) % 2 = 1 then
    let wn := getWN M z sizeN
    let com ← wr com j (multyComplex (← rd com j) wn)
    let z := z + 1 <<< (k - i - 1)
    let neighbour := j - 1 <<< i
    let temp ← rd com neighbour
    let com ← wr com neighbour (addComplex temp (← rd com j))
    let com ← wr com j (subComplex temp (← rd com j))
    pure (com, z)
  else
    -- `z = 0`
    pure (com, 0)

/-- The body of the loop over `i`. -/
def pass (M : Libm R) (sizeN k i : ℕ) (com : Vector (Cplx R) sizeN) :
    Prog (Vector (Cplx R) sizeN) := do
  let (com, _) ← forRange 0 sizeN (com, 0) fun j s => passAt M sizeN k i j s
  pure com

/-- `FFT`, which changes `src` and `dst`. -/
def fft (M : Libm R) (junk : ℕ → R) (junkCom : ℕ → Cplx R) (src : Vector R len)
    (dst : Vector (Cplx R) dlen) (sizeN : ℕ) :
    Prog (Vector R len × Vector (Cplx R) dlen) := do
  let src ← fftRemap junk src 0 sizeN
  let k ← halvings sizeN
  if sizeN ≠ 1 <<< k then throw .exit
  let com := malloc junkCom sizeN
  let com ← forRange 0 sizeN com fun i com => do
    wr com i ⟨← rd src i, 0⟩
  let com ← forRange 0 k com fun i com => pass M sizeN k i com
  let dst ← forRange 0 sizeN dst fun i dst => do
    wr dst i (← rd com i)
  pure (src, dst)

end SqlCode.RgTest
