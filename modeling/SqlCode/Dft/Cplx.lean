import Mathlib.Tactic.Ring
import Mathlib.Algebra.Ring.Hom.Defs

/-!
# Complex numbers as pairs

`Cplx R` is the ring `R[i]` with its elements kept as the pairs a program
stores: a real and an imaginary part in `R`. It is a commutative ring over
every commutative ring `R`, and computes wherever `R` does.

`Cplx.ofReal` embeds `R`, `Cplx.conj` is conjugation, and `Cplx.I` is the
imaginary unit.
-/

namespace Dft

/-- A complex number, stored as its two parts. -/
@[ext] structure Cplx (R : Type) where
  /-- The real part. -/
  real : R
  /-- The imaginary part. -/
  imag : R
  deriving DecidableEq, Repr

namespace Cplx

variable {R : Type} [CommRing R]

instance : Zero (Cplx R) := ⟨⟨0, 0⟩⟩

instance : One (Cplx R) := ⟨⟨1, 0⟩⟩

instance : Add (Cplx R) := ⟨fun a b => ⟨a.real + b.real, a.imag + b.imag⟩⟩

instance : Neg (Cplx R) := ⟨fun a => ⟨-a.real, -a.imag⟩⟩

instance : Sub (Cplx R) := ⟨fun a b => ⟨a.real - b.real, a.imag - b.imag⟩⟩

instance : Mul (Cplx R) :=
  ⟨fun a b => ⟨a.real * b.real - a.imag * b.imag, a.real * b.imag + a.imag * b.real⟩⟩

section Parts

variable (a b : Cplx R)

@[simp] theorem zero_real : (0 : Cplx R).real = 0 := rfl

@[simp] theorem zero_imag : (0 : Cplx R).imag = 0 := rfl

@[simp] theorem one_real : (1 : Cplx R).real = 1 := rfl

@[simp] theorem one_imag : (1 : Cplx R).imag = 0 := rfl

@[simp] theorem add_real : (a + b).real = a.real + b.real := rfl

@[simp] theorem add_imag : (a + b).imag = a.imag + b.imag := rfl

@[simp] theorem neg_real : (-a).real = -a.real := rfl

@[simp] theorem neg_imag : (-a).imag = -a.imag := rfl

@[simp] theorem sub_real : (a - b).real = a.real - b.real := rfl

@[simp] theorem sub_imag : (a - b).imag = a.imag - b.imag := rfl

@[simp] theorem mul_real : (a * b).real = a.real * b.real - a.imag * b.imag := rfl

@[simp] theorem mul_imag : (a * b).imag = a.real * b.imag + a.imag * b.real := rfl

end Parts

instance : CommRing (Cplx R) where
  add_assoc a b c := by ext <;> simp [add_assoc]
  zero_add a := by ext <;> simp
  add_zero a := by ext <;> simp
  add_comm a b := by ext <;> simp [add_comm]
  neg_add_cancel a := by ext <;> simp
  sub_eq_add_neg a b := by ext <;> simp [sub_eq_add_neg]
  mul_assoc a b c := by ext <;> simp <;> ring
  one_mul a := by ext <;> simp
  mul_one a := by ext <;> simp
  zero_mul a := by ext <;> simp
  mul_zero a := by ext <;> simp
  left_distrib a b c := by ext <;> simp <;> ring
  right_distrib a b c := by ext <;> simp <;> ring
  mul_comm a b := by ext <;> simp <;> ring
  nsmul := nsmulRec
  zsmul := zsmulRec

/-- The real number `r` as a pair. -/
def ofReal : R →+* Cplx R where
  toFun r := ⟨r, 0⟩
  map_one' := rfl
  map_mul' a b := by ext <;> simp
  map_zero' := rfl
  map_add' a b := by ext <;> simp

@[simp] theorem ofReal_real (r : R) : (ofReal r).real = r := rfl

@[simp] theorem ofReal_imag (r : R) : (ofReal r).imag = 0 := rfl

/-- Complex conjugation. -/
def conj : Cplx R →+* Cplx R where
  toFun a := ⟨a.real, -a.imag⟩
  map_one' := by ext <;> simp
  map_mul' a b := by
    ext <;> simp
    ring
  map_zero' := by ext <;> simp
  map_add' a b := by ext <;> simp [add_comm]

@[simp] theorem conj_real (a : Cplx R) : (conj a).real = a.real := rfl

@[simp] theorem conj_imag (a : Cplx R) : (conj a).imag = -a.imag := rfl

@[simp] theorem conj_conj (a : Cplx R) : conj (conj a) = a := by
  ext <;> simp

@[simp] theorem conj_ofReal (r : R) : conj (ofReal r) = ofReal r := by
  ext <;> simp

/-- The imaginary unit. -/
def I : Cplx R := ⟨0, 1⟩

@[simp] theorem I_real : (I : Cplx R).real = 0 := rfl

@[simp] theorem I_imag : (I : Cplx R).imag = 1 := rfl

@[simp] theorem natCast_real (n : ℕ) : (n : Cplx R).real = n := by
  rw [← map_natCast (ofReal (R := R)) n, ofReal_real]

@[simp] theorem natCast_imag (n : ℕ) : (n : Cplx R).imag = 0 := by
  rw [← map_natCast (ofReal (R := R)) n, ofReal_imag]

end Cplx

end Dft
