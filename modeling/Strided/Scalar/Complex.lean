import Strided.Scalar.Basic

/-! # Complex numbers

Pairs of real scalars. The product is formed by four products of parts, one difference and one sum,
in this order, so that its rounding is determined. -/

namespace Strided

/-- A complex number. -/
structure Complex (ρ : Type) where
  re : ρ
  im : ρ
  deriving DecidableEq

namespace Complex

variable {ρ : Type} [RealScalar ρ]

def add (a b : Complex ρ) : Complex ρ := ⟨a.re + b.re, a.im + b.im⟩

def sub (a b : Complex ρ) : Complex ρ := ⟨a.re - b.re, a.im - b.im⟩

def mul (a b : Complex ρ) : Complex ρ :=
  ⟨a.re * b.re - a.im * b.im, a.re * b.im + a.im * b.re⟩

def neg (a : Complex ρ) : Complex ρ := ⟨-a.re, -a.im⟩

/-- Equality of both parts as numbers. -/
def beq (a b : Complex ρ) : Bool := a.re == b.re && a.im == b.im

/-- A complex number as an element. -/
instance toScalar : Scalar (Complex ρ) ρ where
  zero := ⟨0, 0⟩
  one := ⟨1, 0⟩
  add := add
  sub := sub
  mul := mul
  neg := neg
  beq := beq
  conj a := ⟨a.re, -a.im⟩
  re a := a.re
  im a := a.im
  ofReal r := ⟨r, 0⟩
  mulReal a r := ⟨a.re * r, a.im * r⟩
  abs1 a := RealScalar.abs a.re + RealScalar.abs a.im
  modulus a := RealScalar.hypot a.re a.im

end Complex

end Strided
