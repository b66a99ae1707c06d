/-! # Scalars

The kernels are written over two classes of operations. `RealScalar ρ` has the arithmetic, the order
and the square root of real numbers; `Scalar α ρ` has the arithmetic of elements `α` whose parts are
in `ρ`. Neither class has laws: floating-point numbers satisfy few of them, and a law of a kernel
that needs some says which. A real number is an element with itself as real part. -/

namespace Strided

/-- The operations on real numbers that the kernels use. Comparisons are those of the number
system: an undefined number may compare as neither less, equal nor greater. -/
class RealScalar (ρ : Type) extends
    Zero ρ, One ρ, Add ρ, Sub ρ, Mul ρ, Div ρ, Neg ρ, LT ρ, LE ρ, BEq ρ where
  decidableLT : DecidableLT ρ
  decidableLE : DecidableLE ρ
  abs : ρ → ρ
  sqrt : ρ → ρ
  /-- The square root of the sum of the two squares. -/
  hypot : ρ → ρ → ρ

attribute [reducible, instance] RealScalar.decidableLT RealScalar.decidableLE

/-- The operations on elements with parts in `ρ`. -/
class Scalar (α : Type) (ρ : outParam Type) extends
    Zero α, One α, Add α, Sub α, Mul α, Neg α, BEq α where
  /-- The conjugate. -/
  conj : α → α
  /-- The real part. -/
  re : α → ρ
  /-- The imaginary part. -/
  im : α → ρ
  /-- The element on the real axis. -/
  ofReal : ρ → α
  /-- The product with a real factor, part by part. -/
  mulReal : α → ρ → α
  /-- The sum of the absolute values of the parts. -/
  abs1 : α → ρ
  /-- The distance from zero. -/
  modulus : α → ρ

namespace RealScalar

variable {ρ : Type} [RealScalar ρ]

/-- The power `2 ^ k`, by doubling. -/
def twoPow : Nat → ρ
  | 0 => 1
  | k + 1 => twoPow k + twoPow k

/-- A real number as an element. -/
instance toScalar : Scalar ρ ρ where
  conj a := a
  re a := a
  im _ := 0
  ofReal a := a
  mulReal a r := a * r
  abs1 := abs
  modulus := abs

end RealScalar

end Strided
