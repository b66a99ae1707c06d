import Strided.Kernel.Givens
import Strided.Precision
import Strided.Scalar.Binary

/-! # Elements

An element type is a scalar type with a precision, which selects the column of the operation table,
and with the plane rotation of its kind. -/

namespace Strided

/-- A type of vector elements. -/
class Element (α : Type) (ρ : outParam Type) extends Scalar α ρ where
  /-- The column of the table. -/
  precision : Precision
  /-- The plane rotation that zeroes the second of two numbers. -/
  rotg : α → α → ρ × α

namespace Element

variable {ρ : Type}

/-- Real numbers as elements. -/
@[reducible] def real (w : Width) [RealScalar ρ] : Element ρ ρ where
  toScalar := RealScalar.toScalar
  precision := w.real
  rotg := Givens.real

/-- Complex numbers as elements. -/
@[reducible] def complex (w : Width) [RealScalar ρ] : Element (Complex ρ) ρ where
  toScalar := Complex.toScalar
  precision := w.complex
  rotg := Givens.complex

instance ofBinary [Binary ρ] : Element ρ ρ := real (Binary.width ρ)

instance ofComplexBinary [Binary ρ] : Element (Complex ρ) ρ := complex (Binary.width ρ)

end Element

end Strided
