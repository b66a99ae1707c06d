import Strided.Precision
import Strided.Scalar.Basic

/-! # Binary floating point

`Float32` and `Float` as real scalars. All operations round to nearest, ties to even; `hypot` does
so too: `hypotExact` forms the sum of the two squares exactly, takes its integer square root with
the remainder, and rounds once, so that no intermediate result overflows or underflows. An infinite
argument gives infinity even beside an undefined one. -/

namespace Strided

open Float.Model Float.Model.UnpackedFloat

/-- The square root of the sum of the squares of two numbers, rounded once to a format. -/
def hypotExact (format : Format) : UnpackedFloat → UnpackedFloat → UnpackedFloat
  | .infinity _, _ => .infinity .positive
  | _, .infinity _ => .infinity .positive
  | .notANumber, _ => .notANumber
  | _, .notANumber => .notANumber
  | .zero _, b => b.abs
  | a, .zero _ => a.abs
  | .finite _ m e _, .finite _ m' e' _ =>
    let low := min e e'
    let a := m <<< (e - low).toNat
    let b := m' <<< (e' - low).toNat
    let (root, exponent, accuracy) := sqrtCore format (a * a + b * b) (2 * low)
    roundWithAccuracy format .positive root exponent accuracy

/-- A real scalar in a binary floating-point format. -/
class Binary (ρ : Type) extends RealScalar ρ where
  width : Width
  /-- The nearest number of the format. -/
  ofBinary64 : Float → ρ

instance : Binary Float32 where
  zero := Float32.ofBits 0
  one := Float32.ofBits 0x3f800000
  decidableLT := inferInstance
  decidableLE := inferInstance
  abs := Float32.abs
  sqrt := Float32.sqrt
  hypot a b := .ofModel (.pack (hypotExact .binary32 a.toModel.unpack b.toModel.unpack))
  width := .w32
  ofBinary64 := Float.toFloat32

instance : Binary Float where
  zero := Float.ofBits 0
  one := Float.ofBits 0x3ff0000000000000
  decidableLT := inferInstance
  decidableLE := inferInstance
  abs := Float.abs
  sqrt := Float.sqrt
  hypot a b := .ofModel (.pack (hypotExact .binary64 a.toModel.unpack b.toModel.unpack))
  width := .w64
  ofBinary64 a := a

end Strided
