import Strided.Scalar.Complex

/-! # Plane rotations

A plane rotation is a cosine `c` and a sine `s`. It sends a pair `(w, z)` to the pair
`(w c + z s, z c - w s)`; if the sine is complex, its conjugate stands in the second part.
`Givens.real a b` and `Givens.complex a b` find the one that sends `(a, b)` to `(r, 0)`. The numbers
are divided by `|a| + |b|` before they are squared, which keeps the squares in range. -/

namespace Strided

variable {α ρ : Type} [RealScalar ρ]

/-- The image of a pair under a rotation. -/
def rotatePair [Scalar α ρ] (c s : ρ) (w z : α) : α × α :=
  (Scalar.mulReal w c + Scalar.mulReal z s, Scalar.mulReal z c - Scalar.mulReal w s)

namespace Givens

/-- The length of the vector with parts `a` and `b`, which are divided by `scale` before they are
squared. -/
def scaledNorm (scale a b : ρ) : ρ :=
  let sa := a / scale
  let sb := b / scale
  scale * RealScalar.sqrt (sa * sa + sb * sb)

/-- The rotation that zeroes `b`. The result `r` has the sign of the number with the larger
absolute value, and of `b` if there is none. -/
def real (a b : ρ) : ρ × ρ :=
  let scale := RealScalar.abs a + RealScalar.abs b
  if scale == 0 then (1, 0)
  else
    let roe := if RealScalar.abs b < RealScalar.abs a then a else b
    let norm := scaledNorm scale a b
    let r := if roe < 0 then -norm else norm
    (a / r, b / r)

/-- The rotation with a real cosine that zeroes a complex `b`. -/
def complex (a b : Complex ρ) : ρ × Complex ρ :=
  let absA := Scalar.modulus a
  if absA == 0 then (0, 1)
  else
    let absB := Scalar.modulus b
    let norm := scaledNorm (absA + absB) absA absB
    let phase := Scalar.mulReal a (1 / absA)
    (absA / norm, Scalar.mulReal (phase * Scalar.conj b) (1 / norm))

end Givens

end Strided
