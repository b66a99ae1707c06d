import Strided.Scalar.Basic

/-! # Modified rotations

A modified rotation is a matrix `h` that sends a pair `(w, z)` to `(h11 w + h12 z, h21 w + h22 z)`
and is used with weights `d1, d2` that change along with it: the sum `d1 w² + d2 z²` stays the same.
Two of the entries are often `1`, or `1` and `-1`; a flag tells which, and they are not stored.

`setup?` finds the modified rotation that zeroes `y1` beside `x1`. It avoids square roots; instead
the weights drift, and they are brought back between `2^-24` and `2^24` by factors of `2^24`, with
the factor `2^12` in the matrix. `settle?` repeats such a step until there is nothing to do; for
floating-point weights this may never be, since an infinite weight stays infinite. -/

namespace Strided

/-- Which entries of the matrix are stored. -/
inductive Form
  /-- The matrix is the identity, and nothing is stored. -/
  | identity
  /-- All entries. -/
  | full
  /-- The entries `h21` and `h12`; the diagonal is one. -/
  | unitDiagonal
  /-- The entries `h11` and `h22`; `h12` is one and `h21` minus one. -/
  | unitAntidiagonal
  deriving DecidableEq

/-- A modified rotation as a flag and four entries. -/
structure Params (ρ : Type) where
  flag : ρ
  h11 : ρ
  h21 : ρ
  h12 : ρ
  h22 : ρ

variable {α ρ : Type} [RealScalar ρ]

namespace Form

/-- The flag of a form. -/
def flag : Form → ρ
  | identity => -(1 + 1)
  | full => -1
  | unitDiagonal => 0
  | unitAntidiagonal => 1

/-- The form that a flag stands for. Every number is the flag of some form. -/
def ofFlag (flag : ρ) : Form :=
  if flag == -(1 + 1) then identity
  else if flag < 0 then full
  else if flag == 0 then unitDiagonal
  else unitAntidiagonal

end Form

namespace Params

/-- The form of the matrix. -/
def form (p : Params ρ) : Form := Form.ofFlag p.flag

/-- The image of a pair. -/
def apply [Scalar α ρ] (p : Params ρ) (w z : α) : α × α :=
  match p.form with
  | .identity => (w, z)
  | .full =>
    (w * Scalar.ofReal p.h11 + z * Scalar.ofReal p.h12,
      w * Scalar.ofReal p.h21 + z * Scalar.ofReal p.h22)
  | .unitDiagonal => (w + z * Scalar.ofReal p.h12, w * Scalar.ofReal p.h21 + z)
  | .unitAntidiagonal => (w * Scalar.ofReal p.h11 + z, -w + Scalar.ofReal p.h22 * z)

end Params

/-- Repeat a step until it has nothing to do. There is no result if it always has. -/
def settle? {σ : Type} (step : σ → Option σ) (s : σ) : Option σ :=
  match step s with
  | none => some s
  | some t => (settle? (s := t)) step
partial_fixpoint

/-- A modified rotation in the making: the weights and the matrix. -/
structure Weighted (ρ : Type) where
  d1 : ρ
  d2 : ρ
  form : Form
  h11 : ρ
  h21 : ρ
  h12 : ρ
  h22 : ρ

namespace Weighted

/-- The factor of the matrix in one rescaling. -/
def gam : ρ := RealScalar.twoPow 12

/-- The factor of a weight in one rescaling, and the upper bound of the weights. -/
def gamSq : ρ := RealScalar.twoPow 24

/-- The lower bound of the weights. -/
def rgamSq : ρ := 1 / RealScalar.twoPow 24

/-- Weights with a matrix of which nothing is stored. -/
def blank (d1 d2 : ρ) (form : Form) : Weighted ρ := ⟨d1, d2, form, 0, 0, 0, 0⟩

/-- The modified rotation before its weights are rescaled. -/
def start (d1 d2 x1 y1 : ρ) : Weighted ρ :=
  let p1 := d1 * x1
  let p2 := d2 * y1
  let q1 := p1 * x1
  let q2 := p2 * y1
  if RealScalar.abs q2 < RealScalar.abs q1 then
    let h21 := -y1 / x1
    let h12 := p2 / p1
    let u := 1 - h12 * h21
    if 0 < u then { blank (d1 / u) (d2 / u) .unitDiagonal with h21, h12 }
    else blank 0 0 .full
  else if q2 < 0 then blank 0 0 .full
  else
    let h11 := p1 / p2
    let h22 := x1 / y1
    let u := 1 + h11 * h22
    { blank (d2 / u) (d1 / u) .unitAntidiagonal with h11, h22 }

/-- The same matrix with all entries stored. -/
def expand (s : Weighted ρ) : Weighted ρ :=
  match s.form with
  | .unitDiagonal => { s with form := .full, h11 := 1, h22 := 1 }
  | .unitAntidiagonal => { s with form := .full, h21 := -1, h12 := 1 }
  | _ => { s with form := .full }

/-- One rescaling of the first weight and row, if the weight is out of bounds. -/
def rescaleFirst? (s : Weighted ρ) : Option (Weighted ρ) :=
  let t := s.expand
  if s.d1 ≤ rgamSq then some { t with d1 := s.d1 * gamSq, h11 := t.h11 / gam, h12 := t.h12 / gam }
  else if gamSq ≤ s.d1 then
    some { t with d1 := s.d1 / gamSq, h11 := t.h11 * gam, h12 := t.h12 * gam }
  else none

/-- One rescaling of the second weight and row, if the weight is out of bounds. The second weight
may be negative. -/
def rescaleSecond? (s : Weighted ρ) : Option (Weighted ρ) :=
  let t := s.expand
  if RealScalar.abs s.d2 ≤ rgamSq then
    some { t with d2 := s.d2 * gamSq, h21 := t.h21 / gam, h22 := t.h22 / gam }
  else if gamSq ≤ RealScalar.abs s.d2 then
    some { t with d2 := s.d2 / gamSq, h21 := t.h21 * gam, h22 := t.h22 * gam }
  else none

/-- Bring the first weight between the bounds, unless it is zero. -/
def settleFirst? (s : Weighted ρ) : Option (Weighted ρ) :=
  if s.d1 == 0 then some s else settle? rescaleFirst? s

/-- Bring the second weight between the bounds, unless it is zero. -/
def settleSecond? (s : Weighted ρ) : Option (Weighted ρ) :=
  if s.d2 == 0 then some s else settle? rescaleSecond? s

/-- **The modified rotation that zeroes `y1`, with its weights.** A negative first weight gives the
zero matrix, and a pair that needs no rotation the identity. -/
def make? (d1 d2 x1 y1 : ρ) : Option (Weighted ρ) :=
  if d1 < 0 then some (blank d1 d2 .full)
  else if d2 * y1 == 0 then some (blank d1 d2 .identity)
  else (settleFirst? (start d1 d2 x1 y1)).bind settleSecond?

/-- The flag and the stored entries; the others are written as zero. -/
def params (s : Weighted ρ) : Params ρ :=
  match s.form with
  | .identity => ⟨s.form.flag, 0, 0, 0, 0⟩
  | .full => ⟨s.form.flag, s.h11, s.h21, s.h12, s.h22⟩
  | .unitDiagonal => ⟨s.form.flag, 0, s.h21, s.h12, 0⟩
  | .unitAntidiagonal => ⟨s.form.flag, s.h11, 0, 0, s.h22⟩

end Weighted

namespace Params

/-- The modified rotation that zeroes `y1`, if its weights settle. -/
def setup? (d1 d2 x1 y1 : ρ) : Option (Params ρ) :=
  (Weighted.make? d1 d2 x1 y1).map Weighted.params

end Params

end Strided
