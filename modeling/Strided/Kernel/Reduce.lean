import Strided.Grouping
import Strided.Scalar.Basic
import Strided.View

/-! # Reductions

A reduction reads the elements of its views in logical order and folds them. A sum over many
elements that lie side by side reads them as blocks and is formed under a schedule; all other sums
are formed one by one from zero. -/

namespace Strided

namespace Kernel

variable {α ρ : Type} [RealScalar ρ] [Scalar α ρ]

/-- Contiguous sums of at least this many terms are formed under the schedule. -/
def longLength : Nat := 16384

/-- The elements of a view as a block, if they lie side by side and are many. -/
def longBlock? (v : View α) : Option (Option (Array α)) := do
  return (← v.contiguous?).filter fun block => longLength ≤ block.size

/-- The products of elements side by side, the first of each mapped by `f`. -/
def products (f : α → α) (xs ys : List α) : List α := List.zipWith (fun a b => f a * b) xs ys

/-- The sum of `f x_i * y_i`. -/
def dotWith (plan : Schedule) (f : α → α) (x y : View α) : Option α := do
  match ← longBlock? x, ← y.contiguous? with
  | some xs, some ys => return plan.reduce (· + ·) 0 (products f xs.toList ys.toList)
  | _, _ => return (products f (← x.elements?) (← y.elements?)).foldl (· + ·) 0

/-- The dot product. -/
def dot (plan : Schedule) (x y : View α) : Option α := dotWith plan id x y

/-- The dot product with `x` conjugated. -/
def dotc (plan : Schedule) (x y : View α) : Option α := dotWith plan Scalar.conj x y

/-- The sum of the magnitudes. -/
def asum (plan : Schedule) (x : View α) : Option ρ := do
  match ← longBlock? x with
  | some xs => return plan.reduce (· + ·) 0 (xs.toList.map Scalar.abs1)
  | none => return ((← x.elements?).map Scalar.abs1).foldl (· + ·) 0

/-- A sum of squares as `scale² * ssq`, where `scale` is the largest absolute value. -/
structure ScaledSquares (ρ : Type) where
  scale : ρ
  ssq : ρ

namespace ScaledSquares

/-- The empty sum. -/
def zero : ScaledSquares ρ := ⟨0, 1⟩

/-- Add the square of a number; zero is passed over. -/
def add (s : ScaledSquares ρ) (part : ρ) : ScaledSquares ρ :=
  if part == 0 then s
  else
    let a := RealScalar.abs part
    if s.scale < a then
      let q := s.scale / a
      ⟨a, 1 + s.ssq * q * q⟩
    else
      let q := a / s.scale
      ⟨s.scale, s.ssq + q * q⟩

/-- The square root of the sum. -/
def root (s : ScaledSquares ρ) : ρ := s.scale * RealScalar.sqrt s.ssq

end ScaledSquares

/-- The real and imaginary parts of all elements. -/
def parts (xs : List α) : List ρ := xs.flatMap fun v => [Scalar.re v, Scalar.im v]

/-- The Euclidean norm of a list of elements. -/
def norm (xs : List α) : ρ := ((parts xs).foldl ScaledSquares.add ScaledSquares.zero).root

/-- The Euclidean norm. -/
def nrm2 (x : View α) : Option ρ := do
  let xs ← x.elements?
  return norm xs

/-- The position, counted from one, and the size of the largest magnitude so far; zero at first. -/
structure Peak (ρ : Type) where
  position : Nat
  size : ρ

namespace Peak

/-- No magnitude so far. -/
def zero : Peak ρ := ⟨0, 0⟩

/-- Take magnitude `m` with number `i`, counted from zero, into account: the first is always taken,
a later one only if it is larger. -/
def add (p : Peak ρ) (m : ρ × Nat) : Peak ρ :=
  if p.position = 0 ∨ p.size < m.1 then ⟨m.2 + 1, m.1⟩ else p

end Peak

/-- The first position, counted from one, of the largest magnitude in a list; zero for the empty
list. -/
def firstPeak (ms : List ρ) : Nat := (ms.zipIdx.foldl Peak.add Peak.zero).position

/-- The first position, counted from one, of the largest magnitude. -/
def iamax (x : View α) : Option Nat := do
  let xs ← x.elements?
  return firstPeak (xs.map Scalar.abs1)

/-- A position counted from one as one counted from zero; zero stands for none. -/
def zeroBased : Nat → Option Nat
  | 0 => none
  | k + 1 => some k

end Kernel

/-- The position that a call reports when its kernel found position `k`, counted from one. -/
def Resolved.reported? (r : Resolved) (k : Nat) : Option Nat :=
  if r.isNoop then none else Kernel.zeroBased k

end Strided
