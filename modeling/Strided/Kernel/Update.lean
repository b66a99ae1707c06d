import Strided.Kernel.Givens
import Strided.Kernel.Loop
import Strided.Kernel.ModifiedGivens

/-! # Element-wise kernels

Each kernel changes the elements of its views one after the other. Scaling and copying treat a
contiguous window as one block. -/

namespace Strided.Kernel

variable {α ρ : Type} [RealScalar ρ] [Scalar α ρ]

/-- Rotate two vectors. -/
def rot (c s : ρ) (x y : View α) : Option (View α × View α) :=
  x.mapPairs? (rotatePair c s) y

/-- Apply a modified rotation to two vectors. -/
def rotm (p : Params ρ) (x y : View α) : Option (View α × View α) :=
  if p.form = .identity then some (x, y) else x.mapPairs? p.apply y

/-- Exchange two vectors. -/
def swap (x y : View α) : Option (View α × View α) :=
  x.mapPairs? (fun w z => (z, w)) y

/-- Multiply a vector by a scalar from the left. -/
def scal (alpha : α) (x : View α) : Option (View α) :=
  if x.isContiguous then do
    let block ← x.block?
    x.setBlock? (block.map (alpha * ·))
  else x.mapElements? (alpha * ·)

/-- Multiply a vector by a real factor. -/
def scalReal (alpha : ρ) (x : View α) : Option (View α) :=
  x.mapElements? (Scalar.mulReal · alpha)

/-- Copy `x` into `y`. -/
def copy (x y : View α) : Option (View α) :=
  if x.isContiguous && y.isContiguous then do
    let block ← x.block?
    y.setBlock? block
  else x.updateFrom? (fun a _ => a) y

/-- Add `alpha` times `x` to `y`; nothing is done if `alpha` is zero. -/
def axpy (alpha : α) (x y : View α) : Option (View α) :=
  if alpha == 0 then some y else x.updateFrom? (fun a b => b + alpha * a) y

end Strided.Kernel
