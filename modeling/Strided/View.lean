import Strided.Buffer
import Strided.Window

/-! # Views

A view is a window of `n` elements over a buffer. Element `i` lies `i * |inc|` cells after the
offset if the increment is positive, and `(n - 1 - i) * |inc|` cells after it if it is negative: the
window occupies the same cells for either sign, and a negative increment visits them from the far
end.

The number of an element is not compared with `n`. With a positive increment an element past the
window is a cell further on, if the buffer has it; what lies outside the buffer, or at a position
that is negative or that no word holds, has no value. -/

namespace Strided

/-- How far after the offset element `i` of `n` lies. -/
def position? (i n : UInt64) (inc : Int64) : Option UInt64 :=
  if 0 < inc then Word.mul? i (Word.magnitude inc)
  else do
    let last ← Word.sub? n 1
    let back ← Word.sub? last i
    Word.mul? back (Word.magnitude inc)

/-- A window of a buffer. -/
@[ext] structure View (α : Type) where
  buffer : Buffer α
  offset : UInt64
  n : UInt64
  inc : Int64

namespace View

variable {α : Type}

/-- The cell of element `i`. -/
def cell? (v : View α) (i : UInt64) : Option Nat :=
  (position? i v.n v.inc).map fun p => v.offset.toNat + p.toNat

/-- Element `i`. -/
def get? (v : View α) (i : UInt64) : Option α := do
  v.buffer.get? (← v.cell? i)

/-- Replace element `i`. -/
def set? (v : View α) (i : UInt64) (a : α) : Option (View α) := do
  let buffer ← v.buffer.set? (← v.cell? i) a
  return { v with buffer }

/-- Replace element `i` by its image. -/
def update? (v : View α) (i : UInt64) (f : α → α) : Option (View α) := do
  let a ← v.get? i
  v.set? i (f a)

/-- The numbers of the elements. -/
def indices (v : View α) : List UInt64 := (List.range v.n.toNat).map UInt64.ofNat

/-- The elements in logical order. -/
def elements? (v : View α) : Option (List α) := v.indices.mapM v.get?

/-- Whether the elements lie side by side, in order. -/
def isContiguous (v : View α) : Bool := v.inc == 1

/-- The `n` cells from the offset on. -/
def block? (v : View α) : Option (Array α) := v.buffer.slice? v.offset.toNat v.n.toNat

/-- Replace the `n` cells from the offset on. -/
def setBlock? (v : View α) (block : Array α) : Option (View α) :=
  if block.size = v.n.toNat then do
    let buffer ← v.buffer.splice? v.offset.toNat block
    return { v with buffer }
  else none

/-- The elements as a block of cells, if they lie side by side; `some none` if they do not. -/
def contiguous? (v : View α) : Option (Option (Array α)) :=
  if v.isContiguous then v.block?.map some else some none

end View

namespace Window

/-- The view of `n` elements through a window. The offset must not lie past the end of the buffer,
the increment must not be zero, and the last element must lie in the buffer. -/
def view? {α : Type} (w : Window) (n : UInt64) (buffer : Buffer α) : Option (View α) :=
  if w.offset ≤ buffer.len ∧ w.inc ≠ 0 ∧ w.fits n buffer.len then
    some ⟨buffer, w.offset, n, w.inc⟩
  else none

end Window

namespace Resolved

/-- The view through window `k`. -/
def view? {α : Type} (r : Resolved) (k : Nat) (buffer : Buffer α) : Option (View α) := do
  (← r.windows[k]?).view? r.n buffer

end Resolved

/-! ### Single actions on a view -/

/-- An action on one element. -/
inductive Action (α : Type)
  | get (i : UInt64)
  | set (i : UInt64) (a : α)
  | update (i : UInt64) (f : α → α)

/-- What an action gives. -/
inductive Reply (α : Type)
  | value (a : α)
  | done
  /-- The element has no cell; nothing was changed. -/
  | fault

namespace View

variable {α : Type}

/-- The view after a change, or the same view if there was none. -/
def settle (v : View α) : Option (View α) → Reply α × View α
  | some w => (.done, w)
  | none => (.fault, v)

/-- Perform one action. -/
def perform (v : View α) : Action α → Reply α × View α
  | .get i =>
    match v.get? i with
    | some a => (.value a, v)
    | none => (.fault, v)
  | .set i a => v.settle (v.set? i a)
  | .update i f => v.settle (v.update? i f)

end View

end Strided
