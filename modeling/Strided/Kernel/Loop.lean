import Strided.View

/-! # Loops over views

The element-wise kernels go through the elements in logical order and write as they go. A loop has
no result if one of its reads or writes has none. -/

namespace Strided.View

variable {α : Type}

/-- Replace every element by its image. -/
def mapElements? (f : α → α) (x : View α) : Option (View α) :=
  x.indices.foldlM (fun v i => v.update? i f) x

/-- Replace every element of `y` by its image together with the element of `x` beside it. -/
def updateFrom? (f : α → α → α) (x y : View α) : Option (View α) :=
  x.indices.foldlM (fun v i => do v.update? i (f (← x.get? i))) y

/-- Element `i` of both views replaced by the image of the pair. -/
def updatePair? (f : α → α → α × α) (p : View α × View α) (i : UInt64) :
    Option (View α × View α) := do
  let w ← p.1.get? i
  let z ← p.2.get? i
  let x ← p.1.set? i (f w z).1
  let y ← p.2.set? i (f w z).2
  return (x, y)

/-- Replace every pair of elements by its image. -/
def mapPairs? (f : α → α → α × α) (x y : View α) : Option (View α × View α) :=
  x.indices.foldlM (updatePair? f) (x, y)

end Strided.View
