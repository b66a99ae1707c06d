import Strided.Buffer
import Strided.Operation

/-! # Staged storage

A kernel writes into staged storage: the buffer of the caller itself, or a private copy of it. Which
one it is follows from the role of the argument and from how the buffer was lent. A buffer that is
only read need not be staged. -/

namespace Strided

/-- How a caller lends a buffer. -/
inductive Lending
  /-- For reading. -/
  | shared
  /-- For reading and writing. -/
  | exclusive
  deriving DecidableEq

/-- How an operation passes a buffer of its caller on to its kernel. -/
inductive Passing
  /-- The kernel reads the buffer itself. -/
  | direct
  /-- The buffer is lent in this way and staged. -/
  | staged (lending : Lending)
  deriving DecidableEq

/-- The storage that a kernel works on. -/
inductive Staged (α : Type)
  /-- The buffer of the caller. -/
  | inPlace (buffer : Buffer α)
  /-- A copy beside the buffer of the caller. -/
  | copied (lent copy : Buffer α)

namespace Staged

variable {α : Type}

/-- Stage a buffer. An argument that is copied and returned is copied in any case; any other is
written in place if it was lent for that. -/
def ofBuffer (role : Role) (lending : Lending) (buffer : Buffer α) : Staged α :=
  match role, lending with
  | .copyThenReturn, _ => .copied buffer buffer
  | _, .exclusive => .inPlace buffer
  | _, .shared => .copied buffer buffer

/-- The staged values. -/
def values : Staged α → Buffer α
  | inPlace b => b
  | copied _ c => c

/-- The buffer of the caller. -/
def caller : Staged α → Buffer α
  | inPlace b => b
  | copied b _ => b

/-- Whether the storage is the buffer of the caller. -/
def isInPlace : Staged α → Bool
  | inPlace _ => true
  | copied _ _ => false

/-- Replace the staged values. -/
def put : Staged α → Buffer α → Staged α
  | inPlace _, v => inPlace v
  | copied b _, v => copied b v

/-- Write one cell of the staged storage. -/
def write? (s : Staged α) (i : Nat) (a : α) : Option (Staged α) :=
  (s.values.set? i a).map s.put

/-- Write cells of the staged storage one after the other. -/
def writeAll? (s : Staged α) (writes : List (Nat × α)) : Option (Staged α) :=
  writes.foldlM (fun s w => s.write? w.1 w.2) s

@[simp] theorem values_put (s : Staged α) (v : Buffer α) : (s.put v).values = v := by
  cases s <;> rfl

@[simp] theorem isInPlace_put (s : Staged α) (v : Buffer α) :
    (s.put v).isInPlace = s.isInPlace := by
  cases s <;> rfl

@[simp] theorem values_ofBuffer (role : Role) (lending : Lending) (b : Buffer α) :
    (ofBuffer role lending b).values = b := by
  cases role <;> cases lending <;> rfl

@[simp] theorem caller_ofBuffer (role : Role) (lending : Lending) (b : Buffer α) :
    (ofBuffer role lending b).caller = b := by
  cases role <;> cases lending <;> rfl

end Staged

end Strided
