import Strided.Event
import Strided.Operation.Table
import Strided.Staged
import Strided.View

/-! # Selected kernels

`select` looks up the kernel of an operation for a precision. The selection then carries a call
through: it resolves the options with the length rule of the row, says in one event how that came
out, and stages the arguments that the operation lends, each by its role in the row. -/

namespace Strided

/-- An operation with its kernel for a precision. -/
structure Selection where
  operation : Operation
  precision : Precision
  kernel : String
  deriving DecidableEq

/-- The kernel of an operation for a precision. -/
def select (op : Operation) (precision : Precision) : Except Error Selection :=
  match op.row.kernel precision with
  | some kernel => .ok ⟨op, precision, kernel⟩
  | none => .error (.unsupportedPrecision op.row.name precision)

namespace Selection

/-- The row of the table. -/
def row (s : Selection) : Row := s.operation.row

/-- The rule of the default length; the inclusive one if the row has none. -/
def lengthRule (s : Selection) : LengthRule := s.row.lengthRule.getD .inclusive

/-- The event of a refused call. -/
def rejected (s : Selection) (e : Error) : Event := .rejected s.row.name s.kernel e.message

/-- The event of a call with resolved options. -/
def begun (s : Selection) (r : Resolved) : Event :=
  if r.isNoop then .skipped s.row.name s.kernel
  else .dispatched s.row.name s.kernel s.precision r.n s.row.mutation s.row.returns

/-- The event of a call on scalars. -/
def begunScalars (s : Selection) : Event :=
  .dispatchedScalars s.row.name s.kernel s.precision s.row.returns

/-- Resolve the options of a call, with the event that tells the outcome. -/
def prepare? (s : Selection) (n : Option UInt64) (operands : List Operand) :
    Option (Except Error Resolved × Event) :=
  (resolve s.lengthRule n operands).map fun
    | .error e => (.error e, s.rejected e)
    | .ok r => (.ok r, s.begun r)

/-- Stage a buffer as argument `k`. -/
def stage? {α : Type} (s : Selection) (k : Nat) (lending : Lending) (buffer : Buffer α) :
    Option (Staged α) :=
  s.row.args[k]?.map fun a => Staged.ofBuffer a.role lending buffer

/-- What the kernel works on as argument `k`. A buffer that is not staged is there as it is, with
nothing between it and the kernel. -/
def pass? {α : Type} (s : Selection) (k : Nat) (passing : Passing) (buffer : Buffer α) :
    Option (Staged α) :=
  match passing with
  | .direct => some (.inPlace buffer)
  | .staged lending => s.stage? k lending buffer

end Selection

end Strided
