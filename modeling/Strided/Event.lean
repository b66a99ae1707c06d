import Strided.Error
import Strided.Operation

/-! # Log events

Every call of an operation that has a kernel leaves one event in the log. -/

namespace Strided

/-- How important an event is. -/
inductive Level
  | debug
  | trace
  deriving DecidableEq

/-- What happened to a call. -/
inductive Event
  /-- A kernel runs on vectors of `n` elements. -/
  | dispatched (op kernel : String) (precision : Precision) (n : UInt64) (mutation : Mutation)
      (returns : Returns)
  /-- A kernel runs on scalars. -/
  | dispatchedScalars (op kernel : String) (precision : Precision) (returns : Returns)
  /-- There is no element, and no kernel runs. -/
  | skipped (op kernel : String)
  /-- The arguments are refused, with the text of the error. -/
  | rejected (op kernel : String) (error : String)
  deriving DecidableEq

/-- A value that an event carries. -/
inductive Event.Value
  | text (s : String)
  | count (n : UInt64)
  deriving DecidableEq

namespace Level

def title : Level → String
  | debug => "DEBUG"
  | trace => "TRACE"

end Level

namespace Event

def level : Event → Level
  | skipped .. => .trace
  | _ => .debug

def message : Event → String
  | dispatched .. => "dispatch"
  | dispatchedScalars .. => "dispatch"
  | skipped .. => "n == 0, kernel skipped"
  | rejected .. => "argument validation failed"

/-- The named values of an event. -/
def fields : Event → List (String × Value)
  | dispatched op kernel precision n mutation returns =>
    [("op", .text op), ("kernel", .text kernel), ("precision", .text precision.name),
      ("n", .count n), ("mutation", .text mutation.title), ("returns", .text returns.title)]
  | dispatchedScalars op kernel precision returns =>
    [("op", .text op), ("kernel", .text kernel), ("precision", .text precision.name),
      ("returns", .text returns.title)]
  | skipped op kernel => [("op", .text op), ("kernel", .text kernel)]
  | rejected op kernel error => [("op", .text op), ("kernel", .text kernel), ("error", .text error)]

end Event

end Strided
