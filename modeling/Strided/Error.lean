import Strided.Precision

/-! # Errors

The four reasons to refuse a call, and the wording of each. -/

namespace Strided

/-- Why a call is refused. -/
inductive Error
  /-- The increment of an argument is zero. -/
  | invalidStride (arg : String)
  /-- The offset of an argument lies outside its buffer. -/
  | invalidOffset (arg : String) (offset : Int64) (len : UInt64)
  /-- The window of an argument ends outside its buffer. -/
  | vectorTooShort (arg : String) (n offset : UInt64) (inc : Int64) (len : UInt64)
  /-- The operation has no kernel for the precision. -/
  | unsupportedPrecision (op : String) (precision : Precision)
  deriving DecidableEq

/-- A word in decimal digits. -/
def decimal (n : UInt64) : String := toString n.toNat

/-- A signed word in decimal digits, with a minus sign if it is negative. -/
def signedDecimal (i : Int64) : String := toString i.toInt

namespace Error

/-- The text of an error. -/
def message : Error → String
  | invalidStride arg =>
    "invalid stride for `" ++ arg ++ "`: increment must be nonzero"
  | invalidOffset arg offset len =>
    "invalid offset " ++ signedDecimal offset ++ " for `" ++ arg ++
      "`: expected 0 <= offset < " ++ decimal len
  | vectorTooShort arg n offset inc len =>
    "`" ++ arg ++ "` too short: n=" ++ decimal n ++ ", offset=" ++ decimal offset ++
      ", inc=" ++ signedDecimal inc ++ " reaches past " ++ decimal len ++ " elements"
  | unsupportedPrecision op precision =>
    "operation `" ++ op ++ "` has no " ++ precision.name ++ " kernel"

end Error

end Strided
