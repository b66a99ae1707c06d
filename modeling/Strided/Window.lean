import Strided.Error
import Strided.LengthRule
import Strided.Options

/-! # Windows and their resolution

A window is an offset and a nonzero increment. Its `n` elements lie in the cells
`offset, offset + |inc|, …, offset + (n - 1) * |inc|`, for either sign of the increment.

`resolve` turns the options of a call into one length and one window per vector, or into the error
of the call. It first checks the increment and then the offset of each operand, in order; then it
finds the length, from the first operand if none is given; then it checks that every window ends
inside its buffer, in order. Nothing is computed in more than 64 bits: a window whose end no word
holds is too long for every buffer. -/

namespace Strided

/-- A vector argument as the resolver sees it. -/
structure Operand where
  name : String
  /-- The number of cells of the buffer. -/
  len : UInt64
  opts : VectorOptions

/-- Where the elements of a vector lie in its buffer. -/
structure Window where
  offset : UInt64
  inc : Int64
  deriving DecidableEq

/-- The length of a call and the windows of its vectors. -/
structure Resolved where
  n : UInt64
  windows : List Window
  deriving DecidableEq

/-! ### Checks -/

/-- The increment, `1` if it is not given; zero is refused. -/
def checkIncrement (arg : String) (inc : Option Int64) : Except Error Int64 :=
  if inc.getD 1 = 0 then .error (.invalidStride arg) else .ok (inc.getD 1)

/-- The offset, `0` if it is not given; it must be the number of a cell. -/
def checkOffset (arg : String) (offset : Option Int64) (len : UInt64) : Except Error UInt64 :=
  match (Word.ofSigned? (offset.getD 0)).filter (· < len) with
  | some o => .ok o
  | none => .error (.invalidOffset arg (offset.getD 0) len)

namespace Window

/-- Whether the last of `n` elements lies in a buffer of `len` cells. -/
def fits (w : Window) (n len : UInt64) : Bool :=
  n == 0 || (Word.mul? (n - 1) (Word.magnitude w.inc)).any (· < Word.monus len w.offset)

/-- Refuse a window that does not end inside its buffer. -/
def checkExtent (w : Window) (arg : String) (n len : UInt64) : Except Error Unit :=
  if w.fits n len then .ok () else .error (.vectorTooShort arg n w.offset w.inc len)

end Window

/-! ### Resolution -/

namespace Operand

/-- The window that the options of an operand ask for. -/
def window (o : Operand) : Except Error Window := do
  let inc ← checkIncrement o.name o.opts.inc
  let offset ← checkOffset o.name o.opts.offset o.len
  return ⟨offset, inc⟩

end Operand

/-- The length of a call: the given one, else the default length of the first operand, else zero. -/
def commonLength? (rule : LengthRule) (n : Option UInt64) (operands : List Operand)
    (windows : List Window) : Option UInt64 :=
  match n, operands, windows with
  | some n, _, _ => some n
  | none, o :: _, w :: _ => rule.defaultLength? o.len w.offset w.inc
  | none, _, _ => some 0

/-- Check that the windows of all operands fit. -/
def checkExtents (n : UInt64) (operands : List Operand) (windows : List Window) :
    Except Error Unit :=
  (operands.zip windows).forM fun (o, w) => w.checkExtent o.name n o.len

/-- **The length and the windows of a call.** There is no outcome if the default length has no
value. -/
def resolve (rule : LengthRule) (n : Option UInt64) (operands : List Operand) :
    Option (Except Error Resolved) :=
  match operands.mapM Operand.window with
  | .error e => some (.error e)
  | .ok windows =>
    match commonLength? rule n operands windows with
    | none => none
    | some n =>
      match checkExtents n operands windows with
      | .error e => some (.error e)
      | .ok () => some (.ok ⟨n, windows⟩)

/-- The operand of an operation on one vector. -/
def unaryOperands (len : UInt64) (opts : UnaryOptions) : List Operand :=
  [⟨"x", len, opts.x⟩]

/-- The operands of an operation on two vectors. -/
def binaryOperands (xLen yLen : UInt64) (opts : BinaryOptions) : List Operand :=
  [⟨"x", xLen, opts.x⟩, ⟨"y", yLen, opts.y⟩]

/-- Resolve the options of an operation on one vector. -/
def resolveUnary (rule : LengthRule) (len : UInt64) (opts : UnaryOptions) :
    Option (Except Error Resolved) :=
  resolve rule opts.n (unaryOperands len opts)

/-- Resolve the options of an operation on two vectors. -/
def resolveBinary (rule : LengthRule) (xLen yLen : UInt64) (opts : BinaryOptions) :
    Option (Except Error Resolved) :=
  resolve rule opts.n (binaryOperands xLen yLen opts)

/-! ### Text -/

namespace Window

/-- The text of a window. -/
def render (w : Window) : String :=
  "Window \x7b offset: " ++ decimal w.offset ++ ", inc: " ++ signedDecimal w.inc ++ " \x7d"

end Window

namespace Resolved

/-- Whether there is nothing to do. -/
def isNoop (r : Resolved) : Bool := r.n == 0

/-- The text of a resolution. -/
def render (r : Resolved) : String :=
  "Resolved \x7b n: " ++ decimal r.n ++ ", windows: [" ++
    ", ".intercalate (r.windows.map Window.render) ++ "] \x7d"

end Resolved

end Strided
