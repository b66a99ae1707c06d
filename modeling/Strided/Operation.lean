import Strided.LengthRule
import Strided.Precision

/-! # Operations

The seventeen operations, and what the table says of each in one `Row`: its kernels, how it treats
its arguments, what it hands back, and how its default length is found. -/

namespace Strided

inductive Operation
  /-- Find a plane rotation that zeroes the second of two numbers. -/
  | rotg
  /-- Find a modified rotation that zeroes the second of two weighted numbers. -/
  | rotmg
  /-- Rotate copies of two vectors. -/
  | rot
  /-- Rotate two vectors. -/
  | rotInPlace
  /-- Apply a modified rotation to copies of two vectors. -/
  | rotm
  /-- Apply a modified rotation to two vectors. -/
  | rotmInPlace
  /-- Exchange two vectors. -/
  | swap
  /-- Scale a vector. -/
  | scal
  /-- Scale a copy of a complex vector by a real factor. -/
  | scalReal
  /-- Copy a vector into another. -/
  | copy
  /-- Add a multiple of a vector to another. -/
  | axpy
  /-- The dot product of real vectors. -/
  | dot
  /-- The dot product of complex vectors without conjugation. -/
  | dotu
  /-- The dot product of complex vectors, the first one conjugated. -/
  | dotc
  /-- The Euclidean norm. -/
  | nrm2
  /-- The sum of magnitudes. -/
  | asum
  /-- The first position of the largest magnitude. -/
  | iamax
  deriving DecidableEq

/-- How an operation treats one argument. -/
inductive Role
  | readOnly
  | readWrite
  /-- The argument is copied; the copy is changed and returned. -/
  | copyThenReturn
  | outputOnly
  deriving DecidableEq

namespace Role

def title : Role → String
  | readOnly => "ReadOnly"
  | readWrite => "ReadWrite"
  | copyThenReturn => "CopyThenReturn"
  | outputOnly => "OutputOnly"

end Role

/-- What an operation does to the buffers of its caller. -/
inductive Mutation
  /-- No buffer is written. -/
  | untouched
  /-- Buffers are written directly. -/
  | inPlace
  /-- Copies are written and returned. -/
  | copyThenReturn
  deriving DecidableEq

namespace Mutation

def title : Mutation → String
  | untouched => "None"
  | inPlace => "InPlace"
  | copyThenReturn => "CopyThenReturn"

end Mutation

/-- What an operation hands back. -/
inductive Returns
  | unit
  | scalar
  /-- A real number, for complex vectors too. -/
  | realScalar
  /-- A position counted from zero. -/
  | index
  /-- The changed copies. -/
  | vectors
  /-- The cosine and the sine of a rotation. -/
  | cosSin
  /-- The five numbers of a modified rotation. -/
  | params
  deriving DecidableEq

namespace Returns

def title : Returns → String
  | unit => "Unit"
  | scalar => "Scalar"
  | realScalar => "RealScalar"
  | index => "Index"
  | vectors => "Vectors"
  | cosSin => "CosSin"
  | params => "Params"

end Returns

namespace LengthRule

def title : LengthRule → String
  | inclusive => "Inclusive"
  | exclusive => "Exclusive"

end LengthRule

/-- The name of an argument and how it is treated. -/
structure Argument where
  name : String
  role : Role
  deriving DecidableEq

/-- What the table says of one operation. -/
structure Row where
  /-- The name of the operation in messages. -/
  name : String
  /-- The name of the kernel for a precision. -/
  kernel : Precision → Option String
  /-- The vector arguments. -/
  args : List Argument
  mutation : Mutation
  returns : Returns
  /-- The rule of the default length, for an operation on vectors. -/
  lengthRule : Option LengthRule

namespace Row

/-- The precisions with a kernel. -/
def supported (r : Row) : PrecisionSet := PrecisionSet.filter fun p => (r.kernel p).isSome

end Row

end Strided
