import Strided.Operation

/-! # The operation table

One row for each operation, in the order of `Operation.all`. Kernel names follow the custom of the
field: a letter for the precision (`s`, `d`, `c`, `z`), two where the result or a factor is real. -/

namespace Strided

/-- Kernels for all precisions, in column order. -/
def kernels (s d c z : String) : Precision → Option String
  | .real32 => some s
  | .real64 => some d
  | .complex32 => some c
  | .complex64 => some z

/-- Kernels for the real precisions only. -/
def realKernels (s d : String) : Precision → Option String
  | .real32 => some s
  | .real64 => some d
  | _ => none

/-- Kernels for the complex precisions only. -/
def complexKernels (c z : String) : Precision → Option String
  | .complex32 => some c
  | .complex64 => some z
  | _ => none

namespace Operation

/-- All operations in table order. -/
def all : List Operation :=
  [rotg, rotmg, rot, rotInPlace, rotm, rotmInPlace, swap, scal, scalReal, copy, axpy, dot, dotu,
    dotc, nrm2, asum, iamax]

/-- The row of an operation. -/
def row : Operation → Row
  | rotg => {
      name := "rotg"
      kernel := kernels "srotg" "drotg" "crotg" "zrotg"
      args := []
      mutation := .untouched
      returns := .cosSin
      lengthRule := none }
  | rotmg => {
      name := "rotmg"
      kernel := realKernels "srotmg" "drotmg"
      args := [⟨"param", .outputOnly⟩]
      mutation := .untouched
      returns := .params
      lengthRule := none }
  | rot => {
      name := "rot"
      kernel := kernels "srot" "drot" "csrot" "zdrot"
      args := [⟨"x", .copyThenReturn⟩, ⟨"y", .copyThenReturn⟩]
      mutation := .copyThenReturn
      returns := .vectors
      lengthRule := some .inclusive }
  | rotInPlace => {
      name := "rot_in_place"
      kernel := kernels "srot" "drot" "csrot" "zdrot"
      args := [⟨"x", .readWrite⟩, ⟨"y", .readWrite⟩]
      mutation := .inPlace
      returns := .unit
      lengthRule := some .inclusive }
  | rotm => {
      name := "rotm"
      kernel := realKernels "srotm" "drotm"
      args := [⟨"x", .copyThenReturn⟩, ⟨"y", .copyThenReturn⟩]
      mutation := .copyThenReturn
      returns := .vectors
      lengthRule := some .exclusive }
  | rotmInPlace => {
      name := "rotm_in_place"
      kernel := realKernels "srotm" "drotm"
      args := [⟨"x", .readWrite⟩, ⟨"y", .readWrite⟩]
      mutation := .inPlace
      returns := .unit
      lengthRule := some .exclusive }
  | swap => {
      name := "swap"
      kernel := kernels "sswap" "dswap" "cswap" "zswap"
      args := [⟨"x", .readWrite⟩, ⟨"y", .readWrite⟩]
      mutation := .inPlace
      returns := .unit
      lengthRule := some .inclusive }
  | scal => {
      name := "scal"
      kernel := kernels "sscal" "dscal" "cscal" "zscal"
      args := [⟨"x", .readWrite⟩]
      mutation := .inPlace
      returns := .unit
      lengthRule := some .inclusive }
  | scalReal => {
      name := "scal_real"
      kernel := complexKernels "csscal" "zdscal"
      args := [⟨"x", .copyThenReturn⟩]
      mutation := .copyThenReturn
      returns := .vectors
      lengthRule := some .inclusive }
  | copy => {
      name := "copy"
      kernel := kernels "scopy" "dcopy" "ccopy" "zcopy"
      args := [⟨"x", .readOnly⟩, ⟨"y", .readWrite⟩]
      mutation := .inPlace
      returns := .unit
      lengthRule := some .inclusive }
  | axpy => {
      name := "axpy"
      kernel := kernels "saxpy" "daxpy" "caxpy" "zaxpy"
      args := [⟨"x", .readOnly⟩, ⟨"y", .readWrite⟩]
      mutation := .inPlace
      returns := .unit
      lengthRule := some .inclusive }
  | dot => {
      name := "dot"
      kernel := realKernels "sdot" "ddot"
      args := [⟨"x", .readOnly⟩, ⟨"y", .readOnly⟩]
      mutation := .untouched
      returns := .scalar
      lengthRule := some .inclusive }
  | dotu => {
      name := "dotu"
      kernel := complexKernels "cdotu" "zdotu"
      args := [⟨"x", .readOnly⟩, ⟨"y", .readOnly⟩]
      mutation := .untouched
      returns := .scalar
      lengthRule := some .inclusive }
  | dotc => {
      name := "dotc"
      kernel := complexKernels "cdotc" "zdotc"
      args := [⟨"x", .readOnly⟩, ⟨"y", .readOnly⟩]
      mutation := .untouched
      returns := .scalar
      lengthRule := some .inclusive }
  | nrm2 => {
      name := "nrm2"
      kernel := kernels "snrm2" "dnrm2" "scnrm2" "dznrm2"
      args := [⟨"x", .readOnly⟩]
      mutation := .untouched
      returns := .realScalar
      lengthRule := some .inclusive }
  | asum => {
      name := "asum"
      kernel := kernels "sasum" "dasum" "scasum" "dzasum"
      args := [⟨"x", .readOnly⟩]
      mutation := .untouched
      returns := .realScalar
      lengthRule := some .inclusive }
  | iamax => {
      name := "iamax"
      kernel := kernels "isamax" "idamax" "icamax" "izamax"
      args := [⟨"x", .readOnly⟩]
      mutation := .untouched
      returns := .index
      lengthRule := some .inclusive }

/-- The number of the row of an operation. -/
def index (op : Operation) : Nat := all.idxOf op

/-- The capitalized name of an operation. -/
def title : Operation → String
  | rotg => "Rotg"
  | rotmg => "Rotmg"
  | rot => "Rot"
  | rotInPlace => "RotInPlace"
  | rotm => "Rotm"
  | rotmInPlace => "RotmInPlace"
  | swap => "Swap"
  | scal => "Scal"
  | scalReal => "ScalReal"
  | copy => "Copy"
  | axpy => "Axpy"
  | dot => "Dot"
  | dotu => "Dotu"
  | dotc => "Dotc"
  | nrm2 => "Nrm2"
  | asum => "Asum"
  | iamax => "Iamax"

/-- The operation with a name. -/
def ofName? (name : String) : Option Operation := all.find? fun op => op.row.name == name

theorem mem_all (op : Operation) : op ∈ all := by cases op <;> decide

end Operation

end Strided
