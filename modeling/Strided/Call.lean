import Strided.Kernel.Reduce
import Strided.Kernel.Update
import Strided.Scalar.Element
import Strided.Selection

/-! # Calls

An operation together with its scalar arguments is a value: `ScalarOp`, `UnaryOp` or `BinaryOp` by
the number of its vectors. Running it on buffers selects the kernel, resolves the options, passes
the buffers on, runs the kernel unless there is no element, and gives an `Outcome`: the buffers of
the caller afterwards, the answer or the error, and the log. How a buffer is passed on and what is
handed back are up to the operation; the row of the table comes in with the length rule and the log,
and with the role of an argument that is staged.

A run has no outcome only if some step has none: a read or write outside a buffer, arithmetic that
no word holds, or weights of a modified rotation that do not settle. -/

namespace Strided

/-- What an operation hands back. -/
inductive Answer (α ρ : Type)
  | done
  | scalar (a : α)
  | real (r : ρ)
  | index (k : Option Nat)
  | vectors (copies : List (Buffer α))
  | cosSin (c : ρ) (s : α)
  | params (p : Params ρ)

/-- What a call leaves behind, with `β` for the buffers. -/
structure Outcome (β α ρ : Type) where
  buffers : β
  answer : Except Error (Answer α ρ)
  events : List Event

/-- An operation on scalars. -/
inductive ScalarOp (α ρ : Type)
  | rotg (a b : α)
  | rotmg (d1 d2 x1 y1 : ρ)

/-- An operation on one vector. -/
inductive UnaryOp (α ρ : Type)
  | scal (alpha : α)
  | scalReal (alpha : ρ)
  | nrm2
  | asum
  | iamax

/-- An operation on two vectors. -/
inductive BinaryOp (α ρ : Type)
  | rot (c s : ρ)
  | rotInPlace (c s : ρ)
  | rotm (p : Params ρ)
  | rotmInPlace (p : Params ρ)
  | swap
  | copy
  /-- The factor is one if it is not given. -/
  | axpy (alpha : Option α)
  | dot
  | dotu
  | dotc

variable {α ρ : Type}

/-- The operation of the table that this is, without its scalars. -/
def ScalarOp.operation : ScalarOp α ρ → Operation
  | .rotg .. => .rotg
  | .rotmg .. => .rotmg

/-- The operation of the table that this is, without its scalars. -/
def UnaryOp.operation : UnaryOp α ρ → Operation
  | .scal .. => .scal
  | .scalReal .. => .scalReal
  | .nrm2 => .nrm2
  | .asum => .asum
  | .iamax => .iamax

/-- The operation of the table that this is, without its scalars. -/
def BinaryOp.operation : BinaryOp α ρ → Operation
  | .rot .. => .rot
  | .rotInPlace .. => .rotInPlace
  | .rotm .. => .rotm
  | .rotmInPlace .. => .rotmInPlace
  | .swap => .swap
  | .copy => .copy
  | .axpy .. => .axpy
  | .dot => .dot
  | .dotu => .dotu
  | .dotc => .dotc

variable [RealScalar ρ] [Element α ρ]

/-! ### Operations on scalars -/

namespace ScalarOp

/-- Run the kernel. -/
def compute? : ScalarOp α ρ → Option (Answer α ρ)
  | rotg a b =>
    let (c, s) := Element.rotg a b
    some (.cosSin c s)
  | rotmg d1 d2 x1 y1 => (Params.setup? d1 d2 x1 y1).map .params

/-- The event of the call, which is logged before anything is computed. -/
def announce (op : ScalarOp α ρ) : Except Error Event :=
  (select op.operation (Element.precision α)).map Selection.begunScalars

/-- **Run an operation on scalars.** -/
def run (op : ScalarOp α ρ) : Option (Outcome Unit α ρ) :=
  match op.announce with
  | .error e => some ⟨(), .error e, []⟩
  | .ok event => op.compute?.map fun a => ⟨(), .ok a, [event]⟩

end ScalarOp

/-! ### Operations on one vector -/

namespace UnaryOp

/-- How the vector is passed on. -/
def passing : UnaryOp α ρ → Passing
  | scal _ => .staged .exclusive
  | scalReal _ => .staged .shared
  | nrm2 => .direct
  | asum => .direct
  | iamax => .direct

/-- The answer in place of that of the kernel if there is no element. -/
def emptyAnswer : UnaryOp α ρ → Answer α ρ
  | scal _ => .done
  | scalReal _ => .done
  | nrm2 => .real 0
  | asum => .real 0
  | iamax => .index none

/-- What is handed back after the answer `a` and with `x` in the storage of the kernel. -/
def handBack (op : UnaryOp α ρ) (x : Buffer α) (a : Answer α ρ) : Answer α ρ :=
  match op with
  | scalReal _ => .vectors [x]
  | _ => a

/-- Run the kernel: the view afterwards and the answer. -/
def compute? (plan : Schedule) (op : UnaryOp α ρ) (x : View α) : Option (View α × Answer α ρ) :=
  match op with
  | scal alpha => (Kernel.scal alpha x).map fun x => (x, .done)
  | scalReal alpha => (Kernel.scalReal alpha x).map fun x => (x, .done)
  | nrm2 => (Kernel.nrm2 x).map fun r => (x, .real r)
  | asum => (Kernel.asum plan x).map fun r => (x, .real r)
  | iamax => (Kernel.iamax x).map fun k => (x, .index (Kernel.zeroBased k))

/-- Run the kernel on its storage, unless there is no element. -/
def execute? (plan : Schedule) (op : UnaryOp α ρ) (r : Resolved) (x : Staged α) :
    Option (Staged α × Answer α ρ) :=
  if r.isNoop then some (x, op.emptyAnswer)
  else do
    let (v, a) ← op.compute? plan (← r.view? 0 x.values)
    return (x.put v.buffer, a)

/-- **Run an operation on one vector.** -/
def run (plan : Schedule) (op : UnaryOp α ρ) (x : Buffer α) (opts : UnaryOptions) :
    Option (Outcome (Buffer α) α ρ) :=
  match select op.operation (Element.precision α) with
  | .error e => some ⟨x, .error e, []⟩
  | .ok sel => do
    match ← sel.prepare? opts.n (unaryOperands x.len opts) with
    | (.error e, event) => return ⟨x, .error e, [event]⟩
    | (.ok r, event) =>
      let (sx, a) ← op.execute? plan r (← sel.pass? 0 op.passing x)
      return ⟨sx.caller, .ok (op.handBack sx.values a), [event]⟩

end UnaryOp

/-! ### Operations on two vectors -/

namespace BinaryOp

/-- How the two vectors are passed on. -/
def passing : BinaryOp α ρ → Passing × Passing
  | rot .. => (.staged .shared, .staged .shared)
  | rotInPlace .. => (.staged .exclusive, .staged .exclusive)
  | rotm .. => (.staged .shared, .staged .shared)
  | rotmInPlace .. => (.staged .exclusive, .staged .exclusive)
  | swap => (.staged .exclusive, .staged .exclusive)
  | copy => (.direct, .staged .exclusive)
  | axpy .. => (.direct, .staged .exclusive)
  | dot => (.direct, .direct)
  | dotu => (.direct, .direct)
  | dotc => (.direct, .direct)

/-- The answer in place of that of the kernel if there is no element. -/
def emptyAnswer : BinaryOp α ρ → Answer α ρ
  | dot => .scalar 0
  | dotu => .scalar 0
  | dotc => .scalar 0
  | _ => .done

/-- What is handed back after the answer `a` and with `x` and `y` in the storage of the kernel. -/
def handBack (op : BinaryOp α ρ) (x y : Buffer α) (a : Answer α ρ) : Answer α ρ :=
  match op with
  | rot .. => .vectors [x, y]
  | rotm .. => .vectors [x, y]
  | _ => a

/-- Run the kernel: the views afterwards and the answer. -/
def compute? (plan : Schedule) (op : BinaryOp α ρ) (x y : View α) :
    Option ((View α × View α) × Answer α ρ) :=
  match op with
  | rot c s => (Kernel.rot c s x y).map fun p => (p, .done)
  | rotInPlace c s => (Kernel.rot c s x y).map fun p => (p, .done)
  | rotm h => (Kernel.rotm h x y).map fun p => (p, .done)
  | rotmInPlace h => (Kernel.rotm h x y).map fun p => (p, .done)
  | swap => (Kernel.swap x y).map fun p => (p, .done)
  | copy => (Kernel.copy x y).map fun y => ((x, y), .done)
  | axpy alpha => (Kernel.axpy (alpha.getD 1) x y).map fun y => ((x, y), .done)
  | dot => (Kernel.dot plan x y).map fun a => ((x, y), .scalar a)
  | dotu => (Kernel.dot plan x y).map fun a => ((x, y), .scalar a)
  | dotc => (Kernel.dotc plan x y).map fun a => ((x, y), .scalar a)

/-- Run the kernel on its storage, unless there is no element. -/
def execute? (plan : Schedule) (op : BinaryOp α ρ) (r : Resolved) (x y : Staged α) :
    Option ((Staged α × Staged α) × Answer α ρ) :=
  if r.isNoop then some ((x, y), op.emptyAnswer)
  else do
    let ((v, w), a) ← op.compute? plan (← r.view? 0 x.values) (← r.view? 1 y.values)
    return ((x.put v.buffer, y.put w.buffer), a)

/-- **Run an operation on two vectors.** -/
def run (plan : Schedule) (op : BinaryOp α ρ) (x y : Buffer α) (opts : BinaryOptions) :
    Option (Outcome (Buffer α × Buffer α) α ρ) :=
  match select op.operation (Element.precision α) with
  | .error e => some ⟨(x, y), .error e, []⟩
  | .ok sel => do
    match ← sel.prepare? opts.n (binaryOperands x.len y.len opts) with
    | (.error e, event) => return ⟨(x, y), .error e, [event]⟩
    | (.ok r, event) =>
      let ((sx, sy), a) ← op.execute? plan r (← sel.pass? 0 op.passing.1 x)
        (← sel.pass? 1 op.passing.2 y)
      return ⟨(sx.caller, sy.caller), .ok (op.handBack sx.values sy.values a), [event]⟩

end BinaryOp

end Strided
