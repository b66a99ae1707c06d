import Strided.Store

/-! # Sessions

A session runs a program step by step over a store. It remembers the last rotation and the last
modified rotation that were computed, and a later step may leave its own out. A step that fails
changes nothing, and the session goes on. -/

namespace Strided

/-- A step as it is asked for: a call, or a rotation whose numbers may be left out. -/
inductive Request (α ρ : Type)
  | call (c : Call α ρ)
  | rot (inPlace : Bool) (c s : Option ρ) (x y : String) (opts : BinaryOptions)
  | rotm (inPlace : Bool) (p : Option (Params ρ)) (x y : String) (opts : BinaryOptions)

/-- One step of a program. -/
structure Step (α ρ : Type) where
  request : Request α ρ
  /-- The names under which returned copies are kept. -/
  into : List String

/-- The buffers of a program and what it remembers. -/
structure Session (α ρ : Type) where
  store : Store α
  cosSin : Option (ρ × ρ) := none
  params : Option (Params ρ) := none

/-- What a step gave: the outcome of its call, with the buffers of the call afterwards. -/
structure StepOutcome (α ρ : Type) where
  operands : List (Buffer α)
  answer : Except Error (Answer α ρ)
  events : List Event

namespace Session

variable {α ρ : Type}

/-- Fill in what a request leaves out. -/
def complete? (s : Session α ρ) : Request α ρ → Option (Call α ρ)
  | .call c => some c
  | .rot inPlace c' s' x y opts => do
    let c ← c'.or (s.cosSin.map Prod.fst)
    let s ← s'.or (s.cosSin.map Prod.snd)
    return .binary (if inPlace then .rotInPlace c s else .rot c s) x y opts
  | .rotm inPlace p' x y opts => do
    let p ← p'.or s.params
    return .binary (if inPlace then .rotmInPlace p else .rotm p) x y opts

variable [RealScalar ρ] [Element α ρ]

/-- Keep what an answer brings: returned copies under the given names, a rotation as the cosine and
the real part of the sine. -/
def keep (s : Session α ρ) (into : List String) : Answer α ρ → Session α ρ
  | .vectors copies =>
    { s with store := (into.zip copies).foldl (fun store e => store.put e.1 e.2) s.store }
  | .cosSin c sine => { s with cosSin := some (c, Scalar.re sine) }
  | .params p => { s with params := some p }
  | _ => s

/-- **Run one step.** -/
def step? (plan : Schedule) (s : Session α ρ) (step : Step α ρ) :
    Option (StepOutcome α ρ × Session α ρ) := do
  let call ← s.complete? step.request
  let o ← call.run plan s.store
  let operands ← call.names.mapM o.buffers.get?
  let after := { s with store := o.buffers }
  match o.answer with
  | .error e => return (⟨operands, .error e, o.events⟩, after)
  | .ok a => return (⟨operands, .ok a, o.events⟩, after.keep step.into a)

end Session

end Strided
