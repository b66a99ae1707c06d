import Strided.Call

/-! # Named buffers

A store holds the buffers of a program by name, and a `Call` names the buffers that it works on. -/

namespace Strided

/-- Buffers by name; the first entry of a name counts. -/
abbrev Store (α : Type) := List (String × Buffer α)

namespace Store

variable {α : Type}

/-- The buffer with a name. -/
def get? (s : Store α) (name : String) : Option (Buffer α) := s.lookup name

/-- Replace the buffer with a name, or add it at the end. -/
def put : Store α → String → Buffer α → Store α
  | [], name, b => [(name, b)]
  | (k, v) :: s, name, b => if k = name then (name, b) :: s else (k, v) :: put s name b

/-- **Reading after a write.** -/
theorem get?_put (s : Store α) (name : String) (b : Buffer α) (k : String) :
    (s.put name b).get? k = if k = name then some b else s.get? k := by
  induction s with
  | nil => by_cases h : k = name <;> simp [put, get?, h]
  | cons e s ih =>
    obtain ⟨k', v⟩ := e
    unfold get? at ih ⊢
    by_cases h' : k' = name
    · subst h'
      by_cases h : k = k'
      · simp [put, h]
      · simp [put, List.lookup_cons, beq_eq_false_iff_ne.mpr h, h]
    · by_cases h : k = k'
      · subst h
        simp [put, h']
      · simp [put, List.lookup_cons, beq_eq_false_iff_ne.mpr h, h', ih]

end Store

/-- An operation on named buffers. -/
inductive Call (α ρ : Type)
  | scalars (op : ScalarOp α ρ)
  | unary (op : UnaryOp α ρ) (x : String) (opts : UnaryOptions)
  | binary (op : BinaryOp α ρ) (x y : String) (opts : BinaryOptions)

namespace Call

variable {α ρ : Type}

/-- The operation of the table that is called. -/
def operation : Call α ρ → Operation
  | scalars op => op.operation
  | unary op .. => op.operation
  | binary op .. => op.operation

/-- The names of the buffers of a call. -/
def names : Call α ρ → List String
  | scalars _ => []
  | unary _ x _ => [x]
  | binary _ x y _ => [x, y]

variable [RealScalar ρ] [Element α ρ]

/-- **Run a call on a store.** There is no outcome if a name stands for no buffer. -/
def run (plan : Schedule) (call : Call α ρ) (store : Store α) : Option (Outcome (Store α) α ρ) :=
  match call with
  | scalars op => op.run.map fun o => ⟨store, o.answer, o.events⟩
  | unary op x opts => do
    let o ← op.run plan (← store.get? x) opts
    return ⟨store.put x o.buffers, o.answer, o.events⟩
  | binary op x y opts => do
    let o ← op.run plan (← store.get? x) (← store.get? y) opts
    return ⟨(store.put x o.buffers.1).put y o.buffers.2, o.answer, o.events⟩

end Call

end Strided
