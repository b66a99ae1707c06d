import Strided.Word

/-! # Default lengths

The length of a call, when it is not given, is found from the buffer of the first vector: its cells
from the offset on are its room, and a window of `n` elements with step `s` spans `(n - 1) * s + 1`
cells. The inclusive rule gives the largest `n` that fits; the exclusive rule counts whole steps and
may give one less. -/

namespace Strided

/-- How the default length is found. -/
inductive LengthRule
  | inclusive
  | exclusive
  deriving DecidableEq

namespace LengthRule

/-- The default length for a buffer of `len` cells. There is none if the increment is zero, if the
offset lies past the end, or, under the inclusive rule, if no cell is left. -/
def defaultLength? (rule : LengthRule) (len offset : UInt64) (inc : Int64) : Option UInt64 := do
  let room ← Word.sub? len offset
  match rule with
  | .inclusive =>
    let last ← Word.div? (← Word.sub? room 1) (Word.magnitude inc)
    Word.add? last 1
  | .exclusive => Word.div? room (Word.magnitude inc)

end LengthRule

end Strided
