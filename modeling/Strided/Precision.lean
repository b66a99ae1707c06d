/-! # Precisions

An element is real or complex, and its parts have 32 or 64 bits: four precisions, in the order in
which the operation table has its columns. A `PrecisionSet` is a set of them, one bit for each. -/

namespace Strided

/-- The width of a real number. -/
inductive Width
  | w32
  | w64
  deriving DecidableEq

/-- How an element of a vector is represented. -/
inductive Precision
  | real32
  | real64
  | complex32
  | complex64
  deriving DecidableEq

/-- The precision of a real number of this width. -/
def Width.real : Width → Precision
  | .w32 => .real32
  | .w64 => .real64

/-- The precision of a complex number whose parts have this width. -/
def Width.complex : Width → Precision
  | .w32 => .complex32
  | .w64 => .complex64

namespace Precision

/-- All precisions in column order. -/
def all : List Precision := [.real32, .real64, .complex32, .complex64]

/-- The column of a precision. -/
def index : Precision → Nat
  | .real32 => 0
  | .real64 => 1
  | .complex32 => 2
  | .complex64 => 3

/-- The number of bytes of one element. -/
def byteWidth : Precision → Nat
  | .real32 => 4
  | .real64 => 8
  | .complex32 => 8
  | .complex64 => 16

/-- The precision of the parts of an element. -/
def real : Precision → Precision
  | .real32 => .real32
  | .real64 => .real64
  | .complex32 => .real32
  | .complex64 => .real64

/-- The name of a precision in messages. -/
def name : Precision → String
  | .real32 => "real32"
  | .real64 => "real64"
  | .complex32 => "complex32"
  | .complex64 => "complex64"

/-- The capitalized name of a precision. -/
def title : Precision → String
  | .real32 => "Real32"
  | .real64 => "Real64"
  | .complex32 => "Complex32"
  | .complex64 => "Complex64"

/-- The name of a precision as a member of a set. -/
def flag : Precision → String
  | .real32 => "REAL32"
  | .real64 => "REAL64"
  | .complex32 => "COMPLEX32"
  | .complex64 => "COMPLEX64"

theorem mem_all (p : Precision) : p ∈ all := by cases p <;> decide

theorem all_getElem?_index (p : Precision) : all[p.index]? = some p := by cases p <;> rfl

end Precision

/-- A set of precisions: the precision in column `k` is a member if bit `k` is set. -/
structure PrecisionSet where
  bits : BitVec 4
  deriving DecidableEq

namespace PrecisionSet

/-- The set without members. -/
def empty : PrecisionSet := ⟨0⟩

/-- The set of all precisions. -/
def all : PrecisionSet := ⟨BitVec.allOnes 4⟩

/-- The set with one member. -/
def single (p : Precision) : PrecisionSet := ⟨1 <<< p.index⟩

/-- The set with the given bits; bits that stand for no precision are dropped. -/
def ofNat (b : Nat) : PrecisionSet := ⟨BitVec.ofNat 4 b⟩

/-- The bits as a number. -/
def toNat (s : PrecisionSet) : Nat := s.bits.toNat

/-- Whether every bit of a number stands for a precision. -/
def isKnown (b : Nat) : Bool := (ofNat b).toNat == b

def union (s t : PrecisionSet) : PrecisionSet := ⟨s.bits ||| t.bits⟩

def inter (s t : PrecisionSet) : PrecisionSet := ⟨s.bits &&& t.bits⟩

/-- The members of `s` that are not in `t`. -/
def diff (s t : PrecisionSet) : PrecisionSet := ⟨s.bits &&& ~~~t.bits⟩

/-- The members of exactly one of the two sets. -/
def symmDiff (s t : PrecisionSet) : PrecisionSet := ⟨s.bits ^^^ t.bits⟩

def compl (s : PrecisionSet) : PrecisionSet := ⟨~~~s.bits⟩

/-- Whether `s` has every member of `t`. -/
def contains (s t : PrecisionSet) : Bool := s.inter t == t

/-- Whether the two sets have a member in common. -/
def intersects (s t : PrecisionSet) : Bool := s.inter t != empty

/-- Whether a precision is a member. -/
def supports (s : PrecisionSet) (p : Precision) : Bool := s.contains (single p)

/-- The set of the precisions with a property. -/
def filter (f : Precision → Bool) : PrecisionSet :=
  (Precision.all.filter f).foldl (fun s p => s.union (single p)) empty

/-- The text of a set: its members' names in column order. -/
def render (s : PrecisionSet) : String :=
  let names := (Precision.all.filter s.supports).map Precision.flag
  "PrecisionSet(" ++ (if names.isEmpty then "0x0" else " | ".intercalate names) ++ ")"

/-- **Membership in a set given by a property.** -/
@[simp] theorem supports_filter (f : Precision → Bool) (p : Precision) :
    (filter f).supports p = f p := by
  have key : ∀ a b c d : Bool, ∀ q : Precision,
      (filter (fun r => match r with
        | .real32 => a | .real64 => b | .complex32 => c | .complex64 => d)).supports q =
      (match q with | .real32 => a | .real64 => b | .complex32 => c | .complex64 => d) := by
    intro a b c d q
    cases a <;> cases b <;> cases c <;> cases d <;> cases q <;> decide
  have hf : f = fun r => match r with
      | .real32 => f .real32 | .real64 => f .real64
      | .complex32 => f .complex32 | .complex64 => f .complex64 := by
    funext r; cases r <;> rfl
  rw [hf, key]

end PrecisionSet

end Strided
