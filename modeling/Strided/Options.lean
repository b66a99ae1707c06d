/-! # Options of a call

Every option may be left out: an increment is then `1`, an offset `0`, and the length is the longest
that the first vector holds. -/

namespace Strided

/-- Where the window of one vector begins and how far apart its elements are. -/
structure VectorOptions where
  offset : Option Int64 := none
  inc : Option Int64 := none
  deriving DecidableEq

namespace VectorOptions

def withOffset (o : VectorOptions) (offset : Int64) : VectorOptions :=
  { o with offset := some offset }

def withInc (o : VectorOptions) (inc : Int64) : VectorOptions := { o with inc := some inc }

end VectorOptions

/-- The options of an operation on one vector. -/
structure UnaryOptions where
  n : Option UInt64 := none
  x : VectorOptions := {}
  deriving DecidableEq

namespace UnaryOptions

def withN (o : UnaryOptions) (n : UInt64) : UnaryOptions := { o with n := some n }

def withOffX (o : UnaryOptions) (offset : Int64) : UnaryOptions :=
  { o with x := o.x.withOffset offset }

def withIncX (o : UnaryOptions) (inc : Int64) : UnaryOptions := { o with x := o.x.withInc inc }

end UnaryOptions

/-- The options of an operation on two vectors, which share the length. -/
structure BinaryOptions where
  n : Option UInt64 := none
  x : VectorOptions := {}
  y : VectorOptions := {}
  deriving DecidableEq

namespace BinaryOptions

def withN (o : BinaryOptions) (n : UInt64) : BinaryOptions := { o with n := some n }

def withOffX (o : BinaryOptions) (offset : Int64) : BinaryOptions :=
  { o with x := o.x.withOffset offset }

def withIncX (o : BinaryOptions) (inc : Int64) : BinaryOptions := { o with x := o.x.withInc inc }

def withOffY (o : BinaryOptions) (offset : Int64) : BinaryOptions :=
  { o with y := o.y.withOffset offset }

def withIncY (o : BinaryOptions) (inc : Int64) : BinaryOptions := { o with y := o.y.withInc inc }

end BinaryOptions

end Strided
