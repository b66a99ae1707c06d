/-! # Buffers

A buffer is a row of cells, few enough to be counted by a word. Reading or writing outside it has no
result. -/

namespace Strided

/-- The storage of a vector. -/
@[ext] structure Buffer (α : Type) where
  cells : Array α
  size_lt : cells.size < UInt64.size

namespace Buffer

variable {α : Type}

/-- The buffer with the given cells, unless there are too many. -/
def ofArray? (cells : Array α) : Option (Buffer α) :=
  if h : cells.size < UInt64.size then some ⟨cells, h⟩ else none

/-- The number of cells. -/
def len (b : Buffer α) : UInt64 := UInt64.ofNat b.cells.size

/-- The content of cell `i`. -/
def get? (b : Buffer α) (i : Nat) : Option α := b.cells[i]?

/-- Write cell `i`. -/
def set? (b : Buffer α) (i : Nat) (a : α) : Option (Buffer α) :=
  if h : i < b.cells.size then some ⟨b.cells.set i a, by simpa using b.size_lt⟩ else none

/-- The `n` cells from cell `i` on. -/
def slice? (b : Buffer α) (i n : Nat) : Option (Array α) :=
  if i + n ≤ b.cells.size then some (b.cells.extract i (i + n)) else none

/-- Write a block of cells from cell `i` on. -/
def splice? (b : Buffer α) (i : Nat) (block : Array α) : Option (Buffer α) :=
  if h : i + block.size ≤ b.cells.size then
    some ⟨b.cells.extract 0 i ++ block ++ b.cells.extract (i + block.size) b.cells.size, by
      have := b.size_lt
      simp only [Array.size_append, Array.size_extract]
      omega⟩
  else none

@[simp] theorem toNat_len (b : Buffer α) : b.len.toNat = b.cells.size :=
  UInt64.toNat_ofNat_of_lt' b.size_lt

theorem set?_eq_some_iff {b b' : Buffer α} {i : Nat} {a : α} :
    b.set? i a = some b' ↔ ∃ h : i < b.cells.size, b'.cells = b.cells.set i a h := by
  unfold set?
  split
  · rename_i h
    rw [Option.some.injEq]
    constructor
    · rintro rfl; exact ⟨h, rfl⟩
    · rintro ⟨_, e⟩; exact Buffer.ext e.symm
  · rename_i h
    constructor
    · intro h'; cases h'
    · rintro ⟨h', _⟩; exact absurd h' h

theorem size_of_set? {b b' : Buffer α} {i : Nat} {a : α} (h : b.set? i a = some b') :
    b'.cells.size = b.cells.size := by
  obtain ⟨_, e⟩ := set?_eq_some_iff.mp h
  rw [e, Array.size_set]

/-- **Reading after a write.** -/
theorem get?_of_set? {b b' : Buffer α} {i : Nat} {a : α} (h : b.set? i a = some b') (j : Nat) :
    b'.get? j = if i = j then some a else b.get? j := by
  obtain ⟨_, e⟩ := set?_eq_some_iff.mp h
  unfold get?
  rw [e, Array.getElem?_set]

end Buffer

end Strided
