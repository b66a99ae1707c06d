/-! # Machine words

Lengths and storage positions are unsigned 64-bit words, offsets and increments are signed ones.
Arithmetic on words is partial here: `none` stands for a result that no word holds. Every operation
comes with one lemma that gives its value in the integers.

* `mul?_eq_some_iff`, `add?_eq_some_iff`, `sub?_eq_some_iff`: a result is the exact one.
* `div?_eq_some_iff`: the quotient is rounded down, and there is none by zero.
* `toNat_monus`: the difference that stops at zero.
* `toNat_magnitude`: the absolute value of a signed word always fits, the least one included.
* `ofSigned?_eq_some_iff`: a signed word is a length only if it is not negative. -/

namespace Strided.Word

/-- The sum, if it fits. -/
def add? (a b : UInt64) : Option UInt64 :=
  if a.toNat + b.toNat < UInt64.size then some (a + b) else none

/-- The product, if it fits. -/
def mul? (a b : UInt64) : Option UInt64 :=
  if a.toNat * b.toNat < UInt64.size then some (a * b) else none

/-- The difference, if it is not negative. -/
def sub? (a b : UInt64) : Option UInt64 :=
  if b ≤ a then some (a - b) else none

/-- The quotient rounded down, if the divisor is not zero. -/
def div? (a b : UInt64) : Option UInt64 :=
  if b = 0 then none else some (a / b)

/-- The difference, with zero in place of a negative one. -/
def monus (a b : UInt64) : UInt64 :=
  if b ≤ a then a - b else 0

/-- The absolute value of a signed word. -/
def magnitude (i : Int64) : UInt64 := UInt64.ofNat i.toInt.natAbs

/-- A signed word as an unsigned one, if it is not negative. -/
def ofSigned? (i : Int64) : Option UInt64 :=
  if 0 ≤ i then some (UInt64.ofNat i.toInt.toNat) else none

/-! ### Values in the integers -/

theorem add?_eq_some_iff {a b c : UInt64} : add? a b = some c ↔ c.toNat = a.toNat + b.toNat := by
  have hc := c.toNat_lt_size
  unfold add?
  split
  · rename_i h
    have e : (a + b).toNat = a.toNat + b.toNat := by
      rw [UInt64.toNat_add]; exact Nat.mod_eq_of_lt h
    rw [Option.some.injEq, ← UInt64.toNat_inj, e]
    exact eq_comm
  · constructor
    · intro h'; cases h'
    · intro h'; omega

theorem mul?_eq_some_iff {a b c : UInt64} : mul? a b = some c ↔ c.toNat = a.toNat * b.toNat := by
  have hc := c.toNat_lt_size
  unfold mul?
  split
  · rename_i h
    have e : (a * b).toNat = a.toNat * b.toNat := by
      rw [UInt64.toNat_mul]; exact Nat.mod_eq_of_lt h
    rw [Option.some.injEq, ← UInt64.toNat_inj, e]
    exact eq_comm
  · rename_i h
    constructor
    · intro h'; cases h'
    · intro h'; rw [h'] at hc; exact absurd hc h

theorem sub?_eq_some_iff {a b c : UInt64} : sub? a b = some c ↔ c.toNat + b.toNat = a.toNat := by
  unfold sub?
  split
  · rename_i h
    have hle := UInt64.le_iff_toNat_le.mp h
    rw [Option.some.injEq, ← UInt64.toNat_inj, UInt64.toNat_sub_of_le _ _ h]
    omega
  · rename_i h
    have hlt : a.toNat < b.toNat := by
      rw [UInt64.le_iff_toNat_le] at h; omega
    constructor
    · intro h'; cases h'
    · intro h'; omega

theorem div?_eq_some_iff {a b c : UInt64} :
    div? a b = some c ↔ 0 < b.toNat ∧ c.toNat = a.toNat / b.toNat := by
  unfold div?
  split
  · rename_i h
    subst h
    simp
  · rename_i h
    have hb : 0 < b.toNat := by
      rw [← UInt64.toNat_inj] at h
      have h0 : (0 : UInt64).toNat = 0 := rfl
      omega
    rw [Option.some.injEq, ← UInt64.toNat_inj, UInt64.toNat_div]
    exact ⟨fun e => ⟨hb, e.symm⟩, fun e => e.2.symm⟩

@[simp] theorem toNat_monus (a b : UInt64) : (monus a b).toNat = a.toNat - b.toNat := by
  unfold monus
  split
  · rename_i h; exact UInt64.toNat_sub_of_le _ _ h
  · rename_i h
    rw [UInt64.le_iff_toNat_le] at h
    have h0 : (0 : UInt64).toNat = 0 := rfl
    omega

@[simp] theorem toNat_magnitude (i : Int64) : (magnitude i).toNat = i.toInt.natAbs := by
  have h1 := i.le_toInt
  have h2 := i.toInt_lt
  exact UInt64.toNat_ofNat_of_lt' (by unfold UInt64.size; omega)

theorem ofSigned?_eq_some_iff {i : Int64} {c : UInt64} :
    ofSigned? i = some c ↔ (c.toNat : Int) = i.toInt := by
  have h1 := i.le_toInt
  have h2 := i.toInt_lt
  have e : (UInt64.ofNat i.toInt.toNat).toNat = i.toInt.toNat :=
    UInt64.toNat_ofNat_of_lt' (by unfold UInt64.size; omega)
  have h0 : (0 : Int64).toInt = 0 := rfl
  unfold ofSigned?
  split
  · rename_i h
    rw [Int64.le_iff_toInt_le] at h
    rw [Option.some.injEq, ← UInt64.toNat_inj, e]
    omega
  · rename_i h
    rw [Int64.le_iff_toInt_le] at h
    constructor
    · intro h'; cases h'
    · intro h'; omega

end Strided.Word
