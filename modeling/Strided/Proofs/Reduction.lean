import Strided.Proofs.Locality
import Strided.Proofs.Refusal

/-! # Reductions see elements only

A reduction folds the elements of its windows in logical order. As long as sums are formed one by
one, its value is a function of these elements: neither the layout of the vectors nor any cell
outside the windows makes a difference. Reversing a buffer and the sign of the increment is a change
of layout that keeps the elements.

* `total_sequential`: long sums are no exception.
* `UnaryOp.answer?_of_elements`, `BinaryOp.answer?_of_elements`: calls with the same elements.
* `Mirrored`: a vector argument read from the other end of its reversed buffer.
* `Mirrored.fits_iff`, `Mirrored.sameElements`: both fit or neither does, and they show the same
  elements.
* `reduction_elemental`: all reductions. -/

namespace Strided

/-- The operations that fold the elements of vectors into one value. -/
def Operation.reduces : Operation → Bool
  | .dot | .dotu | .dotc | .nrm2 | .asum | .iamax => true
  | _ => false

theorem Operation.not_copies_of_reduces {op : Operation} (h : op.reduces) : ¬ op.copies := by
  revert h
  cases op <;> decide

/-- Under the sequential schedule every sum is the left fold. -/
theorem total_sequential {β : Type} [Zero β] [Add β] (long : Bool) (terms : List β) :
    Kernel.total .sequential long terms = terms.foldl (· + ·) 0 := by
  unfold Kernel.total
  split_ifs
  · exact Grouping.reduce_chain _ _ _
  · rfl

/-! ### Calls with the same elements -/

section Answers
variable {α ρ : Type} [RealScalar ρ] [Element α ρ]

namespace UnaryOp

/-- The answer of a call. -/
def answer? (plan : Schedule) (op : UnaryOp α ρ) (x : Buffer α) (opts : UnaryOptions) :
    Option (Except Error (Answer α ρ)) :=
  (op.run plan x opts).map Outcome.answer

theorem reply_of_elements (op : UnaryOp α ρ) {n : UInt64} {w w' : Window} {x x' : Buffer α}
    (h : SameElements n.toNat w w' x x') :
    op.reply .sequential n w x = op.reply .sequential n w' x' := by
  have hg := h.gather_eq
  unfold reply
  cases op <;> simp only [value, fold, total_sequential, hg]

theorem answer?_of_resolved {plan : Schedule} {op : UnaryOp α ρ} (hop : op.operation.reduces)
    {x : Buffer α} {opts : UnaryOptions} {n : UInt64} {w : Window}
    (hres : resolveUnary op.operation.rule x.len opts = some (.ok ⟨n, [w]⟩)) :
    op.answer? plan x opts =
      some ((select op.operation (Element.precision α)).map fun _ => op.reply plan n w x) := by
  unfold answer?
  cases hsel : select op.operation (Element.precision α) with
  | error e =>
    rw [run_of_unsupported plan hsel]
    rfl
  | ok sel =>
    rw [run_of_resolved plan hsel hres]
    exact congrArg some
      (answer_of_not_copies plan sel n w x (Operation.not_copies_of_reduces hop))

theorem answer?_of_elements {op : UnaryOp α ρ} (hop : op.operation.reduces) {x x' : Buffer α}
    {opts opts' : UnaryOptions} {n : UInt64} {w w' : Window}
    (hres : resolveUnary op.operation.rule x.len opts = some (.ok ⟨n, [w]⟩))
    (hres' : resolveUnary op.operation.rule x'.len opts' = some (.ok ⟨n, [w']⟩))
    (h : SameElements n.toNat w w' x x') :
    ∃ a, op.answer? .sequential x opts = some a ∧ op.answer? .sequential x' opts' = some a := by
  rw [answer?_of_resolved hop hres, answer?_of_resolved hop hres', reply_of_elements op h]
  exact ⟨_, rfl, rfl⟩

theorem exists_resolve_of_answer? {plan : Schedule} {op : UnaryOp α ρ} {x : Buffer α}
    {opts : UnaryOptions} {a : Answer α ρ} (h : op.answer? plan x opts = some (.ok a)) :
    ∃ r, resolveUnary op.operation.rule x.len opts = some (.ok r) := by
  obtain ⟨o, ho, ha⟩ := Option.map_eq_some_iff.mp h
  obtain ⟨sel, n, w, hres, -, -⟩ := eq_outcome_of_ok ho ha
  exact ⟨_, hres⟩

end UnaryOp

namespace BinaryOp

/-- The answer of a call. -/
def answer? (plan : Schedule) (op : BinaryOp α ρ) (x y : Buffer α) (opts : BinaryOptions) :
    Option (Except Error (Answer α ρ)) :=
  (op.run plan x y opts).map Outcome.answer

omit [RealScalar ρ] in
theorem reply_of_elements (op : BinaryOp α ρ) {n : UInt64} {wx wx' wy wy' : Window}
    {x x' y y' : Buffer α} (hx : SameElements n.toNat wx wx' x x')
    (hy : SameElements n.toNat wy wy' y y') :
    op.reply .sequential n wx wy x y = op.reply .sequential n wx' wy' x' y' := by
  have hgx := hx.gather_eq
  have hgy := hy.gather_eq
  unfold reply
  cases op <;> simp only [value, fold, total_sequential, hgx, hgy]

theorem answer?_of_resolved {plan : Schedule} {op : BinaryOp α ρ} (hop : op.operation.reduces)
    {x y : Buffer α} {opts : BinaryOptions} {n : UInt64} {wx wy : Window}
    (hres : resolveBinary op.operation.rule x.len y.len opts = some (.ok ⟨n, [wx, wy]⟩)) :
    op.answer? plan x y opts =
      some ((select op.operation (Element.precision α)).map fun _ =>
        op.reply plan n wx wy x y) := by
  unfold answer?
  cases hsel : select op.operation (Element.precision α) with
  | error e =>
    rw [run_of_unsupported plan hsel]
    rfl
  | ok sel =>
    rw [run_of_resolved plan hsel hres]
    exact congrArg some
      (answer_of_not_copies plan sel n wx wy x y (Operation.not_copies_of_reduces hop))

theorem answer?_of_elements {op : BinaryOp α ρ} (hop : op.operation.reduces)
    {x x' y y' : Buffer α} {opts opts' : BinaryOptions} {n : UInt64} {wx wx' wy wy' : Window}
    (hres : resolveBinary op.operation.rule x.len y.len opts = some (.ok ⟨n, [wx, wy]⟩))
    (hres' : resolveBinary op.operation.rule x'.len y'.len opts' = some (.ok ⟨n, [wx', wy']⟩))
    (hx : SameElements n.toNat wx wx' x x') (hy : SameElements n.toNat wy wy' y y') :
    ∃ a, op.answer? .sequential x y opts = some a ∧
      op.answer? .sequential x' y' opts' = some a := by
  rw [answer?_of_resolved hop hres, answer?_of_resolved hop hres', reply_of_elements op hx hy]
  exact ⟨_, rfl, rfl⟩

theorem exists_resolve_of_answer? {plan : Schedule} {op : BinaryOp α ρ} {x y : Buffer α}
    {opts : BinaryOptions} {a : Answer α ρ} (h : op.answer? plan x y opts = some (.ok a)) :
    ∃ r, resolveBinary op.operation.rule x.len y.len opts = some (.ok r) := by
  obtain ⟨o, ho, ha⟩ := Option.map_eq_some_iff.mp h
  obtain ⟨sel, n, wx, wy, hres, -, -, -⟩ := eq_outcome_of_ok ho ha
  exact ⟨_, hres⟩

end BinaryOp

end Answers

/-! ### Mirror images -/

section Mirror
variable {α : Type}

/-- The cells of a buffer in reverse order. -/
def Buffer.reverse (b : Buffer α) : Buffer α := ⟨b.cells.reverse, by simpa using b.size_lt⟩

theorem Buffer.size_reverse (b : Buffer α) : b.reverse.cells.size = b.cells.size := by
  simp [Buffer.reverse]

theorem Buffer.get?_reverse {b : Buffer α} {j k : ℕ} (h : j + k + 1 = b.cells.size) :
    b.reverse.get? j = b.get? k := by
  unfold Buffer.get? Buffer.reverse
  rw [Array.getElem?_reverse (by omega)]
  congr 1
  omega

/-- A vector argument of a call with `n` elements stays as it is, or its buffer is reversed: then
the increment is `k` in place of `-k`, and the offset leaves as many cells after the window as there
were before it. -/
inductive Mirrored (n : UInt64) : Buffer α → VectorOptions → Buffer α → VectorOptions → Prop
  | same (b : Buffer α) (v : VectorOptions) : Mirrored n b v b v
  | reversed (b : Buffer α) {v v' : VectorOptions} {k : Int64} (pos : 0 < k)
      (inc : v.inc.getD 1 = -k) (inc' : v'.inc.getD 1 = k)
      (offset : (v'.offset.getD 0).toInt =
        b.cells.size - 1 - (v.offset.getD 0).toInt - (n.toNat - 1) * k.toInt) :
      Mirrored n b v b.reverse v'

theorem Operand.valid_iff {o : Operand} :
    o.Valid ↔ o.increment ≠ 0 ∧ 0 ≤ o.start ∧ o.start < o.len.toNat :=
  ⟨fun h => ⟨h.increment_ne, h.start_nonneg, h.start_lt⟩, fun h => ⟨h.1, h.2.1, h.2.2⟩⟩

theorem toInt_pos {k : Int64} : 0 < k ↔ 0 < k.toInt := by
  rw [Int64.lt_iff_toInt_lt]
  exact Iff.rfl

theorem toInt_neg_of_pos {k : Int64} (hk : 0 < k) : (-k).toInt = -k.toInt := by
  have hlt := k.toInt_lt
  have hpos := toInt_pos.mp hk
  rw [Int64.toInt_neg]
  exact Int.bmod_eq_of_le (by omega) (by omega)

namespace Mirrored

variable {n : UInt64} {b b' : Buffer α} {v v' : VectorOptions}

/-- **Both windows lie inside their buffers, or neither does.** -/
theorem fits_iff (h : Mirrored n b v b' v') (hn : n.toNat ≠ 0) (name : String) :
    (Operand.Valid ⟨name, b.len, v⟩ ∧ ¬ Operand.Short n.toNat ⟨name, b.len, v⟩) ↔
      Operand.Valid ⟨name, b'.len, v'⟩ ∧ ¬ Operand.Short n.toNat ⟨name, b'.len, v'⟩ := by
  cases h with
  | same => exact Iff.rfl
  | @reversed _ k pos inc inc' offset =>
    have hk := toInt_pos.mp pos
    have hspan : 0 ≤ ((n.toNat : ℤ) - 1) * k.toInt := Int.mul_nonneg (by omega) hk.le
    -- The last place of the one window and the offset of the other are as far from the two ends,
    -- so each upper bound on the one side is a lower bound on the other.
    simp only [Operand.valid_iff, Operand.Short, Operand.increment, Operand.start, inc, inc',
      toInt_neg_of_pos pos, abs_neg, abs_of_pos hk, Buffer.toNat_len, Buffer.size_reverse, offset]
    omega

/-- **Both windows show the same elements**: the places of an element in the two buffers are as far
from the one end as from the other. -/
theorem sameElements (h : Mirrored n b v b' v') {name : String} {w w' : Window}
    (hw : Operand.Asks ⟨name, b.len, v⟩ w) (hw' : Operand.Asks ⟨name, b'.len, v'⟩ w') :
    SameElements n.toNat w w' b b' := by
  cases h with
  | same =>
    obtain rfl := hw.unique hw'
    exact fun _ _ => rfl
  | @reversed _ k pos inc inc' offset =>
    intro i hi
    have hk := toInt_pos.mp pos
    have hinc : w.inc.toInt = -k.toInt := by
      rw [hw.inc, Operand.increment, inc, toInt_neg_of_pos pos]
    have hinc' : w'.inc.toInt = k.toInt := by
      rw [hw'.inc, Operand.increment, inc']
    have hneg : ¬ 0 < w.inc := by
      rw [toInt_pos]
      omega
    have hpos : 0 < w'.inc := by
      rw [toInt_pos]
      omega
    have hoff : (w.offset.toNat : ℤ) = (v.offset.getD 0).toInt := hw.offset
    have hoff' : (w'.offset.toNat : ℤ) = (v'.offset.getD 0).toInt := hw'.offset
    have hsteps : (n.toNat - 1 - i) * k.toInt.natAbs + i * k.toInt.natAbs =
        (n.toNat - 1) * k.toInt.natAbs := by
      rw [← Nat.add_mul]
      congr 1
      omega
    have hspan : (((n.toNat - 1) * k.toInt.natAbs : ℕ) : ℤ) = ((n.toNat : ℤ) - 1) * k.toInt := by
      rw [Int.natCast_mul, Int.natAbs_of_nonneg hk.le]
      congr 1
      omega
    refine (Buffer.get?_reverse ?_).symm
    unfold Window.place reach
    rw [if_neg hneg, if_pos hpos, hinc, hinc', Int.natAbs_neg]
    omega

end Mirrored

end Mirror

/-! ### Calls with a given length -/

section Given
variable {rule : LengthRule} {n : UInt64} {operands : List Operand}

/-- A call with a given positive length resolves if every operand is valid and long enough. -/
theorem exists_resolve_ok_iff (hn : n.toNat ≠ 0) :
    (∃ r, resolve rule (some n) operands = some (.ok r)) ↔
      ∀ p ∈ operands, p.Valid ∧ ¬ p.Short n.toNat := by
  have hlength : exactLength rule (some n) operands = n.toNat := rfl
  constructor
  · rintro ⟨r, hr⟩ p hp
    have hadm := admissible_of_resolve hr
    have hlt := hadm.extent.resolve_left (by omega) p hp
    rw [hlength] at hlt
    exact ⟨hadm.valid p hp, not_le.mpr hlt⟩
  · intro h
    refine Admissible.exists_resolve_ok ⟨fun p hp => (h p hp).1.increment_ne,
      fun p hp => ⟨(h p hp).1.start_nonneg, (h p hp).1.start_lt⟩, Or.inr fun p hp => ?_⟩
    rw [hlength]
    exact not_le.mp (h p hp).2

theorem asks_of_resolve {r : Resolved} (h : resolve rule (some n) operands = some (.ok r)) :
    r.n = n ∧ List.Forall₂ Operand.Asks operands r.windows := by
  obtain ⟨hws, hn, -⟩ := resolve_eq_ok_iff.mp h
  exact ⟨(Option.some.inj hn).symm, hws.imp fun _ _ how => how.2⟩

theorem asks_of_resolveUnary {len : UInt64} {v : VectorOptions} {r : Resolved}
    (h : resolveUnary rule len ⟨some n, v⟩ = some (.ok r)) :
    ∃ w, r = ⟨n, [w]⟩ ∧ Operand.Asks ⟨"x", len, v⟩ w := by
  obtain ⟨rfl, hws⟩ := asks_of_resolve h
  obtain ⟨w, ws, hw, hws, e⟩ := List.forall₂_cons_left_iff.mp hws
  obtain rfl := List.forall₂_nil_left_iff.mp hws
  exact ⟨w, by rw [← e], hw⟩

theorem asks_of_resolveBinary {xLen yLen : UInt64} {vx vy : VectorOptions} {r : Resolved}
    (h : resolveBinary rule xLen yLen ⟨some n, vx, vy⟩ = some (.ok r)) :
    ∃ wx wy, r = ⟨n, [wx, wy]⟩ ∧ Operand.Asks ⟨"x", xLen, vx⟩ wx ∧
      Operand.Asks ⟨"y", yLen, vy⟩ wy := by
  obtain ⟨rfl, hws⟩ := asks_of_resolve h
  obtain ⟨wx, ws, hwx, hws, e⟩ := List.forall₂_cons_left_iff.mp hws
  obtain ⟨wy, ws', hwy, hws', rfl⟩ := List.forall₂_cons_left_iff.mp hws
  obtain rfl := List.forall₂_nil_left_iff.mp hws'
  exact ⟨wx, wy, by rw [← e], hwx, hwy⟩

end Given

/-! ### Reductions -/

variable {α ρ : Type} [RealScalar ρ] [Element α ρ]

theorem UnaryOp.answer?_of_mirrored {op : UnaryOp α ρ} (hop : op.operation.reduces) {n : UInt64}
    (hn : n.toNat ≠ 0) {x x' : Buffer α} {v v' : VectorOptions} (h : Mirrored n x v x' v')
    (a : Answer α ρ) : op.answer? .sequential x ⟨some n, v⟩ = some (.ok a) ↔
      op.answer? .sequential x' ⟨some n, v'⟩ = some (.ok a) := by
  have hiff : (∃ r, resolveUnary op.operation.rule x.len ⟨some n, v⟩ = some (.ok r)) ↔
      ∃ r, resolveUnary op.operation.rule x'.len ⟨some n, v'⟩ = some (.ok r) := by
    unfold resolveUnary
    rw [exists_resolve_ok_iff hn, exists_resolve_ok_iff hn]
    simpa only [unaryOperands, List.forall_mem_singleton] using h.fits_iff hn "x"
  by_cases hok : ∃ r, resolveUnary op.operation.rule x.len ⟨some n, v⟩ = some (.ok r)
  · obtain ⟨r, hr⟩ := hok
    obtain ⟨r', hr'⟩ := hiff.mp ⟨r, hr⟩
    obtain ⟨w, rfl, hw⟩ := asks_of_resolveUnary hr
    obtain ⟨w', rfl, hw'⟩ := asks_of_resolveUnary hr'
    obtain ⟨c, hc, hc'⟩ := answer?_of_elements hop hr hr' (h.sameElements hw hw')
    rw [hc, hc']
  · constructor
    · intro ha
      exact absurd (exists_resolve_of_answer? ha) hok
    · intro ha
      exact absurd (hiff.mpr (exists_resolve_of_answer? ha)) hok

theorem BinaryOp.answer?_of_mirrored {op : BinaryOp α ρ} (hop : op.operation.reduces) {n : UInt64}
    (hn : n.toNat ≠ 0) {x x' y y' : Buffer α} {vx vx' vy vy' : VectorOptions}
    (hx : Mirrored n x vx x' vx') (hy : Mirrored n y vy y' vy') (a : Answer α ρ) :
    op.answer? .sequential x y ⟨some n, vx, vy⟩ = some (.ok a) ↔
      op.answer? .sequential x' y' ⟨some n, vx', vy'⟩ = some (.ok a) := by
  have hiff :
      (∃ r, resolveBinary op.operation.rule x.len y.len ⟨some n, vx, vy⟩ = some (.ok r)) ↔
        ∃ r, resolveBinary op.operation.rule x'.len y'.len ⟨some n, vx', vy'⟩ = some (.ok r) := by
    unfold resolveBinary
    rw [exists_resolve_ok_iff hn, exists_resolve_ok_iff hn]
    simp only [binaryOperands, List.forall_mem_cons, hx.fits_iff hn "x", hy.fits_iff hn "y"]
  by_cases hok :
      ∃ r, resolveBinary op.operation.rule x.len y.len ⟨some n, vx, vy⟩ = some (.ok r)
  · obtain ⟨r, hr⟩ := hok
    obtain ⟨r', hr'⟩ := hiff.mp ⟨r, hr⟩
    obtain ⟨wx, wy, rfl, hwx, hwy⟩ := asks_of_resolveBinary hr
    obtain ⟨wx', wy', rfl, hwx', hwy'⟩ := asks_of_resolveBinary hr'
    obtain ⟨c, hc, hc'⟩ := answer?_of_elements hop hr hr' (hx.sameElements hwx hwx')
      (hy.sameElements hwy hwy')
    rw [hc, hc']
  · constructor
    · intro ha
      exact absurd (exists_resolve_of_answer? ha) hok
    · intro ha
      exact absurd (hiff.mpr (exists_resolve_of_answer? ha)) hok

/-- The answers of an operation on one vector depend on its elements alone. -/
structure UnaryOp.Elemental (op : UnaryOp α ρ) : Prop where
  /-- Calls with the same elements have the same answer, whatever their buffers and options. -/
  elements : ∀ {x x' : Buffer α} {opts opts' : UnaryOptions} {n : UInt64} {w w' : Window},
    resolveUnary op.operation.rule x.len opts = some (.ok ⟨n, [w]⟩) →
    resolveUnary op.operation.rule x'.len opts' = some (.ok ⟨n, [w']⟩) →
    SameElements n.toNat w w' x x' →
    ∃ a, op.answer? .sequential x opts = some a ∧ op.answer? .sequential x' opts' = some a
  /-- Cells outside the window make no difference. -/
  outside : ∀ {x x' : Buffer α} {opts : UnaryOptions}, x.cells.size = x'.cells.size →
    (∀ n w, resolveUnary op.operation.rule x.len opts = some (.ok ⟨n, [w]⟩) →
      SameElements n.toNat w w x x') →
    op.answer? .sequential x opts = op.answer? .sequential x' opts
  /-- A call on the mirror image succeeds with the same answer, or does not succeed either. -/
  mirror : ∀ {x x' : Buffer α} {v v' : VectorOptions} {n : UInt64}, n.toNat ≠ 0 →
    Mirrored n x v x' v' → ∀ a, op.answer? .sequential x ⟨some n, v⟩ = some (.ok a) ↔
      op.answer? .sequential x' ⟨some n, v'⟩ = some (.ok a)

/-- The answers of an operation on two vectors depend on their elements alone. -/
structure BinaryOp.Elemental (op : BinaryOp α ρ) : Prop where
  /-- Calls with the same elements have the same answer, whatever their buffers and options. -/
  elements : ∀ {x x' y y' : Buffer α} {opts opts' : BinaryOptions} {n : UInt64}
    {wx wx' wy wy' : Window},
    resolveBinary op.operation.rule x.len y.len opts = some (.ok ⟨n, [wx, wy]⟩) →
    resolveBinary op.operation.rule x'.len y'.len opts' = some (.ok ⟨n, [wx', wy']⟩) →
    SameElements n.toNat wx wx' x x' → SameElements n.toNat wy wy' y y' →
    ∃ a, op.answer? .sequential x y opts = some a ∧
      op.answer? .sequential x' y' opts' = some a
  /-- Cells outside the windows make no difference. -/
  outside : ∀ {x x' y y' : Buffer α} {opts : BinaryOptions}, x.cells.size = x'.cells.size →
    y.cells.size = y'.cells.size →
    (∀ n wx wy, resolveBinary op.operation.rule x.len y.len opts = some (.ok ⟨n, [wx, wy]⟩) →
      SameElements n.toNat wx wx x x' ∧ SameElements n.toNat wy wy y y') →
    op.answer? .sequential x y opts = op.answer? .sequential x' y' opts
  /-- A call on mirror images of one or both vectors succeeds with the same answer, or does not
  succeed either. -/
  mirror : ∀ {x x' y y' : Buffer α} {vx vx' vy vy' : VectorOptions} {n : UInt64}, n.toNat ≠ 0 →
    Mirrored n x vx x' vx' → Mirrored n y vy y' vy' →
    ∀ a, op.answer? .sequential x y ⟨some n, vx, vy⟩ = some (.ok a) ↔
      op.answer? .sequential x' y' ⟨some n, vx', vy'⟩ = some (.ok a)

theorem UnaryOp.elemental_of_reduces {op : UnaryOp α ρ} (hop : op.operation.reduces) :
    op.Elemental where
  elements := answer?_of_elements hop
  outside {x x' opts} hsize h := by
    obtain ⟨o, ho⟩ := op.exists_run .sequential x opts
    obtain ⟨o', ho'⟩ := op.exists_run .sequential x' opts
    obtain ⟨hanswer, -⟩ := run_congr ho ho' (len_eq_of_size hsize) fun n w hres =>
      ⟨h n w hres, fun hc => absurd hc (Operation.not_copies_of_reduces hop)⟩
    unfold answer?
    rw [ho, ho', Option.map_some, Option.map_some, hanswer]
  mirror hn h := answer?_of_mirrored hop hn h

theorem BinaryOp.elemental_of_reduces {op : BinaryOp α ρ} (hop : op.operation.reduces) :
    op.Elemental where
  elements := answer?_of_elements hop
  outside {x x' y y' opts} hx hy h := by
    obtain ⟨o, ho⟩ := op.exists_run .sequential x y opts
    obtain ⟨o', ho'⟩ := op.exists_run .sequential x' y' opts
    obtain ⟨hanswer, -⟩ := run_congr ho ho' (len_eq_of_size hx) (len_eq_of_size hy)
      fun n wx wy hres => ⟨(h n wx wy hres).1, (h n wx wy hres).2,
        fun hc => absurd hc (Operation.not_copies_of_reduces hop)⟩
    unfold answer?
    rw [ho, ho', Option.map_some, Option.map_some, hanswer]
  mirror hn hx hy := answer?_of_mirrored hop hn hx hy

/-- **The value of a reduction depends on the elements alone**, if sums are formed one by one. -/
theorem reduction_elemental :
    (∀ op : UnaryOp α ρ, op.operation.reduces → op.Elemental) ∧
      ∀ op : BinaryOp α ρ, op.operation.reduces → op.Elemental :=
  ⟨fun _ => UnaryOp.elemental_of_reduces, fun _ => BinaryOp.elemental_of_reduces⟩

/-- The elements `4, 2` of `x`, read backwards, are those of a shorter vector; and they are read
forwards in the reversed buffer. -/
theorem reduction_elemental_dot :
    ∃ (x x' y : Buffer Float) (a : Answer Float Float),
      x.cells = #[1, 2, 3, 4, 5] ∧ x'.cells = #[4, 2] ∧ y.cells = #[7, 8, 9] ∧
      BinaryOp.dot.answer? .sequential x y ⟨some 2, ⟨some 1, some (-2)⟩, {}⟩ = some (.ok a) ∧
      BinaryOp.dot.answer? .sequential x' y {} = some (.ok a) ∧
      BinaryOp.dot.answer? .sequential x.reverse y ⟨some 2, ⟨some 1, some 2⟩, {}⟩ =
        some (.ok a) := by
  let x : Buffer Float := ⟨#[1, 2, 3, 4, 5], by decide⟩
  let x' : Buffer Float := ⟨#[4, 2], by decide⟩
  let y : Buffer Float := ⟨#[7, 8, 9], by decide⟩
  have hdot := (reduction_elemental (α := Float)).2 .dot rfl
  have hx : SameElements 2 ⟨1, -2⟩ ⟨0, 1⟩ x x' := by
    intro i hi
    have h0 : (⟨1, -2⟩ : Window).place 2 0 = 3 := by decide
    have h1 : (⟨1, -2⟩ : Window).place 2 1 = 1 := by decide
    have h0' : (⟨0, 1⟩ : Window).place 2 0 = 0 := by decide
    have h1' : (⟨0, 1⟩ : Window).place 2 1 = 1 := by decide
    rcases (show i = 0 ∨ i = 1 by omega) with rfl | rfl
    · simp [x, x', Buffer.get?, h0, h0']
    · simp [x, x', Buffer.get?, h1, h1']
  have hres : resolveBinary Operation.dot.rule x.len y.len ⟨some 2, ⟨some 1, some (-2)⟩, {}⟩ =
      some (.ok ⟨2, [⟨1, -2⟩, ⟨0, 1⟩]⟩) := by
    decide
  have hres' : resolveBinary Operation.dot.rule x'.len y.len {} =
      some (.ok ⟨2, [⟨0, 1⟩, ⟨0, 1⟩]⟩) := by
    decide
  have hok : BinaryOp.dot.answer? .sequential x y ⟨some 2, ⟨some 1, some (-2)⟩, {}⟩ =
      some (.ok _) :=
    BinaryOp.answer?_of_resolved rfl hres
  obtain ⟨a, ha, ha'⟩ := hdot.elements hres hres' hx fun _ _ => rfl
  obtain rfl := Option.some.inj (ha.symm.trans hok)
  have hmirror : Mirrored 2 x ⟨some 1, some (-2)⟩ x.reverse ⟨some 1, some 2⟩ :=
    .reversed x (k := 2) (by decide) rfl rfl (by decide)
  exact ⟨x, x', y, _, rfl, rfl, rfl, hok, ha',
    (hdot.mirror (by decide) hmirror (.same y {}) _).mp hok⟩

end Strided
