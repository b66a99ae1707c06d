import Strided.Proofs.Kernel
import Strided.Proofs.Resolution

/-! # Outcomes of calls

A call ends in one of three ways: there is no kernel for the precision, the options are refused, or
the kernel has mapped the elements of the resolved windows. `run_cases` says so for operations on
one and on two vectors, with the whole outcome in each case. Everything about calls follows from it.

* `UnaryOp.role?_eq`, `BinaryOp.role?_eq`: the table and the operations agree on the arguments.
* `exists_pass?`: only an argument that is read and written reaches the buffer of the caller.
* `UnaryOp.execute?_eq`, `BinaryOp.execute?_eq`: the kernel on its storage. No element is a case of
  the same law.
* `UnaryOp.kind_answer`, `BinaryOp.kind_answer`: the table and the operations agree on the answers.
* `UnaryOp.run_of_resolved`, `BinaryOp.run_of_resolved`: a call whose options resolve.
* `UnaryOp.run_cases`, `BinaryOp.run_cases`: the outcomes.
* `exists_run`, `eq_outcome_of_ok`: there is always an outcome, and a success is that of the kernel.
* `run_reschedule`: the schedule bears on the answer of a call and on nothing else. -/

namespace Strided

/-! ### Rows and staged storage -/

namespace Operation

/-- The rule of the default length. -/
def rule (op : Operation) : LengthRule := op.row.lengthRule.getD .inclusive

/-- The role of argument `k`. -/
def role? (op : Operation) (k : ℕ) : Option Role := op.row.args[k]?.map Argument.role

end Operation

/-- The role of an argument that is passed on in this way. -/
def Passing.role : Passing → Role
  | direct => .readOnly
  | staged .shared => .copyThenReturn
  | staged .exclusive => .readWrite

section Staging
variable {α : Type}

/-- **The table and the operations agree**: the row gives an argument the role that belongs to how
the operation passes it on. -/
theorem UnaryOp.role?_eq {ρ : Type} (op : UnaryOp α ρ) :
    op.operation.role? 0 = some op.passing.role := by
  cases op <;> rfl

theorem BinaryOp.role?_eq {ρ : Type} (op : BinaryOp α ρ) :
    op.operation.role? 0 = some op.passing.1.role ∧
      op.operation.role? 1 = some op.passing.2.role := by
  cases op <;> exact ⟨rfl, rfl⟩

theorem put_values (s : Staged α) : s.put s.values = s := by
  cases s <;> rfl

theorem operation_of_select {op : Operation} {p : Precision} {sel : Selection}
    (h : select op p = .ok sel) : sel.operation = op := by
  unfold select at h
  split at h
  · cases h
    rfl
  · cases h

theorem Selection.stage?_eq {sel : Selection} {k : ℕ} {role : Role}
    (h : sel.operation.role? k = some role) (lending : Lending) (b : Buffer α) :
    sel.stage? k lending b = some (Staged.ofBuffer role lending b) := by
  obtain ⟨arg, harg, rfl⟩ := Option.map_eq_some_iff.mp h
  unfold Selection.stage? Selection.row
  rw [harg, Option.map_some]

/-- **What the caller sees of a kernel.** A buffer can be passed on, and the kernel finds its content.
If the kernel leaves `v`, and leaves a buffer that is not staged as it is, the caller sees `v` in an
argument that is read and written, and in any other the buffer as it was. -/
theorem exists_pass? {sel : Selection} {k : ℕ} {passing : Passing}
    (h : sel.operation.role? k = some passing.role) (b : Buffer α) :
    ∃ s, sel.pass? k passing b = some s ∧ s.values = b ∧
      ∀ v, (passing = .direct → v = b) →
        (s.put v).caller = if sel.operation.role? k = some .readWrite then v else b := by
  cases passing with
  | direct =>
    refine ⟨.inPlace b, rfl, rfl, fun v hv => ?_⟩
    rw [hv rfl, ite_self]
    rfl
  | staged lending =>
    refine ⟨_, Selection.stage?_eq h lending b, Staged.values_ofBuffer _ _ _, fun v _ => ?_⟩
    rw [h]
    cases lending <;> rfl

section Prepare
variable {sel : Selection} {n : Option UInt64} {operands : List Operand}

theorem prepare?_of_error {e : Error}
    (h : resolve sel.operation.rule n operands = some (.error e)) :
    sel.prepare? n operands = some (.error e, sel.rejected e) :=
  congrArg (Option.map _) h

theorem prepare?_of_ok {r : Resolved} (h : resolve sel.operation.rule n operands = some (.ok r)) :
    sel.prepare? n operands = some (.ok r, sel.begun r) :=
  congrArg (Option.map _) h

end Prepare

end Staging

/-! ### Views through resolved windows -/

section Views
variable {α : Type}

/-- The view of `n` elements of a buffer through a window. -/
def Window.view (w : Window) (n : UInt64) (b : Buffer α) : View α := ⟨b, w.offset, n, w.inc⟩

theorem Window.view?_eq {w : Window} {n : UInt64} {b : Buffer α}
    (h : w.Inside n.toNat b.cells.size) : w.view? n b = some (w.view n b) := by
  have hle : w.offset ≤ b.len := by
    rw [UInt64.le_iff_toNat_le, b.toNat_len]
    exact h.offset_lt.le
  have hfits : w.fits n b.len := by
    rw [Window.fits_iff, b.toNat_len]
    exact or_iff_not_imp_left.mpr h.last_lt
  unfold Window.view? Window.view
  rw [if_pos ⟨hle, h.inc_ne, hfits⟩]

theorem View.mapElements_of_n_eq_zero {v : View α} (h : v.n = 0) (f : α → α) :
    v.mapElements f = v := by
  simp [View.mapElements, View.gather, View.scatter, h]

theorem View.mapPairs_of_n_eq_zero {v w : View α} (hv : v.n = 0) (f : α → α → α × α) :
    v.mapPairs f w = (v, w) := by
  simp [View.mapPairs, View.gather, View.scatter, hv]

variable {rule : LengthRule} {r : Resolved}

theorem window_of_resolveUnary {x : Buffer α} {opts : UnaryOptions}
    (h : resolveUnary rule x.len opts = some (.ok r)) :
    ∃ w, r = ⟨r.n, [w]⟩ ∧ w.Inside r.n.toNat x.cells.size := by
  have hin := inside_of_resolve h
  unfold unaryOperands at hin
  rw [List.forall₂_cons_left_iff] at hin
  obtain ⟨w, ws, hw, hws, e⟩ := hin
  obtain rfl := List.forall₂_nil_left_iff.mp hws
  rw [x.toNat_len] at hw
  exact ⟨w, by rw [← e], hw⟩

theorem inside_of_resolveUnary {x : Buffer α} {opts : UnaryOptions} {n : UInt64} {w : Window}
    (h : resolveUnary rule x.len opts = some (.ok ⟨n, [w]⟩)) : w.Inside n.toNat x.cells.size := by
  obtain ⟨w', e, hin⟩ := window_of_resolveUnary h
  cases e
  exact hin

theorem windows_of_resolveBinary {x y : Buffer α} {opts : BinaryOptions}
    (h : resolveBinary rule x.len y.len opts = some (.ok r)) :
    ∃ wx wy, r = ⟨r.n, [wx, wy]⟩ ∧ wx.Inside r.n.toNat x.cells.size ∧
      wy.Inside r.n.toNat y.cells.size := by
  have hin := inside_of_resolve h
  unfold binaryOperands at hin
  rw [List.forall₂_cons_left_iff] at hin
  obtain ⟨wx, ws, hwx, hws, e⟩ := hin
  rw [List.forall₂_cons_left_iff] at hws
  obtain ⟨wy, ws', hwy, hws', rfl⟩ := hws
  obtain rfl := List.forall₂_nil_left_iff.mp hws'
  rw [x.toNat_len] at hwx
  rw [y.toNat_len] at hwy
  exact ⟨wx, wy, by rw [← e], hwx, hwy⟩

theorem inside_of_resolveBinary {x y : Buffer α} {opts : BinaryOptions} {n : UInt64}
    {wx wy : Window} (h : resolveBinary rule x.len y.len opts = some (.ok ⟨n, [wx, wy]⟩)) :
    wx.Inside n.toNat x.cells.size ∧ wy.Inside n.toNat y.cells.size := by
  obtain ⟨wx', wy', e, hin⟩ := windows_of_resolveBinary h
  cases e
  exact hin

end Views

/-- The kind of an answer, in the words of the table. -/
def Answer.kind {α ρ : Type} : Answer α ρ → Returns
  | done => .unit
  | scalar _ => .scalar
  | real _ => .realScalar
  | index _ => .index
  | vectors _ => .vectors
  | cosSin .. => .cosSin
  | params _ => .params

theorem Answer.eq_done_of_kind {α ρ : Type} {a : Answer α ρ} (h : a.kind = .unit) : a = .done := by
  cases a with
  | done => rfl
  | _ => cases h

variable {α ρ : Type} [RealScalar ρ] [Element α ρ]

/-! ### Operations on one vector -/

namespace UnaryOp

/-- A buffer with the elements of a window replaced by their images. -/
def result (op : UnaryOp α ρ) (n : UInt64) (w : Window) (x : Buffer α) : Buffer α :=
  ((w.view n x).mapElements op.image).buffer

/-- The answer of the kernel, or the one for no elements. -/
def reply (plan : Schedule) (op : UnaryOp α ρ) (n : UInt64) (w : Window) (x : Buffer α) :
    Answer α ρ :=
  if n = 0 then op.emptyAnswer else op.value plan (w.view n x)

/-- What a call leaves behind after its kernel. -/
def outcome (plan : Schedule) (op : UnaryOp α ρ) (sel : Selection) (n : UInt64) (w : Window)
    (x : Buffer α) : Outcome (Buffer α) α ρ where
  buffers := if op.operation.role? 0 = some .readWrite then op.result n w x else x
  answer := .ok (op.handBack (op.result n w x) (op.reply plan n w x))
  events := [sel.begun ⟨n, [w]⟩]

omit [RealScalar ρ] in
/-- A kernel leaves a vector that is not staged as it is. -/
theorem result_of_direct {op : UnaryOp α ρ} (h : op.passing = .direct) {n : UInt64} {w : Window}
    {x : Buffer α} (hin : w.Inside n.toNat x.cells.size) : op.result n w x = x := by
  have hid := congrArg View.buffer (View.mapElements_id (x := w.view n x) hin)
  cases op with
  | scal alpha => cases h
  | scalReal alpha => cases h
  | nrm2 => exact hid
  | asum => exact hid
  | iamax => exact hid

/-- **The table and the operations agree on the answers**: they are of the kind that the row says. -/
theorem kind_answer (plan : Schedule) (op : UnaryOp α ρ) (sel : Selection) {n : UInt64} {w : Window}
    {x : Buffer α} {a : Answer α ρ} (h : (op.outcome plan sel n w x).answer = .ok a) :
    a.kind = op.operation.row.returns := by
  cases h
  unfold reply
  split_ifs
  · cases op <;> rfl
  · cases op <;> rfl

theorem execute?_eq (plan : Schedule) (op : UnaryOp α ρ) {n : UInt64} {w : Window} {s : Staged α}
    (h : w.Inside n.toNat s.values.cells.size) :
    op.execute? plan ⟨n, [w]⟩ s =
      some (s.put (op.result n w s.values), op.reply plan n w s.values) := by
  unfold execute? Resolved.isNoop result reply
  by_cases h0 : n = 0
  · rw [View.mapElements_of_n_eq_zero (show (w.view n s.values).n = 0 from h0)]
    simp [h0, Window.view, put_values]
  · have hcompute := compute?_eq (x := w.view n s.values) h plan op
    simp [h0, Resolved.view?, Window.view?_eq h, hcompute]

section Run
variable (plan : Schedule) {op : UnaryOp α ρ} {x : Buffer α} {opts : UnaryOptions}
  {sel : Selection}

theorem run_of_unsupported {e : Error}
    (h : select op.operation (Element.precision α) = .error e) :
    op.run plan x opts = some ⟨x, .error e, []⟩ := by
  unfold run
  rw [h]

theorem run_of_refused {e : Error} (hsel : select op.operation (Element.precision α) = .ok sel)
    (hres : resolveUnary op.operation.rule x.len opts = some (.error e)) :
    op.run plan x opts = some ⟨x, .error e, [sel.rejected e]⟩ := by
  have hprep := prepare?_of_error (by rw [operation_of_select hsel]; exact hres)
  unfold run
  simp [hsel, hprep]

theorem run_of_resolved {n : UInt64} {w : Window}
    (hsel : select op.operation (Element.precision α) = .ok sel)
    (hres : resolveUnary op.operation.rule x.len opts = some (.ok ⟨n, [w]⟩)) :
    op.run plan x opts = some (op.outcome plan sel n w x) := by
  have hop := operation_of_select hsel
  have hprep := prepare?_of_ok (by rw [hop]; exact hres)
  have hin := inside_of_resolveUnary hres
  obtain ⟨s, hs, hvalues, hcaller⟩ := exists_pass? (by rw [hop]; exact op.role?_eq) x
  have hexec := execute?_eq plan op (s := s) (by rw [hvalues]; exact hin)
  rw [hvalues] at hexec
  have hbuffer := hcaller (op.result n w x) fun h => result_of_direct h hin
  rw [hop] at hbuffer
  unfold run
  simp [hsel, hprep, hs, hexec, outcome, hbuffer]

end Run

/-- **The outcomes of a call on one vector.** -/
theorem run_cases (plan : Schedule) (op : UnaryOp α ρ) (x : Buffer α) (opts : UnaryOptions) :
    (∃ e, select op.operation (Element.precision α) = .error e ∧
      op.run plan x opts = some ⟨x, .error e, []⟩) ∨
    (∃ sel e, select op.operation (Element.precision α) = .ok sel ∧
      resolveUnary op.operation.rule x.len opts = some (.error e) ∧
      op.run plan x opts = some ⟨x, .error e, [sel.rejected e]⟩) ∨
    ∃ sel n w, select op.operation (Element.precision α) = .ok sel ∧
      resolveUnary op.operation.rule x.len opts = some (.ok ⟨n, [w]⟩) ∧
      w.Inside n.toNat x.cells.size ∧
      op.run plan x opts = some (op.outcome plan sel n w x) := by
  cases hsel : select op.operation (Element.precision α) with
  | error e => exact Or.inl ⟨e, rfl, run_of_unsupported plan hsel⟩
  | ok sel =>
    obtain ⟨res, hres⟩ := exists_resolve op.operation.rule opts.n (unaryOperands x.len opts)
    right
    cases res with
    | error e => exact Or.inl ⟨sel, e, rfl, hres, run_of_refused plan hsel hres⟩
    | ok r =>
      obtain ⟨w, hr, hin⟩ := window_of_resolveUnary hres
      rw [hr] at hres
      exact Or.inr ⟨sel, r.n, w, rfl, hres, hin, run_of_resolved plan hsel hres⟩

theorem exists_run (plan : Schedule) (op : UnaryOp α ρ) (x : Buffer α) (opts : UnaryOptions) :
    ∃ o, op.run plan x opts = some o := by
  obtain ⟨_, -, h⟩ | ⟨_, _, -, -, h⟩ | ⟨_, _, _, -, -, -, h⟩ := op.run_cases plan x opts
  · exact ⟨_, h⟩
  · exact ⟨_, h⟩
  · exact ⟨_, h⟩

/-- A successful call has run its kernel. -/
theorem eq_outcome_of_ok {plan : Schedule} {op : UnaryOp α ρ} {x : Buffer α} {opts : UnaryOptions}
    {o : Outcome (Buffer α) α ρ} {a : Answer α ρ} (ho : op.run plan x opts = some o)
    (ha : o.answer = .ok a) :
    ∃ sel n w, resolveUnary op.operation.rule x.len opts = some (.ok ⟨n, [w]⟩) ∧
      w.Inside n.toNat x.cells.size ∧ o = op.outcome plan sel n w x := by
  obtain ⟨e, -, h⟩ | ⟨sel, e, -, -, h⟩ | ⟨sel, n, w, -, hres, hin, h⟩ := op.run_cases plan x opts
  · cases ho.symm.trans h
    cases ha
  · cases ho.symm.trans h
    cases ha
  · exact ⟨sel, n, w, hres, hin, Option.some.inj (ho.symm.trans h)⟩

/-- **The schedule bears on the answer alone.** -/
theorem run_reschedule {plan : Schedule} (plan' : Schedule) {op : UnaryOp α ρ} {x : Buffer α}
    {opts : UnaryOptions} {o : Outcome (Buffer α) α ρ} (h : op.run plan x opts = some o) :
    ∃ o', op.run plan' x opts = some o' ∧ o'.buffers = o.buffers ∧ o'.events = o.events := by
  obtain ⟨e, hsel, hrun⟩ | ⟨sel, e, hsel, hres, hrun⟩ | ⟨sel, n, w, hsel, hres, -, hrun⟩ :=
    op.run_cases plan x opts
  · cases h.symm.trans hrun
    exact ⟨_, run_of_unsupported plan' hsel, rfl, rfl⟩
  · cases h.symm.trans hrun
    exact ⟨_, run_of_refused plan' hsel hres, rfl, rfl⟩
  · cases h.symm.trans hrun
    exact ⟨_, run_of_resolved plan' hsel hres, rfl, rfl⟩

end UnaryOp

/-! ### Operations on two vectors -/

namespace BinaryOp

/-- Two buffers with the pairs of elements of their windows replaced by their images. -/
def result (op : BinaryOp α ρ) (n : UInt64) (wx wy : Window) (x y : Buffer α) :
    Buffer α × Buffer α :=
  (((wx.view n x).mapPairs op.image (wy.view n y)).1.buffer,
    ((wx.view n x).mapPairs op.image (wy.view n y)).2.buffer)

/-- The answer of the kernel, or the one for no elements. -/
def reply (plan : Schedule) (op : BinaryOp α ρ) (n : UInt64) (wx wy : Window) (x y : Buffer α) :
    Answer α ρ :=
  if n = 0 then op.emptyAnswer else op.value plan (wx.view n x) (wy.view n y)

/-- What a call leaves behind after its kernel. -/
def outcome (plan : Schedule) (op : BinaryOp α ρ) (sel : Selection) (n : UInt64) (wx wy : Window)
    (x y : Buffer α) : Outcome (Buffer α × Buffer α) α ρ where
  buffers :=
    (if op.operation.role? 0 = some .readWrite then (op.result n wx wy x y).1 else x,
      if op.operation.role? 1 = some .readWrite then (op.result n wx wy x y).2 else y)
  answer := .ok (op.handBack (op.result n wx wy x y).1 (op.result n wx wy x y).2
    (op.reply plan n wx wy x y))
  events := [sel.begun ⟨n, [wx, wy]⟩]

section Direct
variable {op : BinaryOp α ρ} {n : UInt64} {wx wy : Window} {x y : Buffer α}
  (hx : wx.Inside n.toNat x.cells.size) (hy : wy.Inside n.toNat y.cells.size)
include hx hy

/-- A kernel leaves a first vector that is not staged as it is. -/
theorem result_fst_of_direct (h : op.passing.1 = .direct) : (op.result n wx wy x y).1 = x := by
  have hfst : ∀ {f : α → α → α × α}, (∀ a b, (f a b).1 = a) →
      ((wx.view n x).mapPairs f (wy.view n y)).1.buffer = x := fun hf =>
    congrArg View.buffer (View.mapPairs_fst (x := wx.view n x) (y := wy.view n y) hx hy rfl hf)
  cases op with
  | copy => exact hfst fun _ _ => rfl
  | axpy alpha => exact hfst fun _ _ => rfl
  | dot => exact hfst fun _ _ => rfl
  | dotu => exact hfst fun _ _ => rfl
  | dotc => exact hfst fun _ _ => rfl
  | _ => cases h

/-- A kernel leaves a second vector that is not staged as it is. -/
theorem result_snd_of_direct (h : op.passing.2 = .direct) : (op.result n wx wy x y).2 = y := by
  have hsnd : ((wx.view n x).mapPairs (fun a b => (a, b)) (wy.view n y)).2.buffer = y :=
    congrArg View.buffer
      (View.mapPairs_snd (x := wx.view n x) (y := wy.view n y) hx hy rfl fun _ _ => rfl)
  cases op with
  | dot => exact hsnd
  | dotu => exact hsnd
  | dotc => exact hsnd
  | _ => cases h

end Direct

/-- **The table and the operations agree on the answers**: they are of the kind that the row says. -/
theorem kind_answer (plan : Schedule) (op : BinaryOp α ρ) (sel : Selection) {n : UInt64}
    {wx wy : Window} {x y : Buffer α} {a : Answer α ρ}
    (h : (op.outcome plan sel n wx wy x y).answer = .ok a) :
    a.kind = op.operation.row.returns := by
  cases h
  unfold reply
  split_ifs
  · cases op <;> rfl
  · cases op <;> rfl

theorem execute?_eq (plan : Schedule) (op : BinaryOp α ρ) {n : UInt64} {wx wy : Window}
    {s t : Staged α} (hx : wx.Inside n.toNat s.values.cells.size)
    (hy : wy.Inside n.toNat t.values.cells.size) :
    op.execute? plan ⟨n, [wx, wy]⟩ s t =
      some ((s.put (op.result n wx wy s.values t.values).1,
          t.put (op.result n wx wy s.values t.values).2),
        op.reply plan n wx wy s.values t.values) := by
  unfold execute? Resolved.isNoop result reply
  by_cases h0 : n = 0
  · rw [View.mapPairs_of_n_eq_zero (show (wx.view n s.values).n = 0 from h0)]
    simp [h0, Window.view, put_values]
  · have hcompute := compute?_eq (x := wx.view n s.values) (y := wy.view n t.values) hx hy rfl plan
      op
    simp [h0, Resolved.view?, Window.view?_eq hx, Window.view?_eq hy, hcompute]

section Run
variable (plan : Schedule) {op : BinaryOp α ρ} {x y : Buffer α} {opts : BinaryOptions}
  {sel : Selection}

theorem run_of_unsupported {e : Error}
    (h : select op.operation (Element.precision α) = .error e) :
    op.run plan x y opts = some ⟨(x, y), .error e, []⟩ := by
  unfold run
  rw [h]

theorem run_of_refused {e : Error} (hsel : select op.operation (Element.precision α) = .ok sel)
    (hres : resolveBinary op.operation.rule x.len y.len opts = some (.error e)) :
    op.run plan x y opts = some ⟨(x, y), .error e, [sel.rejected e]⟩ := by
  have hprep := prepare?_of_error (by rw [operation_of_select hsel]; exact hres)
  unfold run
  simp [hsel, hprep]

theorem run_of_resolved {n : UInt64} {wx wy : Window}
    (hsel : select op.operation (Element.precision α) = .ok sel)
    (hres : resolveBinary op.operation.rule x.len y.len opts = some (.ok ⟨n, [wx, wy]⟩)) :
    op.run plan x y opts = some (op.outcome plan sel n wx wy x y) := by
  have hop := operation_of_select hsel
  have hprep := prepare?_of_ok (by rw [hop]; exact hres)
  obtain ⟨hwx, hwy⟩ := inside_of_resolveBinary hres
  obtain ⟨s, hs, hsv, hscaller⟩ := exists_pass? (by rw [hop]; exact op.role?_eq.1) x
  obtain ⟨t, ht, htv, htcaller⟩ := exists_pass? (by rw [hop]; exact op.role?_eq.2) y
  have hexec := execute?_eq plan op (s := s) (t := t) (by rw [hsv]; exact hwx)
    (by rw [htv]; exact hwy)
  rw [hsv, htv] at hexec
  have hx := hscaller (op.result n wx wy x y).1 fun h => result_fst_of_direct hwx hwy h
  have hy := htcaller (op.result n wx wy x y).2 fun h => result_snd_of_direct hwx hwy h
  rw [hop] at hx hy
  unfold run
  simp [hsel, hprep, hs, ht, hexec, outcome, hx, hy]

end Run

/-- **The outcomes of a call on two vectors.** -/
theorem run_cases (plan : Schedule) (op : BinaryOp α ρ) (x y : Buffer α) (opts : BinaryOptions) :
    (∃ e, select op.operation (Element.precision α) = .error e ∧
      op.run plan x y opts = some ⟨(x, y), .error e, []⟩) ∨
    (∃ sel e, select op.operation (Element.precision α) = .ok sel ∧
      resolveBinary op.operation.rule x.len y.len opts = some (.error e) ∧
      op.run plan x y opts = some ⟨(x, y), .error e, [sel.rejected e]⟩) ∨
    ∃ sel n wx wy, select op.operation (Element.precision α) = .ok sel ∧
      resolveBinary op.operation.rule x.len y.len opts = some (.ok ⟨n, [wx, wy]⟩) ∧
      wx.Inside n.toNat x.cells.size ∧ wy.Inside n.toNat y.cells.size ∧
      op.run plan x y opts = some (op.outcome plan sel n wx wy x y) := by
  cases hsel : select op.operation (Element.precision α) with
  | error e => exact Or.inl ⟨e, rfl, run_of_unsupported plan hsel⟩
  | ok sel =>
    obtain ⟨res, hres⟩ :=
      exists_resolve op.operation.rule opts.n (binaryOperands x.len y.len opts)
    right
    cases res with
    | error e => exact Or.inl ⟨sel, e, rfl, hres, run_of_refused plan hsel hres⟩
    | ok r =>
      obtain ⟨wx, wy, hr, hwx, hwy⟩ := windows_of_resolveBinary hres
      rw [hr] at hres
      exact Or.inr ⟨sel, r.n, wx, wy, rfl, hres, hwx, hwy, run_of_resolved plan hsel hres⟩

theorem exists_run (plan : Schedule) (op : BinaryOp α ρ) (x y : Buffer α) (opts : BinaryOptions) :
    ∃ o, op.run plan x y opts = some o := by
  obtain ⟨_, -, h⟩ | ⟨_, _, -, -, h⟩ | ⟨_, _, _, _, -, -, -, -, h⟩ := op.run_cases plan x y opts
  · exact ⟨_, h⟩
  · exact ⟨_, h⟩
  · exact ⟨_, h⟩

/-- A successful call has run its kernel. -/
theorem eq_outcome_of_ok {plan : Schedule} {op : BinaryOp α ρ} {x y : Buffer α}
    {opts : BinaryOptions} {o : Outcome (Buffer α × Buffer α) α ρ} {a : Answer α ρ}
    (ho : op.run plan x y opts = some o) (ha : o.answer = .ok a) :
    ∃ sel n wx wy,
      resolveBinary op.operation.rule x.len y.len opts = some (.ok ⟨n, [wx, wy]⟩) ∧
      wx.Inside n.toNat x.cells.size ∧ wy.Inside n.toNat y.cells.size ∧
      o = op.outcome plan sel n wx wy x y := by
  obtain ⟨e, -, h⟩ | ⟨sel, e, -, -, h⟩ | ⟨sel, n, wx, wy, -, hres, hx, hy, h⟩ :=
    op.run_cases plan x y opts
  · cases ho.symm.trans h
    cases ha
  · cases ho.symm.trans h
    cases ha
  · exact ⟨sel, n, wx, wy, hres, hx, hy, Option.some.inj (ho.symm.trans h)⟩

/-- **The schedule bears on the answer alone.** -/
theorem run_reschedule {plan : Schedule} (plan' : Schedule) {op : BinaryOp α ρ} {x y : Buffer α}
    {opts : BinaryOptions} {o : Outcome (Buffer α × Buffer α) α ρ}
    (h : op.run plan x y opts = some o) :
    ∃ o', op.run plan' x y opts = some o' ∧ o'.buffers = o.buffers ∧ o'.events = o.events := by
  obtain ⟨e, hsel, hrun⟩ | ⟨sel, e, hsel, hres, hrun⟩ | ⟨sel, n, wx, wy, hsel, hres, -, -, hrun⟩ :=
    op.run_cases plan x y opts
  · cases h.symm.trans hrun
    exact ⟨_, run_of_unsupported plan' hsel, rfl, rfl⟩
  · cases h.symm.trans hrun
    exact ⟨_, run_of_refused plan' hsel hres, rfl, rfl⟩
  · cases h.symm.trans hrun
    exact ⟨_, run_of_resolved plan' hsel hres, rfl, rfl⟩

end BinaryOp

end Strided
