import Strided.Proofs.Reduction
import Strided.Proofs.Succession

/-! # Increments of the opposite sign

A window occupies the same cells for either sign of its increment and shows them in the opposite
order. If all increments of a call change their signs, the same elements stand side by side, and an
operation that treats them one by one leaves the same buffers. This is so although the elements come
in another order, and although only the one of the two calls may treat a vector as a block.

* `reach_neg`, `Window.place_reversed`: the places of the elements, in the opposite order.
* `resolve_reversed`: the resolver gives the reversed windows, or the same error up to the sign.
* `Replaced.of_reversed`, `Transformed.of_reversed`: replacing the elements of a reversed window.
* `UnaryOp.result_reversed`, `BinaryOp.result_reversed`: the kernels.
* `reversed_increments`: the calls. -/

namespace Strided

/-! ### Signs of increments -/

theorem toInt_neg_of_ne {i : Int64} (h : i ≠ Int64.minValue) : (-i).toInt = -i.toInt := by
  have hlt := i.toInt_lt
  have hle := i.le_toInt
  have hne : i.toInt ≠ -2 ^ 63 := fun e => h (Int64.toInt_inj.mp e)
  rw [Int64.toInt_neg]
  exact Int.bmod_eq_of_le (by omega) (by omega)

/-- The least increment is its own negative, so here it is no exception. -/
theorem magnitude_neg (i : Int64) : Word.magnitude (-i) = Word.magnitude i := by
  by_cases h : i = Int64.minValue
  · rw [h]
    decide
  · unfold Word.magnitude
    rw [toInt_neg_of_ne h, Int.natAbs_neg]

theorem natAbs_neg_inc (i : Int64) : (-i).toInt.natAbs = i.toInt.natAbs := by
  rw [← Word.toNat_magnitude, magnitude_neg, Word.toNat_magnitude]

theorem neg_inc_eq_zero_iff {i : Int64} : -i = 0 ↔ i = 0 := by
  rw [← toInt_eq_zero_iff, ← toInt_eq_zero_iff, ← Int.natAbs_eq_zero, natAbs_neg_inc,
    Int.natAbs_eq_zero]

/-- **The positions in the opposite order.** -/
theorem reach_neg {inc : Int64} (hinc : inc ≠ 0) (hmin : inc ≠ Int64.minValue) {n i : ℕ}
    (hi : i < n) : reach n (-inc) i = reach n inc (n - 1 - i) := by
  have hne : inc.toInt ≠ 0 := mt toInt_eq_zero_iff.mp hinc
  have hneg := toInt_neg_of_ne hmin
  have hback : n - 1 - (n - 1 - i) = i := by omega
  unfold reach
  simp only [toInt_pos, hneg, Int.natAbs_neg]
  rcases Int.lt_or_gt_of_ne hne with h | h
  · rw [if_pos (by omega), if_neg (by omega), hback]
  · rw [if_neg (by omega), if_pos (by omega)]

/-! ### Reversed windows -/

namespace Window

/-- The same cells in the opposite order. -/
def reversed (w : Window) : Window := ⟨w.offset, -w.inc⟩

variable {w : Window} {n len : ℕ}

/-- **The places in the opposite order.** -/
theorem place_reversed (hinc : w.inc ≠ 0) (hmin : w.inc ≠ Int64.minValue) {i : ℕ} (hi : i < n) :
    w.reversed.place n i = w.place n (n - 1 - i) := by
  unfold place reversed
  rw [reach_neg hinc hmin hi]

theorem last_reversed (w : Window) (n : ℕ) : w.reversed.last n = w.last n := by
  unfold last reversed
  rw [natAbs_neg_inc]

theorem Inside.reversed (h : w.Inside n len) : w.reversed.Inside n len := by
  refine ⟨mt neg_inc_eq_zero_iff.mp h.inc_ne, h.offset_lt, fun hn => ?_⟩
  rw [last_reversed]
  exact h.last_lt hn

end Window

/-! ### Resolution -/

/-- The error of the same call with increments of the opposite sign. -/
def Error.reversed : Error → Error
  | vectorTooShort arg n offset inc len => vectorTooShort arg n offset (-inc) len
  | e => e

/-- The increment with the opposite sign; it is `1` if it is not given. -/
def VectorOptions.reversed (v : VectorOptions) : VectorOptions :=
  { v with inc := some (-(v.inc.getD 1)) }

/-- The same options with the opposite increment. -/
def UnaryOptions.reversed (o : UnaryOptions) : UnaryOptions := { o with x := o.x.reversed }

/-- The same options with the opposite increments. -/
def BinaryOptions.reversed (o : BinaryOptions) : BinaryOptions :=
  { o with x := o.x.reversed, y := o.y.reversed }

/-- An operand with the opposite increment. -/
def Operand.reversed (o : Operand) : Operand := { o with opts := o.opts.reversed }

/-- A resolution with the windows reversed. -/
def Resolved.reversed (r : Resolved) : Resolved := ⟨r.n, r.windows.map Window.reversed⟩

/-- The image of a result, or the error with the opposite increment. -/
def reversing {β γ : Type} (f : β → γ) (r : Except Error β) : Except Error γ :=
  (r.mapError Error.reversed).map f

theorem reversing_bind {β β' γ γ' : Type} {f : β → β'} {h : γ → γ'} {r : Except Error β}
    {g : β → Except Error γ} {g' : β' → Except Error γ'}
    (hg : ∀ b, g' (f b) = reversing h (g b)) : reversing f r >>= g' = reversing h (r >>= g) := by
  cases r with
  | error e => rfl
  | ok b => exact hg b

theorem checkIncrement_reversed (arg : String) (inc : Option Int64) :
    checkIncrement arg (some (-(inc.getD 1))) = reversing (- ·) (checkIncrement arg inc) := by
  have hzero : -(inc.getD 1) = 0 ↔ inc.getD 1 = 0 := neg_inc_eq_zero_iff
  unfold checkIncrement
  simp only [Option.getD_some, hzero]
  split_ifs <;> rfl

theorem checkOffset_reversed (arg : String) (offset : Option Int64) (len : UInt64) :
    checkOffset arg offset len = reversing id (checkOffset arg offset len) := by
  unfold checkOffset
  split <;> rfl

theorem Operand.window_reversed (o : Operand) :
    o.reversed.window = reversing Window.reversed o.window := by
  change (checkIncrement o.name (some (-(o.opts.inc.getD 1))) >>= fun inc =>
    checkOffset o.name o.opts.offset o.len >>= fun offset => pure (⟨offset, inc⟩ : Window)) = _
  rw [checkIncrement_reversed, checkOffset_reversed]
  exact reversing_bind fun inc => reversing_bind fun offset => rfl

theorem mapM_window_reversed : ∀ operands : List Operand,
    (operands.map Operand.reversed).mapM Operand.window =
      reversing (List.map Window.reversed) (operands.mapM Operand.window)
  | [] => rfl
  | o :: operands => by
    rw [List.map_cons, List.mapM_cons, List.mapM_cons, o.window_reversed,
      mapM_window_reversed operands]
    exact reversing_bind fun w => reversing_bind fun ws => rfl

theorem defaultLength?_neg (rule : LengthRule) (len offset : UInt64) (inc : Int64) :
    rule.defaultLength? len offset (-inc) = rule.defaultLength? len offset inc := by
  unfold LengthRule.defaultLength?
  rw [magnitude_neg]

theorem commonLength?_reversed (rule : LengthRule) (n : Option UInt64) (operands : List Operand)
    (windows : List Window) :
    commonLength? rule n (operands.map Operand.reversed) (windows.map Window.reversed) =
      commonLength? rule n operands windows := by
  cases n with
  | some n => rfl
  | none =>
    cases operands with
    | nil => rfl
    | cons o operands =>
      cases windows with
      | nil => rfl
      | cons w windows => exact defaultLength?_neg rule o.len w.offset w.inc

theorem Window.checkExtent_reversed (w : Window) (arg : String) (n len : UInt64) :
    w.reversed.checkExtent arg n len = reversing id (w.checkExtent arg n len) := by
  have hfits : w.reversed.fits n len = w.fits n len := by
    unfold fits reversed
    rw [magnitude_neg]
  unfold checkExtent
  rw [hfits]
  split_ifs <;> rfl

theorem checkExtents_reversed (n : UInt64) : ∀ (operands : List Operand) (windows : List Window),
    checkExtents n (operands.map Operand.reversed) (windows.map Window.reversed) =
      reversing id (checkExtents n operands windows)
  | [], _ => rfl
  | _ :: _, [] => rfl
  | o :: operands, w :: windows => by
    change (w.reversed.checkExtent o.name n o.len >>= fun _ =>
      checkExtents n (operands.map Operand.reversed) (windows.map Window.reversed)) = _
    rw [w.checkExtent_reversed, checkExtents_reversed n operands windows]
    exact reversing_bind fun _ => rfl

/-- **Resolution with increments of the opposite sign.** -/
theorem resolve_reversed (rule : LengthRule) (n : Option UInt64) (operands : List Operand) :
    resolve rule n (operands.map Operand.reversed) =
      (resolve rule n operands).map (reversing Resolved.reversed) := by
  unfold resolve
  rw [mapM_window_reversed]
  cases operands.mapM Operand.window with
  | error e => rfl
  | ok windows =>
    simp only [reversing, Except.mapError, Except.map, commonLength?_reversed,
      checkExtents_reversed]
    cases commonLength? rule n operands windows with
    | none => rfl
    | some m =>
      dsimp only
      cases checkExtents m operands windows <;> rfl

theorem resolveUnary_reversed (rule : LengthRule) (len : UInt64) (opts : UnaryOptions) :
    resolveUnary rule len opts.reversed =
      (resolveUnary rule len opts).map (reversing Resolved.reversed) :=
  resolve_reversed rule opts.n (unaryOperands len opts)

theorem resolveBinary_reversed (rule : LengthRule) (xLen yLen : UInt64) (opts : BinaryOptions) :
    resolveBinary rule xLen yLen opts.reversed =
      (resolveBinary rule xLen yLen opts).map (reversing Resolved.reversed) :=
  resolve_reversed rule opts.n (binaryOperands xLen yLen opts)

/-- An operation without a kernel has no increment in its error. -/
theorem reversed_of_select {op : Operation} {p : Precision} {e : Error}
    (h : select op p = .error e) : e.reversed = e := by
  unfold select at h
  split at h
  · cases h
  · cases h
    rfl

theorem inc_ne_of_asks {name : String} {len : UInt64} {v : VectorOptions} {w : Window}
    (hw : Operand.Asks ⟨name, len, v⟩ w) (hv : v.inc ≠ some Int64.minValue) :
    w.inc ≠ Int64.minValue := by
  have hinc : w.inc = v.inc.getD 1 := Int64.toInt_inj.mp hw.inc
  rw [hinc]
  cases h : v.inc with
  | none => decide
  | some i =>
    rw [h] at hv
    exact fun e => hv (congrArg some e)

/-! ### Replacing the elements of a reversed window -/

section Replaced
variable {α : Type} {w wx wy : Window} {n : ℕ} {z : ℕ → Option α} {b b' x y x' y' : Buffer α}

theorem Replaced.of_reversed (hinc : w.inc ≠ 0) (hmin : w.inc ≠ Int64.minValue)
    (h : Replaced w.reversed n z b b') : Replaced w n (fun i => z (n - 1 - i)) b b' := by
  have hplace : ∀ i < n, w.reversed.place n (n - 1 - i) = w.place n i := by
    intro i hi
    rw [Window.place_reversed hinc hmin (by omega)]
    congr 1
    omega
  refine ⟨fun i hi => ?_, fun j hj => h.other j fun i hi => ?_⟩
  · obtain ⟨c, hz, hc⟩ := h.element (n - 1 - i) (by omega)
    rw [hplace i hi] at hc
    exact ⟨c, hz, hc⟩
  · rw [Window.place_reversed hinc hmin hi]
    exact hj _ (by omega)

theorem Transformed.of_reversed {f : α → α → α × α} (hx : wx.inc ≠ 0)
    (hx' : wx.inc ≠ Int64.minValue) (hy : wy.inc ≠ 0) (hy' : wy.inc ≠ Int64.minValue)
    (h : Transformed f n wx.reversed wy.reversed x y x' y') :
    Transformed f n wx wy x y x' y' := by
  have himage : ∀ i < n, imageAt? f n wx.reversed wy.reversed x y (n - 1 - i) =
      imageAt? f n wx wy x y i := by
    intro i hi
    have hback : n - 1 - (n - 1 - i) = i := by omega
    unfold imageAt?
    rw [Window.place_reversed hx hx' (by omega), Window.place_reversed hy hy' (by omega), hback]
  constructor
  · exact (h.fst.of_reversed hx hx').congr fun i hi =>
      congrArg (Option.map Prod.fst) (himage i hi)
  · exact (h.snd.of_reversed hy hy').congr fun i hi =>
      congrArg (Option.map Prod.snd) (himage i hi)

end Replaced

/-! ### Kernels -/

variable {α ρ : Type} [RealScalar ρ] [Element α ρ]

namespace UnaryOp

omit [RealScalar ρ] in
theorem result_reversed (op : UnaryOp α ρ) {n : UInt64} {w : Window} {x : Buffer α}
    (hin : w.Inside n.toNat x.cells.size) (hmin : w.inc ≠ Int64.minValue) :
    op.result n w.reversed x = op.result n w x := by
  have h := (op.replaced_result hin.reversed).of_reversed hin.inc_ne hmin
  refine Replaced.unique (h.congr fun i hi => ?_) (op.replaced_result hin)
  have hback : n.toNat - 1 - (n.toNat - 1 - i) = i := by omega
  unfold image?
  rw [Window.place_reversed hin.inc_ne hmin (by omega), hback]

theorem reply_of_not_reduces (plan : Schedule) {op : UnaryOp α ρ}
    (hop : op.operation.reduces = false) (n : UInt64) (w : Window) (x : Buffer α) :
    op.reply plan n w x = .done := by
  unfold reply
  cases op with
  | scal alpha => split_ifs <;> rfl
  | scalReal alpha => split_ifs <;> rfl
  | _ => cases hop

end UnaryOp

namespace BinaryOp

theorem result_reversed (op : BinaryOp α ρ) {n : UInt64} {wx wy : Window} {x y : Buffer α}
    (hx : wx.Inside n.toNat x.cells.size) (hx' : wx.inc ≠ Int64.minValue)
    (hy : wy.Inside n.toNat y.cells.size) (hy' : wy.inc ≠ Int64.minValue) :
    op.result n wx.reversed wy.reversed x y = op.result n wx wy x y := by
  have h := (op.transformed_result hx.reversed hy.reversed).of_reversed hx.inc_ne hx' hy.inc_ne hy'
  obtain ⟨ex, ey⟩ := h.unique (op.transformed_result hx hy)
  exact Prod.ext ex ey

omit [RealScalar ρ] in
theorem reply_of_not_reduces (plan : Schedule) {op : BinaryOp α ρ}
    (hop : op.operation.reduces = false) (n : UInt64) (wx wy : Window) (x y : Buffer α) :
    op.reply plan n wx wy x y = .done := by
  unfold reply
  cases op with
  | dot => cases hop
  | dotu => cases hop
  | dotc => cases hop
  | _ => split_ifs <;> rfl

end BinaryOp

/-! ### Calls -/

theorem UnaryOp.run_reversed (plan : Schedule) {op : UnaryOp α ρ}
    (hop : op.operation.reduces = false) (x : Buffer α) {opts : UnaryOptions}
    (hmin : opts.x.inc ≠ some Int64.minValue) :
    ∃ o o', op.run plan x opts = some o ∧ op.run plan x opts.reversed = some o' ∧
      o'.buffers = o.buffers ∧ o'.answer = o.answer.mapError Error.reversed := by
  have hrev := resolveUnary_reversed op.operation.rule x.len opts
  obtain ⟨e, hsel, hrun⟩ | ⟨sel, e, hsel, hres, hrun⟩ | ⟨sel, n, w, hsel, hres, hin, hrun⟩ :=
    op.run_cases plan x opts
  · refine ⟨_, _, hrun, run_of_unsupported plan hsel, rfl, ?_⟩
    exact congrArg Except.error (reversed_of_select hsel).symm
  · rw [hres] at hrev
    exact ⟨_, _, hrun, run_of_refused plan hsel hrev, rfl, rfl⟩
  · have hw := inc_ne_of_asks (resolveUnary_ok hres).1 hmin
    have hresult := op.result_reversed hin hw
    rw [hres] at hrev
    refine ⟨_, _, hrun, run_of_resolved plan hsel hrev, ?_, ?_⟩
    · unfold outcome
      rw [hresult]
    · unfold outcome
      rw [hresult, reply_of_not_reduces plan hop, reply_of_not_reduces plan hop]
      rfl

theorem BinaryOp.run_reversed (plan : Schedule) {op : BinaryOp α ρ}
    (hop : op.operation.reduces = false) (x y : Buffer α) {opts : BinaryOptions}
    (hxmin : opts.x.inc ≠ some Int64.minValue) (hymin : opts.y.inc ≠ some Int64.minValue) :
    ∃ o o', op.run plan x y opts = some o ∧ op.run plan x y opts.reversed = some o' ∧
      o'.buffers = o.buffers ∧ o'.answer = o.answer.mapError Error.reversed := by
  have hrev := resolveBinary_reversed op.operation.rule x.len y.len opts
  obtain ⟨e, hsel, hrun⟩ | ⟨sel, e, hsel, hres, hrun⟩ | ⟨sel, n, wx, wy, hsel, hres, hx, hy, hrun⟩ :=
    op.run_cases plan x y opts
  · refine ⟨_, _, hrun, run_of_unsupported plan hsel, rfl, ?_⟩
    exact congrArg Except.error (reversed_of_select hsel).symm
  · rw [hres] at hrev
    exact ⟨_, _, hrun, run_of_refused plan hsel hrev, rfl, rfl⟩
  · obtain ⟨⟨hwx, -⟩, hwy, -⟩ := resolveBinary_ok hres
    have hresult := op.result_reversed hx (inc_ne_of_asks hwx hxmin) hy (inc_ne_of_asks hwy hymin)
    rw [hres] at hrev
    refine ⟨_, _, hrun, run_of_resolved plan hsel hrev, ?_, ?_⟩
    · unfold outcome
      rw [hresult]
    · unfold outcome
      rw [hresult, reply_of_not_reduces plan hop, reply_of_not_reduces plan hop]
      rfl

/-- **Increments of the opposite sign make no difference** to an operation that treats the elements
one by one. If every increment changes its sign, the call succeeds as before, leaves the same
buffers and returns the same ones; or it fails as before, with the same error but for the sign of an
increment in it. The least increment, which has no opposite, is left out. -/
theorem reversed_increments (plan : Schedule) :
    (∀ (op : UnaryOp α ρ) (x : Buffer α) (opts : UnaryOptions), op.operation.reduces = false →
      opts.x.inc ≠ some Int64.minValue →
      ∃ o o', op.run plan x opts = some o ∧ op.run plan x opts.reversed = some o' ∧
        o'.buffers = o.buffers ∧ o'.answer = o.answer.mapError Error.reversed) ∧
    ∀ (op : BinaryOp α ρ) (x y : Buffer α) (opts : BinaryOptions), op.operation.reduces = false →
      opts.x.inc ≠ some Int64.minValue → opts.y.inc ≠ some Int64.minValue →
      ∃ o o', op.run plan x y opts = some o ∧ op.run plan x y opts.reversed = some o' ∧
        o'.buffers = o.buffers ∧ o'.answer = o.answer.mapError Error.reversed :=
  ⟨fun _ x _ hop hmin => UnaryOp.run_reversed plan hop x hmin,
    fun _ x y _ hop hxmin hymin => BinaryOp.run_reversed plan hop x y hxmin hymin⟩

/-- Without increments both vectors are blocks, and against the order they are not. Four elements are
too many either way. -/
theorem reversed_increments_copy_block :
    ∃ (x y y' : Buffer Float) (opts : BinaryOptions) (long : UnaryOptions)
      (o o' : Outcome (Buffer Float × Buffer Float) Float Float)
      (e e' : Outcome (Buffer Float) Float Float),
      x.cells = #[1, 2, 3] ∧ y.cells = #[4, 5, 6] ∧ y'.cells = #[1, 2, 3] ∧ opts = {} ∧
      opts.reversed = ⟨none, ⟨none, some (-1)⟩, ⟨none, some (-1)⟩⟩ ∧ long = ⟨some 4, {}⟩ ∧
      BinaryOp.copy.run .sequential x y opts = some o ∧
      BinaryOp.copy.run .sequential x y opts.reversed = some o' ∧
      o.buffers = (x, y') ∧ o'.buffers = (x, y') ∧ o'.answer = .ok .done ∧
      (UnaryOp.scal 2).run .sequential x long = some e ∧
      (UnaryOp.scal 2).run .sequential x long.reversed = some e' ∧
      e.answer = .error (.vectorTooShort "x" 4 0 1 3) ∧
      e'.answer = .error (.vectorTooShort "x" 4 0 (-1) 3) := by
  let x : Buffer Float := ⟨#[1, 2, 3], by decide⟩
  let y : Buffer Float := ⟨#[4, 5, 6], by decide⟩
  let y' : Buffer Float := ⟨#[1, 2, 3], by decide⟩
  have hres : resolveBinary Operation.copy.rule x.len y.len {} =
      some (.ok ⟨3, [⟨0, 1⟩, ⟨0, 1⟩]⟩) := by
    decide
  have hlong : resolveUnary Operation.scal.rule x.len ⟨some 4, {}⟩ =
      some (.error (.vectorTooShort "x" 4 0 1 3)) := by
    decide
  obtain ⟨o, o', hrun, hrun', hbuffers, hanswer⟩ := (reversed_increments (α := Float)
    .sequential).2 .copy x y {} rfl (by decide) (by decide)
  obtain ⟨e, e', herun, herun', -, heanswer⟩ := (reversed_increments (α := Float)
    .sequential).1 (.scal 2) x ⟨some 4, {}⟩ rfl (by decide)
  cases hrun.symm.trans (BinaryOp.run_of_resolved .sequential rfl hres)
  cases herun.symm.trans (UnaryOp.run_of_refused .sequential rfl hlong)
  exact ⟨x, y, y', {}, ⟨some 4, {}⟩, _, o', _, e', rfl, rfl, rfl, rfl, rfl, rfl, hrun, hrun', rfl,
    hbuffers, hanswer, herun, herun', rfl, heanswer⟩

end Strided
