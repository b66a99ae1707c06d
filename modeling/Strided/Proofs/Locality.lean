import Strided.Proofs.Elementwise

/-! # What calls read

The outcome of a call depends on the lengths of its buffers and on the elements of its windows; the
other cells count only if the call returns copies. So two calls of an operation with the same
options, on buffers that differ only in cells that are not read, have the same answer, and cells
that were equal before are equal afterwards.

* `SameElements`: two windows show the same elements.
* `get?_scatter_congr`: writing the same list into two buffers keeps equal cells equal.
* `UnaryOp.run_congr`, `BinaryOp.run_congr`: two calls of an operation with the same options.
* `UnaryOp.run_frame`, `BinaryOp.run_frame`: cells that a call does not write. -/

namespace Strided

section Elements
variable {α : Type} {w w' : Window} {x x' : Buffer α}

/-- The `n` elements of a buffer in one window are those of another buffer in another window. -/
def SameElements (n : ℕ) (w w' : Window) (x x' : Buffer α) : Prop :=
  ∀ i < n, x.get? (w.place n i) = x'.get? (w'.place n i)

theorem SameElements.gather_eq {n : UInt64} (h : SameElements n.toNat w w' x x') :
    (w.view n x).gather = (w'.view n x').gather :=
  List.filterMap_congr fun i hi => h i (List.mem_range.mp hi)

theorem size_eq_of_len {x x' : Buffer α} (h : x.len = x'.len) :
    x.cells.size = x'.cells.size := by
  rw [← x.toNat_len, ← x'.toNat_len, h]

theorem len_eq_of_size {x x' : Buffer α} (h : x.cells.size = x'.cells.size) : x.len = x'.len := by
  unfold Buffer.len
  rw [h]

/-- **Equal cells stay equal** if the same list is written into the same window of two buffers. -/
theorem get?_scatter_congr {n : UInt64} (hx : w.Inside n.toNat x.cells.size)
    (hx' : w.Inside n.toNat x'.cells.size) {zs : List α} (hl : zs.length = n.toNat) {j : ℕ}
    (hj : x.get? j = x'.get? j) :
    ((w.view n x).scatter zs).buffer.get? j = ((w.view n x').scatter zs).buffer.get? j := by
  by_cases h : ∃ i < zs.length, (w.view n x).place i = j
  · obtain ⟨i, hi, rfl⟩ := h
    rw [View.get?_scatter_place (v := w.view n x) hx hl.le hi]
    exact (View.get?_scatter_place (v := w.view n x') hx' hl.le hi).symm
  · have hout : ∀ i < zs.length, (w.view n x).place i ≠ j := fun i hi e => h ⟨i, hi, e⟩
    rw [View.get?_scatter_of_ne (w.view n x) hout, View.get?_scatter_of_ne (w.view n x') hout]
    exact hj

end Elements

variable {α ρ : Type} [RealScalar ρ] [Element α ρ]

/-! ### Operations on one vector -/

namespace UnaryOp

section Congr
variable {op : UnaryOp α ρ} {n : UInt64} {w : Window} {x x' : Buffer α}

theorem reply_congr (plan : Schedule) (h : SameElements n.toNat w w x x') :
    op.reply plan n w x = op.reply plan n w x' := by
  unfold reply value
  rw [h.gather_eq]
  rfl

omit [RealScalar ρ] in
theorem get?_result_congr (hx : w.Inside n.toNat x.cells.size)
    (hx' : w.Inside n.toNat x'.cells.size) (h : SameElements n.toNat w w x x') {j : ℕ}
    (hj : x.get? j = x'.get? j) : (op.result n w x).get? j = (op.result n w x').get? j := by
  have hl : ((w.view n x).gather.map op.image).length = n.toNat := by
    rw [List.length_map]
    exact View.length_gather hx
  unfold result View.mapElements
  rw [← h.gather_eq]
  exact get?_scatter_congr hx hx' hl hj

theorem answer_congr (plan : Schedule) (sel : Selection) (h : SameElements n.toNat w w x x')
    (hcopies : op.operation.copies → x = x') :
    (op.outcome plan sel n w x).answer = (op.outcome plan sel n w x').answer := by
  by_cases hc : op.operation.copies
  · rw [hcopies hc]
  · rw [answer_of_not_copies plan sel n w x hc, answer_of_not_copies plan sel n w x' hc,
      reply_congr plan h]

end Congr

/-- **Two calls with the same options.** What they do not read makes no difference to the answer,
and cells that were equal stay equal. -/
theorem run_congr {plan : Schedule} {op : UnaryOp α ρ} {x x' : Buffer α} {opts : UnaryOptions}
    {o o' : Outcome (Buffer α) α ρ} (ho : op.run plan x opts = some o)
    (ho' : op.run plan x' opts = some o') (hlen : x.len = x'.len)
    (h : ∀ n w, resolveUnary op.operation.rule x.len opts = some (.ok ⟨n, [w]⟩) →
      SameElements n.toNat w w x x' ∧ (op.operation.copies → x = x')) :
    o.answer = o'.answer ∧ ∀ j, x.get? j = x'.get? j → o.buffers.get? j = o'.buffers.get? j := by
  obtain ⟨e, hsel, hrun⟩ | ⟨sel, e, hsel, hres, hrun⟩ | ⟨sel, n, w, hsel, hres, hin, hrun⟩ :=
    op.run_cases plan x opts
  · cases ho.symm.trans hrun
    cases ho'.symm.trans (run_of_unsupported plan hsel)
    exact ⟨rfl, fun _ hj => hj⟩
  · have hres' := hres
    rw [hlen] at hres'
    cases ho.symm.trans hrun
    cases ho'.symm.trans (run_of_refused plan hsel hres')
    exact ⟨rfl, fun _ hj => hj⟩
  · obtain ⟨hsame, hcopies⟩ := h n w hres
    rw [hlen] at hres
    have hin' := inside_of_resolveUnary hres
    cases ho.symm.trans hrun
    cases ho'.symm.trans (run_of_resolved plan hsel hres)
    refine ⟨answer_congr plan sel hsame hcopies, fun j hj => ?_⟩
    unfold outcome
    split_ifs
    · exact get?_result_congr hin hin' hsame hj
    · exact hj

/-- **Cells that are not written.** A call keeps every cell that is no element of its window, and
every cell at all unless its argument is read and written. -/
theorem run_frame {plan : Schedule} {op : UnaryOp α ρ} {x : Buffer α} {opts : UnaryOptions}
    {o : Outcome (Buffer α) α ρ} (ho : op.run plan x opts = some o) {j : ℕ}
    (h : ∀ n w, resolveUnary op.operation.rule x.len opts = some (.ok ⟨n, [w]⟩) →
      op.operation.role? 0 = some .readWrite → ∀ i < n.toNat, w.place n.toNat i ≠ j) :
    o.buffers.get? j = x.get? j := by
  obtain ⟨e, -, hrun⟩ | ⟨sel, e, -, -, hrun⟩ | ⟨sel, n, w, -, hres, hin, hrun⟩ :=
    op.run_cases plan x opts
  · cases ho.symm.trans hrun
    rfl
  · cases ho.symm.trans hrun
    rfl
  · cases ho.symm.trans hrun
    unfold outcome
    split_ifs with hrole
    · exact (View.replaced_mapElements (v := w.view n x) hin op.image).other j (h n w hres hrole)
    · rfl

end UnaryOp

/-! ### Operations on two vectors -/

namespace BinaryOp

section Congr
variable {op : BinaryOp α ρ} {n : UInt64} {wx wy : Window} {x x' y y' : Buffer α}

omit [RealScalar ρ] in
theorem reply_congr (plan : Schedule) (hx : SameElements n.toNat wx wx x x')
    (hy : SameElements n.toNat wy wy y y') :
    op.reply plan n wx wy x y = op.reply plan n wx wy x' y' := by
  unfold reply value
  rw [hx.gather_eq, hy.gather_eq]
  rfl

theorem get?_result_congr (hx : wx.Inside n.toNat x.cells.size)
    (hx' : wx.Inside n.toNat x'.cells.size) (hy : wy.Inside n.toNat y.cells.size)
    (hy' : wy.Inside n.toNat y'.cells.size) (hsx : SameElements n.toNat wx wx x x')
    (hsy : SameElements n.toNat wy wy y y') :
    (∀ j, x.get? j = x'.get? j →
      (op.result n wx wy x y).1.get? j = (op.result n wx wy x' y').1.get? j) ∧
    ∀ j, y.get? j = y'.get? j →
      (op.result n wx wy x y).2.get? j = (op.result n wx wy x' y').2.get? j := by
  have hl : ∀ f : α → α → α,
      (List.zipWith f (wx.view n x).gather (wy.view n y).gather).length = n.toNat := fun f =>
    View.length_zipWith_gather (x := wx.view n x) (y := wy.view n y) hx hy rfl f
  unfold result View.mapPairs
  rw [← hsx.gather_eq, ← hsy.gather_eq]
  exact ⟨fun j hj => get?_scatter_congr hx hx' (hl _) hj,
    fun j hj => get?_scatter_congr hy hy' (hl _) hj⟩

theorem answer_congr (plan : Schedule) (sel : Selection) (hx : SameElements n.toNat wx wx x x')
    (hy : SameElements n.toNat wy wy y y') (hcopies : op.operation.copies → x = x' ∧ y = y') :
    (op.outcome plan sel n wx wy x y).answer = (op.outcome plan sel n wx wy x' y').answer := by
  by_cases hc : op.operation.copies
  · rw [(hcopies hc).1, (hcopies hc).2]
  · rw [answer_of_not_copies plan sel n wx wy x y hc, answer_of_not_copies plan sel n wx wy x' y' hc,
      reply_congr plan hx hy]

end Congr

/-- **Two calls with the same options.** What they do not read makes no difference to the answer,
and cells that were equal stay equal. -/
theorem run_congr {plan : Schedule} {op : BinaryOp α ρ} {x x' y y' : Buffer α}
    {opts : BinaryOptions} {o o' : Outcome (Buffer α × Buffer α) α ρ}
    (ho : op.run plan x y opts = some o) (ho' : op.run plan x' y' opts = some o')
    (hx : x.len = x'.len) (hy : y.len = y'.len)
    (h : ∀ n wx wy, resolveBinary op.operation.rule x.len y.len opts = some (.ok ⟨n, [wx, wy]⟩) →
      SameElements n.toNat wx wx x x' ∧ SameElements n.toNat wy wy y y' ∧
        (op.operation.copies → x = x' ∧ y = y')) :
    o.answer = o'.answer ∧
      (∀ j, x.get? j = x'.get? j → o.buffers.1.get? j = o'.buffers.1.get? j) ∧
      ∀ j, y.get? j = y'.get? j → o.buffers.2.get? j = o'.buffers.2.get? j := by
  obtain ⟨e, hsel, hrun⟩ | ⟨sel, e, hsel, hres, hrun⟩ |
    ⟨sel, n, wx, wy, hsel, hres, hwx, hwy, hrun⟩ := op.run_cases plan x y opts
  · cases ho.symm.trans hrun
    cases ho'.symm.trans (run_of_unsupported plan hsel)
    exact ⟨rfl, fun _ hj => hj, fun _ hj => hj⟩
  · have hres' := hres
    rw [hx, hy] at hres'
    cases ho.symm.trans hrun
    cases ho'.symm.trans (run_of_refused plan hsel hres')
    exact ⟨rfl, fun _ hj => hj, fun _ hj => hj⟩
  · obtain ⟨hsx, hsy, hcopies⟩ := h n wx wy hres
    rw [hx, hy] at hres
    obtain ⟨hwx', hwy'⟩ := inside_of_resolveBinary hres
    cases ho.symm.trans hrun
    cases ho'.symm.trans (run_of_resolved plan hsel hres)
    obtain ⟨hfst, hsnd⟩ := op.get?_result_congr hwx hwx' hwy hwy' hsx hsy
    refine ⟨answer_congr plan sel hsx hsy hcopies, fun j hj => ?_, fun j hj => ?_⟩
    · unfold outcome
      dsimp only
      split_ifs
      · exact hfst j hj
      · exact hj
    · unfold outcome
      dsimp only
      split_ifs
      · exact hsnd j hj
      · exact hj

/-- **Cells that are not written.** A call keeps every cell that is no element of its window, and
every cell at all of an argument that is not read and written. -/
theorem run_frame {plan : Schedule} {op : BinaryOp α ρ} {x y : Buffer α} {opts : BinaryOptions}
    {o : Outcome (Buffer α × Buffer α) α ρ} (ho : op.run plan x y opts = some o) {j : ℕ} :
    ((∀ n wx wy, resolveBinary op.operation.rule x.len y.len opts = some (.ok ⟨n, [wx, wy]⟩) →
        op.operation.role? 0 = some .readWrite → ∀ i < n.toNat, wx.place n.toNat i ≠ j) →
      o.buffers.1.get? j = x.get? j) ∧
    ((∀ n wx wy, resolveBinary op.operation.rule x.len y.len opts = some (.ok ⟨n, [wx, wy]⟩) →
        op.operation.role? 1 = some .readWrite → ∀ i < n.toNat, wy.place n.toNat i ≠ j) →
      o.buffers.2.get? j = y.get? j) := by
  obtain ⟨e, -, hrun⟩ | ⟨sel, e, -, -, hrun⟩ | ⟨sel, n, wx, wy, -, hres, hwx, hwy, hrun⟩ :=
    op.run_cases plan x y opts
  · cases ho.symm.trans hrun
    exact ⟨fun _ => rfl, fun _ => rfl⟩
  · cases ho.symm.trans hrun
    exact ⟨fun _ => rfl, fun _ => rfl⟩
  · cases ho.symm.trans hrun
    obtain ⟨hfst, hsnd⟩ := View.replaced_mapPairs (v := wx.view n x) (w := wy.view n y) hwx hwy rfl
      op.image
    unfold outcome
    refine ⟨fun h => ?_, fun h => ?_⟩
    · dsimp only
      split_ifs with hrole
      · exact hfst.other j (h n wx wy hres hrole)
      · rfl
    · dsimp only
      split_ifs with hrole
      · exact hsnd.other j (h n wx wy hres hrole)
      · rfl

end BinaryOp

end Strided
