import Strided.Proofs.Outcome

/-! # Calls never leave their windows

Every call on vectors has an outcome, whatever its buffers and its options are: no arithmetic
overflows, no view is refused, no block is out of range and no cell is missing. More than that, a kernel touches no cell
but those from the offset to the last cell of its window. A read or write of a missing cell has no
result, so this can be said by taking all other cells away: on storage that has only the cells of
the window, the kernel still has a result, and the same one.

* `Buffer.cut`, `Window.alone`: the cells of a window as storage of their own.
* `gather_alone`, `splice?_scatter_alone`: reading and writing on this storage.
* `UnaryOp.confined`, `BinaryOp.confined`: the kernels.
* `Window.Inside.sound`: views, blocks and element positions of a window inside its buffer.
* `run_safe`: calls. -/

namespace Strided

section Storage
variable {α : Type}

/-! ### The cells of a window as storage of their own -/

/-- The cells from `lo` to `hi`. -/
def Buffer.cut (b : Buffer α) (lo hi : ℕ) : Buffer α :=
  ⟨b.cells.extract lo (hi + 1), by
    have := b.size_lt
    rw [Array.size_extract]
    omega⟩

theorem Buffer.size_cut {b : Buffer α} {hi : ℕ} (lo : ℕ) (h : hi < b.cells.size) :
    (b.cut lo hi).cells.size = hi + 1 - lo := by
  unfold cut
  rw [Array.size_extract, Nat.min_eq_left (by omega)]

theorem Buffer.get?_cut {b : Buffer α} {lo hi j : ℕ} (h : hi < b.cells.size) (hj : lo + j ≤ hi) :
    (b.cut lo hi).get? j = b.get? (lo + j) := by
  unfold cut get?
  rw [Array.getElem?_extract, if_pos (by omega)]

namespace Window

/-- The same window at the start of its storage. -/
def home (w : Window) : Window := ⟨0, w.inc⟩

/-- The view of `n` elements through a window, over storage that has only the cells from the offset
to the last one. -/
def alone (w : Window) (n : UInt64) (b : Buffer α) : View α :=
  w.home.view n (b.cut w.offset.toNat (w.last n.toNat))

theorem place_view (w : Window) (n : UInt64) (b : Buffer α) (i : ℕ) :
    (w.view n b).place i = w.offset.toNat + (w.alone n b).place i := by
  unfold View.place View.window alone view home place
  simp

theorem place_view_le_last (w : Window) {n : UInt64} (b : Buffer α) {i : ℕ} (hi : i < n.toNat) :
    (w.view n b).place i ≤ w.last n.toNat :=
  w.place_le_last hi

theorem scatter_view (w : Window) (n : UInt64) (b : Buffer α) (zs : List α) :
    (w.view n b).scatter zs = w.view n ((w.view n b).scatter zs).buffer := by
  have hal := View.alike_scatter (w.view n b) zs
  exact View.ext rfl hal.offset hal.n hal.inc

variable {w : Window} {n : UInt64} {b : Buffer α} (h : w.Inside n.toNat b.cells.size)
  (hn : n.toNat ≠ 0)
include h hn

theorem size_alone :
    (w.alone n b).buffer.cells.size = w.last n.toNat + 1 - w.offset.toNat :=
  Buffer.size_cut _ (h.last_lt hn)

theorem inside_alone : (w.alone n b).Inside := by
  have hsize := size_alone h hn
  have h0 : w.home.offset.toNat = 0 := rfl
  have hhome : w.last n.toNat = w.offset.toNat + w.home.last n.toNat := by
    unfold last home
    simp
  refine ⟨h.inc_ne, ?_, fun _ => ?_⟩
  · change w.home.offset.toNat < _
    omega
  · change w.home.last n.toNat < _
    omega

theorem get?_alone {j : ℕ} (hj : w.offset.toNat + j ≤ w.last n.toNat) :
    (w.alone n b).buffer.get? j = b.get? (w.offset.toNat + j) :=
  Buffer.get?_cut (h.last_lt hn) hj

theorem elem?_alone {i : ℕ} (hi : i < n.toNat) :
    (w.alone n b).elem? i = (w.view n b).elem? i := by
  have hle := w.place_view_le_last b hi
  unfold View.elem?
  rw [place_view] at hle ⊢
  exact get?_alone h hn hle

theorem gather_alone : (w.alone n b).gather = (w.view n b).gather :=
  List.filterMap_congr fun _ hi => elem?_alone h hn (List.mem_range.mp hi)

/-- **Writing to the cells of the window alone** and putting them back in place is writing through
the window. -/
theorem splice?_scatter_alone {zs : List α} (hl : zs.length = n.toNat) :
    b.splice? w.offset.toNat ((w.alone n b).scatter zs).buffer.cells =
      some ((w.view n b).scatter zs).buffer := by
  have hlast := h.last_lt hn
  have hle : w.offset.toNat ≤ w.last n.toNat := Nat.le_add_right _ _
  have hin := inside_alone h hn
  have hal := View.alike_scatter (w.alone n b) zs
  have hsize := size_alone h hn
  have hfit : w.offset.toNat + ((w.alone n b).scatter zs).buffer.cells.size ≤ b.cells.size := by
    rw [hal.size]
    omega
  obtain ⟨c, hc, hget⟩ := Buffer.exists_splice? hfit
  rw [hc, Option.some.injEq]
  refine Buffer.ext_get? fun j => ?_
  rw [hget, hal.size, hsize]
  split_ifs with hj
  · obtain ⟨k, rfl⟩ : ∃ k, j = w.offset.toNat + k := ⟨j - w.offset.toNat, by omega⟩
    rw [Nat.add_sub_cancel_left]
    change ((w.alone n b).scatter zs).buffer.get? k = _
    by_cases hk : ∃ i < zs.length, (w.alone n b).place i = k
    · obtain ⟨i, hi, rfl⟩ := hk
      rw [← place_view, View.get?_scatter_place hin hl.le hi]
      exact (View.get?_scatter_place (v := w.view n b) h hl.le hi).symm
    · have hout : ∀ i < zs.length, (w.alone n b).place i ≠ k := fun i hi e => hk ⟨i, hi, e⟩
      rw [View.get?_scatter_of_ne _ hout, get?_alone h hn (by omega), View.get?_scatter_of_ne]
      · rfl
      · intro i hi e
        rw [place_view] at e
        exact hout i hi (by omega)
  · rw [View.get?_scatter_of_ne]
    · rfl
    · intro i hi e
      have hle := w.place_view_le_last b (hl ▸ hi)
      rw [place_view] at e hle
      exact hj (by omega)

end Window

/-! ### Views, blocks and positions -/

/-- Working through a window on a buffer has no failing step: the view and its block exist, and each
element has a cell between the offset and the last cell, which the buffer has. -/
structure Window.Sound (w : Window) (n : UInt64) (b : Buffer α) : Prop where
  view : w.view? n b = some (w.view n b)
  block : ∃ block, (w.view n b).contiguous? = some block
  cell : ∀ i < n.toNat, ∃ c, (w.view n b).cell? (UInt64.ofNat i) = some c ∧
    w.offset.toNat ≤ c ∧ c ≤ w.last n.toNat
  last_lt : n.toNat ≠ 0 → w.last n.toNat < b.cells.size

theorem Window.Inside.sound {w : Window} {n : UInt64} {b : Buffer α}
    (h : w.Inside n.toNat b.cells.size) : w.Sound n b where
  view := view?_eq h
  block := by
    unfold View.contiguous?
    split_ifs with hc
    · rw [View.block?_eq (v := w.view n b) h hc]
      exact ⟨_, rfl⟩
    · exact ⟨_, rfl⟩
  cell i hi :=
    ⟨_, View.cell?_eq (v := w.view n b) h hi, w.offset_le_place _ _, w.place_view_le_last b hi⟩
  last_lt := h.last_lt

end Storage

/-! ### Kernels -/

variable {α ρ : Type} [RealScalar ρ] [Element α ρ]

/-- The kernel touches only the cells of its window: on these cells alone it gives the same answer,
and what it leaves there, put back in place, is all that it changes. -/
def UnaryOp.Confined (plan : Schedule) (op : UnaryOp α ρ) (n : UInt64) (w : Window)
    (x : Buffer α) : Prop :=
  ∃ v x' a, op.compute? plan (w.alone n x) = some (v, a) ∧
    x.splice? w.offset.toNat v.buffer.cells = some x' ∧
    op.compute? plan (w.view n x) = some (w.view n x', a)

/-- The kernel touches only the cells of its windows. -/
def BinaryOp.Confined (plan : Schedule) (op : BinaryOp α ρ) (n : UInt64) (wx wy : Window)
    (x y : Buffer α) : Prop :=
  ∃ v u x' y' a, op.compute? plan (wx.alone n x) (wy.alone n y) = some ((v, u), a) ∧
    x.splice? wx.offset.toNat v.buffer.cells = some x' ∧
    y.splice? wy.offset.toNat u.buffer.cells = some y' ∧
    op.compute? plan (wx.view n x) (wy.view n y) = some ((wx.view n x', wy.view n y'), a)

theorem UnaryOp.confined (plan : Schedule) (op : UnaryOp α ρ) {n : UInt64} {w : Window}
    {x : Buffer α} (h : w.Inside n.toNat x.cells.size) (hn : n.toNat ≠ 0) :
    op.Confined plan n w x := by
  have halone := Window.inside_alone h hn
  have hg := Window.gather_alone h hn
  have hl : ((w.view n x).gather.map op.image).length = n.toNat := by
    rw [List.length_map]
    exact View.length_gather h
  have hvalue : op.value plan (w.alone n x) = op.value plan (w.view n x) := by
    unfold value
    rw [hg]
    rfl
  refine ⟨_, op.result n w x, _, op.compute?_eq halone plan, ?_, ?_⟩
  · unfold View.mapElements
    rw [hg]
    exact Window.splice?_scatter_alone h hn hl
  · rw [op.compute?_eq (x := w.view n x) h plan, hvalue, View.mapElements, Window.scatter_view]
    rfl

theorem BinaryOp.confined (plan : Schedule) (op : BinaryOp α ρ) {n : UInt64} {wx wy : Window}
    {x y : Buffer α} (hx : wx.Inside n.toNat x.cells.size) (hy : wy.Inside n.toNat y.cells.size)
    (hn : n.toNat ≠ 0) : op.Confined plan n wx wy x y := by
  have hgx := Window.gather_alone hx hn
  have hgy := Window.gather_alone hy hn
  have hl : ∀ f : α → α → α,
      (List.zipWith f (wx.view n x).gather (wy.view n y).gather).length = n.toNat := fun f =>
    View.length_zipWith_gather (x := wx.view n x) (y := wy.view n y) hx hy rfl f
  have hvalue : op.value plan (wx.alone n x) (wy.alone n y) =
      op.value plan (wx.view n x) (wy.view n y) := by
    unfold value
    rw [hgx, hgy]
    rfl
  refine ⟨_, _, (op.result n wx wy x y).1, (op.result n wx wy x y).2, _,
    compute?_eq (Window.inside_alone hx hn) (Window.inside_alone hy hn) rfl plan op, ?_, ?_, ?_⟩
  · rw [hgx, hgy]
    exact Window.splice?_scatter_alone hx hn (hl _)
  · rw [hgx, hgy]
    exact Window.splice?_scatter_alone hy hn (hl _)
  · rw [compute?_eq (x := wx.view n x) (y := wy.view n y) hx hy rfl plan op, hvalue,
      View.mapPairs, Window.scatter_view wx, Window.scatter_view wy]
    rfl

/-- **Calls never fail otherwise than by an error, and never leave their windows.** Every call on
one or two vectors has an outcome. If its options resolve to windows, working through these has no
failing step, and unless there is no element, the kernel touches only their cells. -/
theorem run_safe (plan : Schedule) :
    (∀ (op : UnaryOp α ρ) (x : Buffer α) (opts : UnaryOptions),
      (∃ o, op.run plan x opts = some o) ∧
      ∀ r, resolveUnary op.operation.rule x.len opts = some (.ok r) →
        ∃ w, r.windows = [w] ∧ w.Sound r.n x ∧
          (r.n.toNat ≠ 0 → op.Confined plan r.n w x)) ∧
    ∀ (op : BinaryOp α ρ) (x y : Buffer α) (opts : BinaryOptions),
      (∃ o, op.run plan x y opts = some o) ∧
      ∀ r, resolveBinary op.operation.rule x.len y.len opts = some (.ok r) →
        ∃ wx wy, r.windows = [wx, wy] ∧ wx.Sound r.n x ∧ wy.Sound r.n y ∧
          (r.n.toNat ≠ 0 → op.Confined plan r.n wx wy x y) := by
  constructor
  · intro op x opts
    refine ⟨op.exists_run plan x opts, fun r hr => ?_⟩
    obtain ⟨w, e, hw⟩ := window_of_resolveUnary hr
    exact ⟨w, congrArg Resolved.windows e, hw.sound, op.confined plan hw⟩
  · intro op x y opts
    refine ⟨op.exists_run plan x y opts, fun r hr => ?_⟩
    obtain ⟨wx, wy, e, hwx, hwy⟩ := windows_of_resolveBinary hr
    exact ⟨wx, wy, congrArg Resolved.windows e, hwx.sound, hwy.sound, op.confined plan hwx hwy⟩

/-- One element, through the least increment there is and backwards from the end of `y`. -/
theorem run_safe_of_least_increment :
    ∃ (x y : Buffer Float) (opts : BinaryOptions) (wx wy : Window),
      x.cells = #[1, 2, 3] ∧ y.cells = #[4, 5] ∧ wx = ⟨2, Int64.minValue⟩ ∧ wy = ⟨1, -1⟩ ∧
      opts = ⟨some 1, ⟨some 2, some Int64.minValue⟩, ⟨some 1, some (-1)⟩⟩ ∧
      resolveBinary Operation.dot.rule x.len y.len opts = some (.ok ⟨1, [wx, wy]⟩) ∧
      (∃ o, BinaryOp.dot.run .sequential x y opts = some o) ∧
      wx.Sound 1 x ∧ wy.Sound 1 y ∧ BinaryOp.dot.Confined .sequential 1 wx wy x y := by
  obtain ⟨hrun, hsafe⟩ := (run_safe (α := Float) .sequential).2 .dot ⟨#[1, 2, 3], by decide⟩
    ⟨#[4, 5], by decide⟩ ⟨some 1, ⟨some 2, some Int64.minValue⟩, ⟨some 1, some (-1)⟩⟩
  obtain ⟨wx, wy, hw, hx, hy, hconf⟩ := hsafe ⟨1, [⟨2, Int64.minValue⟩, ⟨1, -1⟩]⟩ rfl
  cases hw
  exact ⟨_, _, _, _, _, rfl, rfl, rfl, rfl, rfl, rfl, hrun, hx, hy, hconf (by decide)⟩

end Strided
