import Strided.Proofs.Outcome

/-! # Calls, element by element

A successful call replaces each element of its windows by the image of what was there before, and
changes nothing else. The elements are those of the windows that the options resolve to; the buffers
are those of the caller, or the returned copies.

* `Replaced`: a buffer with given elements in a window and all else as before.
* `View.replaced_mapElements`, `View.replaced_mapPairs`: mapping the elements of views.
* `UnaryOp.buffers_outcome`, `BinaryOp.buffers_outcome`: which buffers carry the images.
* `run_elementwise`: successful calls. -/

namespace Strided

/-- The operations that return changed copies in place of changing the buffers of the caller. -/
def Operation.copies : Operation → Bool
  | .rot | .rotm | .scalReal => true
  | _ => false

section Replaced
variable {α : Type}

/-- The buffer `b'` holds `z i` as element `i` of a window, for all `i < n`, and is equal to `b`
outside these elements. -/
structure Replaced (w : Window) (n : ℕ) (z : ℕ → Option α) (b b' : Buffer α) : Prop where
  element : ∀ i < n, ∃ c, z i = some c ∧ b'.get? (w.place n i) = some c
  other : ∀ j, (∀ i < n, w.place n i ≠ j) → b'.get? j = b.get? j

namespace View

theorem replaced_scatter {v : View α} (hv : v.Inside) {zs : List α} {z : ℕ → Option α}
    (hl : zs.length = v.n.toNat) (hz : ∀ i < v.n.toNat, zs[i]? = z i) :
    Replaced v.window v.n.toNat z v.buffer (v.scatter zs).buffer := by
  refine ⟨fun i hi => ?_, fun j hj => get?_scatter_of_ne v fun i hi => hj i (by omega)⟩
  have hc : zs[i]? = some zs[i] := List.getElem?_eq_getElem (by omega)
  refine ⟨zs[i], (hz i hi).symm.trans hc, ?_⟩
  exact (get?_scatter_place hv hl.le (by omega)).trans hc

theorem replaced_mapElements {v : View α} (hv : v.Inside) (f : α → α) :
    Replaced v.window v.n.toNat (fun i => (v.elem? i).map f) v.buffer
      (v.mapElements f).buffer := by
  refine replaced_scatter hv (by rw [List.length_map, length_gather hv]) fun i hi => ?_
  rw [List.getElem?_map, getElem?_gather hv hi]

/-- The images of the pairs of elements of two views. -/
def pair? (f : α → α → α × α) (v w : View α) (i : ℕ) : Option (α × α) := do
  return f (← v.elem? i) (← w.elem? i)

theorem replaced_mapPairs {v w : View α} (hv : v.Inside) (hw : w.Inside) (hn : v.n = w.n)
    (f : α → α → α × α) :
    Replaced v.window v.n.toNat (fun i => (pair? f v w i).map Prod.fst) v.buffer
        (v.mapPairs f w).1.buffer ∧
      Replaced w.window w.n.toNat (fun i => (pair? f v w i).map Prod.snd) w.buffer
        (v.mapPairs f w).2.buffer := by
  have hpair : ∀ (g : α × α → α), ∀ i < v.n.toNat,
      (List.zipWith (fun a b => g (f a b)) v.gather w.gather)[i]? =
        (pair? f v w i).map g := fun g i hi => by
    obtain ⟨a, ha⟩ := exists_elem? hv hi
    obtain ⟨b, hb⟩ := exists_elem? hw (by rw [← hn]; exact hi)
    unfold pair?
    rw [getElem?_zipWith_gather hv hw hn _ hi ha hb, ha, hb]
    rfl
  constructor
  · exact replaced_scatter hv (length_zipWith_gather hv hw hn _) (hpair Prod.fst)
  · have hl := length_zipWith_gather hv hw hn fun a b => (f a b).2
    have hsnd := hpair Prod.snd
    rw [hn] at hl hsnd
    exact replaced_scatter hw hl hsnd

end View

end Replaced

variable {α ρ : Type} [RealScalar ρ] [Element α ρ]

theorem UnaryOp.buffers_outcome (plan : Schedule) (op : UnaryOp α ρ) (sel : Selection) {n : UInt64}
    {w : Window} {x : Buffer α} (h : w.Inside n.toNat x.cells.size) :
    (op.outcome plan sel n w x).buffers =
      if op.operation.copies then x else op.result n w x := by
  cases op with
  | scal alpha => rfl
  | scalReal alpha => rfl
  | nrm2 => exact (result_of_direct rfl h).symm
  | asum => exact (result_of_direct rfl h).symm
  | iamax => exact (result_of_direct rfl h).symm

theorem UnaryOp.answer_of_copies (plan : Schedule) {op : UnaryOp α ρ} (sel : Selection)
    (n : UInt64) (w : Window) (x : Buffer α) (h : op.operation.copies) :
    (op.outcome plan sel n w x).answer = .ok (.vectors [op.result n w x]) := by
  cases op with
  | scalReal alpha => rfl
  | _ => cases h

theorem UnaryOp.answer_of_not_copies (plan : Schedule) {op : UnaryOp α ρ} (sel : Selection)
    (n : UInt64) (w : Window) (x : Buffer α) (h : ¬ op.operation.copies) :
    (op.outcome plan sel n w x).answer = .ok (op.reply plan n w x) := by
  cases op with
  | scalReal alpha => exact absurd rfl h
  | _ => rfl

theorem BinaryOp.buffers_outcome (plan : Schedule) (op : BinaryOp α ρ) (sel : Selection)
    {n : UInt64} {wx wy : Window} {x y : Buffer α} (hx : wx.Inside n.toNat x.cells.size)
    (hy : wy.Inside n.toNat y.cells.size) :
    (op.outcome plan sel n wx wy x y).buffers =
      if op.operation.copies then (x, y) else op.result n wx wy x y := by
  cases op with
  | rot c s => rfl
  | rotInPlace c s => rfl
  | rotm p => rfl
  | rotmInPlace p => rfl
  | swap => rfl
  | copy => exact Prod.ext (result_fst_of_direct hx hy rfl).symm rfl
  | axpy alpha => exact Prod.ext (result_fst_of_direct hx hy rfl).symm rfl
  | dot =>
    exact Prod.ext (result_fst_of_direct hx hy rfl).symm (result_snd_of_direct hx hy rfl).symm
  | dotu =>
    exact Prod.ext (result_fst_of_direct hx hy rfl).symm (result_snd_of_direct hx hy rfl).symm
  | dotc =>
    exact Prod.ext (result_fst_of_direct hx hy rfl).symm (result_snd_of_direct hx hy rfl).symm

theorem BinaryOp.answer_of_copies (plan : Schedule) {op : BinaryOp α ρ} (sel : Selection)
    (n : UInt64) (wx wy : Window) (x y : Buffer α) (h : op.operation.copies) :
    (op.outcome plan sel n wx wy x y).answer =
      .ok (.vectors [(op.result n wx wy x y).1, (op.result n wx wy x y).2]) := by
  cases op with
  | rot c s => rfl
  | rotm p => rfl
  | _ => cases h

theorem BinaryOp.answer_of_not_copies (plan : Schedule) {op : BinaryOp α ρ} (sel : Selection)
    (n : UInt64) (wx wy : Window) (x y : Buffer α) (h : ¬ op.operation.copies) :
    (op.outcome plan sel n wx wy x y).answer = .ok (op.reply plan n wx wy x y) := by
  cases op with
  | rot c s => exact absurd rfl h
  | rotm p => exact absurd rfl h
  | _ => rfl

/-! ### Successful calls -/

/-- The image of element `i` of a window. -/
def UnaryOp.image? (op : UnaryOp α ρ) (n : ℕ) (w : Window) (x : Buffer α) (i : ℕ) : Option α :=
  (x.get? (w.place n i)).map op.image

/-- The image of the elements `i` of two windows. -/
def BinaryOp.image? (op : BinaryOp α ρ) (n : ℕ) (wx wy : Window) (x y : Buffer α) (i : ℕ) :
    Option (α × α) := do
  return op.image (← x.get? (wx.place n i)) (← y.get? (wy.place n i))

/-- **Successful calls, element by element.** The options resolve to `n` elements in windows of the
buffers; there are buffers that hold the images of these elements and are otherwise as before; and
they are the buffers of the caller, or the copies that are returned. -/
theorem run_elementwise (plan : Schedule) :
    (∀ (op : UnaryOp α ρ) (x : Buffer α) (opts : UnaryOptions) (o : Outcome (Buffer α) α ρ)
        (a : Answer α ρ), op.run plan x opts = some o → o.answer = .ok a →
      ∃ n w x', resolveUnary op.operation.rule x.len opts = some (.ok ⟨n, [w]⟩) ∧
        Replaced w n.toNat (op.image? n.toNat w x) x x' ∧
        o.buffers = (if op.operation.copies then x else x') ∧
        (op.operation.copies → a = .vectors [x'])) ∧
    ∀ (op : BinaryOp α ρ) (x y : Buffer α) (opts : BinaryOptions)
        (o : Outcome (Buffer α × Buffer α) α ρ) (a : Answer α ρ),
        op.run plan x y opts = some o → o.answer = .ok a →
      ∃ n wx wy x' y',
        resolveBinary op.operation.rule x.len y.len opts = some (.ok ⟨n, [wx, wy]⟩) ∧
        Replaced wx n.toNat (fun i => (op.image? n.toNat wx wy x y i).map Prod.fst) x x' ∧
        Replaced wy n.toNat (fun i => (op.image? n.toNat wx wy x y i).map Prod.snd) y y' ∧
        o.buffers = (if op.operation.copies then (x, y) else (x', y')) ∧
        (op.operation.copies → a = .vectors [x', y']) := by
  constructor
  · intro op x opts o a ho ha
    obtain ⟨sel, n, w, hres, hin, rfl⟩ := UnaryOp.eq_outcome_of_ok ho ha
    refine ⟨n, w, op.result n w x, hres, View.replaced_mapElements (v := w.view n x) hin op.image,
      op.buffers_outcome plan sel hin, fun hc => ?_⟩
    exact Except.ok.inj (ha.symm.trans (UnaryOp.answer_of_copies plan sel n w x hc))
  · intro op x y opts o a ho ha
    obtain ⟨sel, n, wx, wy, hres, hx, hy, rfl⟩ := BinaryOp.eq_outcome_of_ok ho ha
    obtain ⟨hfst, hsnd⟩ := View.replaced_mapPairs (v := wx.view n x) (w := wy.view n y) hx hy rfl
      op.image
    refine ⟨n, wx, wy, (op.result n wx wy x y).1, (op.result n wx wy x y).2, hres, hfst, hsnd,
      op.buffers_outcome plan sel hx hy, fun hc => ?_⟩
    exact Except.ok.inj (ha.symm.trans (BinaryOp.answer_of_copies plan sel n wx wy x y hc))

/-- Two elements are rotated, those of `x` read backwards and two cells apart; the copies are
returned. -/
theorem run_elementwise_rot_backwards :
    ∃ (x y : Buffer Float) (opts : BinaryOptions) (o : Outcome (Buffer Float × Buffer Float) _ _)
        (x' y' : Buffer Float),
      x.cells = #[1, 2, 3, 4] ∧ y.cells = #[5, 6, 7] ∧
      opts = ⟨some 2, ⟨some 1, some (-2)⟩, ⟨none, none⟩⟩ ∧
      (BinaryOp.rot 0.6 0.8).run .sequential x y opts = some o ∧ o.buffers = (x, y) ∧
      o.answer = .ok (.vectors [x', y']) ∧
      Replaced ⟨1, -2⟩ 2 (fun i => ((BinaryOp.rot 0.6 0.8).image? 2 ⟨1, -2⟩ ⟨0, 1⟩ x y i).map
        Prod.fst) x x' := by
  have h := (run_elementwise (α := Float) .sequential).2 (.rot 0.6 0.8) ⟨#[1, 2, 3, 4], by decide⟩
    ⟨#[5, 6, 7], by decide⟩ ⟨some 2, ⟨some 1, some (-2)⟩, ⟨none, none⟩⟩ _ _ rfl rfl
  obtain ⟨n, wx, wy, x', y', hres, hx, -, hb, ha⟩ := h
  cases hres
  refine ⟨_, _, _, _, x', y', rfl, rfl, rfl, rfl, hb, congrArg Except.ok (ha rfl), hx⟩

end Strided
