import Strided.Proofs.Elementwise

/-! # Calls one after the other

A successful call turns buffers into buffers, and the next call starts from these. `Leaves` says so
of one call. What a call leaves is determined element by element: it is the one pair of buffers with
the images in the windows and all else as before. So whether two ways to work through some buffers
come to the same can be decided at each element.

* `Replaced.unique`, `Replaced.overwrite`: replacing the elements of a window.
* `Transformed`: two buffers with the images of pairs in their windows.
* `Transformed.comp`, `Transformed.undo`: one map of pairs after another.
* `UnaryOp.leaves_iff`, `BinaryOp.leaves_iff`: a call leaves the images of its elements.
* `UnaryOp.exists_leaves`, `BinaryOp.exists_leaves`: a call whose options resolve.
* `resolveUnary_given`, `resolveBinary_given`: calls with a given length. -/

namespace Strided

/-! ### Replacing the elements of a window -/

section Replaced
variable {α : Type} {w : Window} {n : ℕ} {z z' : ℕ → Option α} {b b' b'' : Buffer α}

namespace Replaced

theorem get?_place (h : Replaced w n z b b') {i : ℕ} (hi : i < n) :
    b'.get? (w.place n i) = z i := by
  obtain ⟨c, hz, hc⟩ := h.element i hi
  rw [hz, hc]

/-- **No other buffer** has the same elements in the window and all else as before. -/
theorem unique (h : Replaced w n z b b') (h' : Replaced w n z b b'') : b' = b'' := by
  refine Buffer.ext_get? fun j => ?_
  by_cases hj : ∃ i < n, w.place n i = j
  · obtain ⟨i, hi, rfl⟩ := hj
    rw [h.get?_place hi, h'.get?_place hi]
  · have hout : ∀ i < n, w.place n i ≠ j := fun i hi e => hj ⟨i, hi, e⟩
    rw [h.other j hout, h'.other j hout]

/-- Elements that are replaced twice. -/
theorem overwrite (h : Replaced w n z b b') (h' : Replaced w n z' b' b'') :
    Replaced w n z' b b'' :=
  ⟨h'.element, fun j hj => (h'.other j hj).trans (h.other j hj)⟩

theorem congr (h : Replaced w n z b b') (hz : ∀ i < n, z i = z' i) : Replaced w n z' b b' := by
  refine ⟨fun i hi => ?_, h.other⟩
  rw [← hz i hi]
  exact h.element i hi

/-- The number of cells stays the same, since no cell comes or goes. -/
theorem size_eq (h : Replaced w n z b b') (hin : w.Inside n b.cells.size) :
    b'.cells.size = b.cells.size := by
  have hnone : ∀ j, b'.get? j = none ↔ b.get? j = none := by
    intro j
    by_cases hj : ∃ i < n, w.place n i = j
    · obtain ⟨i, hi, rfl⟩ := hj
      obtain ⟨c, -, hc⟩ := h.element i hi
      obtain ⟨d, hd⟩ := Buffer.isSome_get? (hin.place_lt hi)
      simp [hc, hd]
    · rw [h.other j fun i hi e => hj ⟨i, hi, e⟩]
  simp only [Buffer.get?, Array.getElem?_eq_none_iff] at hnone
  have hle := (hnone b.cells.size).mpr le_rfl
  have hge := (hnone b'.cells.size).mp le_rfl
  omega

theorem len_eq (h : Replaced w n z b b') (hin : w.Inside n b.cells.size) : b'.len = b.len := by
  unfold Buffer.len
  rw [h.size_eq hin]

end Replaced

/-! ### Mapping pairs of elements -/

/-- The image of the elements `i` of two windows under a map of pairs. -/
def imageAt? (f : α → α → α × α) (n : ℕ) (wx wy : Window) (x y : Buffer α) (i : ℕ) :
    Option (α × α) := do
  return f (← x.get? (wx.place n i)) (← y.get? (wy.place n i))

/-- The buffers `x'` and `y'` hold the images of the pairs of elements of `x` and `y`, and are equal
to these outside the windows. -/
structure Transformed (f : α → α → α × α) (n : ℕ) (wx wy : Window) (x y x' y' : Buffer α) :
    Prop where
  fst : Replaced wx n (fun i => (imageAt? f n wx wy x y i).map Prod.fst) x x'
  snd : Replaced wy n (fun i => (imageAt? f n wx wy x y i).map Prod.snd) y y'

namespace Transformed

variable {f g : α → α → α × α} {wx wy : Window} {x y x' y' x'' y'' : Buffer α}

theorem unique (h : Transformed f n wx wy x y x' y') (h' : Transformed f n wx wy x y x'' y'') :
    x' = x'' ∧ y' = y'' :=
  ⟨h.fst.unique h'.fst, h.snd.unique h'.snd⟩

/-- The elements after a map of pairs. -/
theorem get?_place (h : Transformed f n wx wy x y x' y') {i : ℕ} (hi : i < n) {a c : α}
    (ha : x.get? (wx.place n i) = some a) (hc : y.get? (wy.place n i) = some c) :
    x'.get? (wx.place n i) = some (f a c).1 ∧ y'.get? (wy.place n i) = some (f a c).2 := by
  rw [h.fst.get?_place hi, h.snd.get?_place hi, imageAt?, ha, hc]
  exact ⟨rfl, rfl⟩

variable (hx : wx.Inside n x.cells.size) (hy : wy.Inside n y.cells.size)
include hx hy

/-- Two elements side by side, and their images. -/
theorem exists_images (h : Transformed f n wx wy x y x' y') {i : ℕ} (hi : i < n) :
    ∃ a c, x.get? (wx.place n i) = some a ∧ y.get? (wy.place n i) = some c ∧
      x'.get? (wx.place n i) = some (f a c).1 ∧ y'.get? (wy.place n i) = some (f a c).2 := by
  obtain ⟨a, ha⟩ := Buffer.isSome_get? (hx.place_lt hi)
  obtain ⟨c, hc⟩ := Buffer.isSome_get? (hy.place_lt hi)
  exact ⟨a, c, ha, hc, h.get?_place hi ha hc⟩

/-- **One map of pairs after another** is their composition. -/
theorem comp (h : Transformed f n wx wy x y x' y') (h' : Transformed g n wx wy x' y' x'' y'') :
    Transformed (fun a c => g (f a c).1 (f a c).2) n wx wy x y x'' y'' := by
  have himage : ∀ i < n, imageAt? g n wx wy x' y' i =
      imageAt? (fun a c => g (f a c).1 (f a c).2) n wx wy x y i := by
    intro i hi
    obtain ⟨a, c, ha, hc, ha', hc'⟩ := h.exists_images hx hy hi
    simp only [imageAt?, ha, hc, ha', hc']
    rfl
  constructor
  · exact (h.fst.overwrite h'.fst).congr fun i hi => congrArg (Option.map Prod.fst) (himage i hi)
  · exact (h.snd.overwrite h'.snd).congr fun i hi => congrArg (Option.map Prod.snd) (himage i hi)

/-- **A map of pairs is undone** by a map that takes every image back. -/
theorem undo (h : Transformed f n wx wy x y x' y')
    (hgf : ∀ a c, g (f a c).1 (f a c).2 = (a, c)) : Transformed g n wx wy x' y' x y := by
  have himage : ∀ i < n, ∃ a c, x.get? (wx.place n i) = some a ∧ y.get? (wy.place n i) = some c ∧
      imageAt? g n wx wy x' y' i = some (a, c) := by
    intro i hi
    obtain ⟨a, c, ha, hc, ha', hc'⟩ := h.exists_images hx hy hi
    refine ⟨a, c, ha, hc, ?_⟩
    rw [imageAt?, ha', hc', ← hgf a c]
    rfl
  constructor
  · refine ⟨fun i hi => ?_, fun j hj => (h.fst.other j hj).symm⟩
    obtain ⟨a, c, ha, -, hac⟩ := himage i hi
    exact ⟨a, congrArg (Option.map Prod.fst) hac, ha⟩
  · refine ⟨fun i hi => ?_, fun j hj => (h.snd.other j hj).symm⟩
    obtain ⟨a, c, -, hc, hac⟩ := himage i hi
    exact ⟨c, congrArg (Option.map Prod.snd) hac, hc⟩

/-- The options of the next call resolve as those of the last one did. -/
theorem resolveBinary_eq (h : Transformed f n wx wy x y x' y') (rule : LengthRule)
    (opts : BinaryOptions) :
    resolveBinary rule x'.len y'.len opts = resolveBinary rule x.len y.len opts := by
  rw [h.fst.len_eq hx, h.snd.len_eq hy]

end Transformed

end Replaced

/-! ### Calls with a given length -/

section Given
variable {rule : LengthRule} {n : UInt64}

/-- What the resolver checks of one operand: the window is the one that is asked for, and it lies
inside the buffer. -/
theorem asks_and_inside_iff {o : Operand} {w : Window} :
    (o.Valid ∧ o.Asks w) ∧ w.fits n o.len ↔ o.Asks w ∧ w.Inside n.toNat o.len.toNat := by
  constructor
  · rintro ⟨⟨hvalid, hasks⟩, hfits⟩
    have hlt := hvalid.start_lt
    have hoff := hasks.offset
    refine ⟨hasks, hvalid.inc_ne hasks, by omega, fun hn => ?_⟩
    exact (Window.fits_iff.mp hfits).resolve_left hn
  · rintro ⟨hasks, hin⟩
    have hlt := hin.offset_lt
    have hoff := hasks.offset
    refine ⟨⟨⟨?_, by omega, by omega⟩, hasks⟩, Window.fits_iff.mpr ?_⟩
    · rw [← hasks.inc, ne_eq, toInt_eq_zero_iff]
      exact hin.inc_ne
    · rcases Nat.eq_zero_or_pos n.toNat with h0 | hpos
      · exact Or.inl h0
      · exact Or.inr (hin.last_lt hpos.ne')

theorem resolveUnary_ok {len : UInt64} {opts : UnaryOptions} {w : Window}
    (h : resolveUnary rule len opts = some (.ok ⟨n, [w]⟩)) :
    Operand.Asks ⟨"x", len, opts.x⟩ w ∧ w.Inside n.toNat len.toNat := by
  obtain ⟨hws, -, hfits⟩ := resolve_eq_ok_iff.mp h
  simp only [unaryOperands, List.forall₂_cons] at hws hfits
  exact asks_and_inside_iff.mp ⟨hws.1, hfits.1⟩

theorem resolveBinary_ok {xLen yLen : UInt64} {opts : BinaryOptions} {wx wy : Window}
    (h : resolveBinary rule xLen yLen opts = some (.ok ⟨n, [wx, wy]⟩)) :
    (Operand.Asks ⟨"x", xLen, opts.x⟩ wx ∧ wx.Inside n.toNat xLen.toNat) ∧
      Operand.Asks ⟨"y", yLen, opts.y⟩ wy ∧ wy.Inside n.toNat yLen.toNat := by
  obtain ⟨hws, -, hfits⟩ := resolve_eq_ok_iff.mp h
  simp only [binaryOperands, List.forall₂_cons] at hws hfits
  exact ⟨asks_and_inside_iff.mp ⟨hws.1, hfits.1⟩, asks_and_inside_iff.mp ⟨hws.2.1, hfits.2.1⟩⟩

/-- **A call with a given length resolves** to the windows that are asked for if they lie inside
their buffers. -/
theorem resolveUnary_given {len : UInt64} {v : VectorOptions} {w : Window}
    (hw : Operand.Asks ⟨"x", len, v⟩ w) (hin : w.Inside n.toNat len.toNat) :
    resolveUnary rule len ⟨some n, v⟩ = some (.ok ⟨n, [w]⟩) := by
  obtain ⟨hasks, hfits⟩ := asks_and_inside_iff.mpr ⟨hw, hin⟩
  exact resolve_eq_ok_iff.mpr ⟨.cons hasks .nil, rfl, .cons hfits .nil⟩

theorem resolveBinary_given {xLen yLen : UInt64} {vx vy : VectorOptions} {wx wy : Window}
    (hwx : Operand.Asks ⟨"x", xLen, vx⟩ wx) (hx : wx.Inside n.toNat xLen.toNat)
    (hwy : Operand.Asks ⟨"y", yLen, vy⟩ wy) (hy : wy.Inside n.toNat yLen.toNat) :
    resolveBinary rule xLen yLen ⟨some n, vx, vy⟩ = some (.ok ⟨n, [wx, wy]⟩) := by
  obtain ⟨hasksx, hfitsx⟩ := asks_and_inside_iff.mpr ⟨hwx, hx⟩
  obtain ⟨hasksy, hfitsy⟩ := asks_and_inside_iff.mpr ⟨hwy, hy⟩
  exact resolve_eq_ok_iff.mpr ⟨.cons hasksx (.cons hasksy .nil), rfl,
    .cons hfitsx (.cons hfitsy .nil)⟩

end Given

/-! ### Calls -/

theorem Operation.not_copies_of_inPlace {op : Operation} (h : op.row.mutation = .inPlace) :
    op.copies = false := by
  revert h
  cases op <;> decide

variable {α ρ : Type} [RealScalar ρ] [Element α ρ]

namespace UnaryOp

/-- The call succeeds, and the buffer of the caller is then `x'`. -/
def Leaves (plan : Schedule) (op : UnaryOp α ρ) (x : Buffer α) (opts : UnaryOptions)
    (x' : Buffer α) : Prop :=
  ∃ o a, op.run plan x opts = some o ∧ o.answer = .ok a ∧ o.buffers = x'

omit [RealScalar ρ] in
theorem replaced_result (op : UnaryOp α ρ) {n : UInt64} {w : Window} {x : Buffer α}
    (hin : w.Inside n.toNat x.cells.size) :
    Replaced w n.toNat (op.image? n.toNat w x) x (op.result n w x) :=
  View.replaced_mapElements (v := w.view n x) hin op.image

/-- **What a call on one vector leaves**, if it does not change a copy. -/
theorem leaves_iff {plan : Schedule} {op : UnaryOp α ρ} (hop : op.operation.copies = false)
    {x x' : Buffer α} {opts : UnaryOptions} :
    op.Leaves plan x opts x' ↔ ∃ sel n w,
      select op.operation (Element.precision α) = .ok sel ∧
      resolveUnary op.operation.rule x.len opts = some (.ok ⟨n, [w]⟩) ∧
      Replaced w n.toNat (op.image? n.toNat w x) x x' := by
  have hbuffers : ∀ sel {n : UInt64} {w : Window}, w.Inside n.toNat x.cells.size →
      (op.outcome plan sel n w x).buffers = op.result n w x := fun sel _ _ hin => by
    rw [op.buffers_outcome plan sel hin, hop]
    rfl
  constructor
  · rintro ⟨o, a, ho, ha, rfl⟩
    obtain ⟨e, -, h⟩ | ⟨sel, e, -, -, h⟩ | ⟨sel, n, w, hsel, hres, hin, h⟩ :=
      op.run_cases plan x opts
    · cases ho.symm.trans h
      cases ha
    · cases ho.symm.trans h
      cases ha
    · cases ho.symm.trans h
      refine ⟨sel, n, w, hsel, hres, ?_⟩
      rw [hbuffers sel hin]
      exact op.replaced_result hin
  · rintro ⟨sel, n, w, hsel, hres, hx'⟩
    have hin := inside_of_resolveUnary hres
    refine ⟨_, _, run_of_resolved plan hsel hres, rfl, ?_⟩
    rw [hbuffers sel hin]
    exact (op.replaced_result hin).unique hx'

/-- A call whose options resolve leaves a buffer with the images, of the same length. -/
theorem exists_leaves (plan : Schedule) {op : UnaryOp α ρ} (hop : op.operation.copies = false)
    {sel : Selection} (hsel : select op.operation (Element.precision α) = .ok sel) {x : Buffer α}
    {opts : UnaryOptions} {n : UInt64} {w : Window}
    (hres : resolveUnary op.operation.rule x.len opts = some (.ok ⟨n, [w]⟩)) :
    ∃ x', op.Leaves plan x opts x' ∧ Replaced w n.toNat (op.image? n.toNat w x) x x' ∧
      x'.len = x.len := by
  have hin := inside_of_resolveUnary hres
  have hx' := op.replaced_result hin
  exact ⟨_, (leaves_iff hop).mpr ⟨sel, n, w, hsel, hres, hx'⟩, hx', hx'.len_eq hin⟩

end UnaryOp

namespace BinaryOp

/-- The call succeeds, and the buffers of the caller are then `x'` and `y'`. -/
def Leaves (plan : Schedule) (op : BinaryOp α ρ) (x y : Buffer α) (opts : BinaryOptions)
    (x' y' : Buffer α) : Prop :=
  ∃ o a, op.run plan x y opts = some o ∧ o.answer = .ok a ∧ o.buffers = (x', y')

theorem transformed_result (op : BinaryOp α ρ) {n : UInt64} {wx wy : Window} {x y : Buffer α}
    (hx : wx.Inside n.toNat x.cells.size) (hy : wy.Inside n.toNat y.cells.size) :
    Transformed op.image n.toNat wx wy x y (op.result n wx wy x y).1
      (op.result n wx wy x y).2 := by
  obtain ⟨hfst, hsnd⟩ := View.replaced_mapPairs (v := wx.view n x) (w := wy.view n y) hx hy rfl
    op.image
  exact ⟨hfst, hsnd⟩

/-- **What a call on two vectors leaves**, if it does not change copies. -/
theorem leaves_iff {plan : Schedule} {op : BinaryOp α ρ} (hop : op.operation.copies = false)
    {x y x' y' : Buffer α} {opts : BinaryOptions} :
    op.Leaves plan x y opts x' y' ↔ ∃ sel n wx wy,
      select op.operation (Element.precision α) = .ok sel ∧
      resolveBinary op.operation.rule x.len y.len opts = some (.ok ⟨n, [wx, wy]⟩) ∧
      Transformed op.image n.toNat wx wy x y x' y' := by
  have hbuffers : ∀ sel {n : UInt64} {wx wy : Window}, wx.Inside n.toNat x.cells.size →
      wy.Inside n.toNat y.cells.size →
      (op.outcome plan sel n wx wy x y).buffers = op.result n wx wy x y :=
    fun sel _ _ _ hx hy => by
      rw [op.buffers_outcome plan sel hx hy, hop]
      rfl
  constructor
  · rintro ⟨o, a, ho, ha, hb⟩
    obtain ⟨e, -, h⟩ | ⟨sel, e, -, -, h⟩ | ⟨sel, n, wx, wy, hsel, hres, hx, hy, h⟩ :=
      op.run_cases plan x y opts
    · cases ho.symm.trans h
      cases ha
    · cases ho.symm.trans h
      cases ha
    · cases ho.symm.trans h
      rw [hbuffers sel hx hy] at hb
      refine ⟨sel, n, wx, wy, hsel, hres, ?_⟩
      have hresult := op.transformed_result hx hy
      rw [hb] at hresult
      exact hresult
  · rintro ⟨sel, n, wx, wy, hsel, hres, h⟩
    obtain ⟨hx, hy⟩ := inside_of_resolveBinary hres
    refine ⟨_, _, run_of_resolved plan hsel hres, rfl, ?_⟩
    obtain ⟨ex, ey⟩ := (op.transformed_result hx hy).unique h
    rw [hbuffers sel hx hy]
    exact Prod.ext ex ey

/-- A call whose options resolve leaves buffers with the images, of the same lengths. -/
theorem exists_leaves (plan : Schedule) {op : BinaryOp α ρ} (hop : op.operation.copies = false)
    {sel : Selection} (hsel : select op.operation (Element.precision α) = .ok sel) {x y : Buffer α}
    {opts : BinaryOptions} {n : UInt64} {wx wy : Window}
    (hres : resolveBinary op.operation.rule x.len y.len opts = some (.ok ⟨n, [wx, wy]⟩)) :
    ∃ x' y', op.Leaves plan x y opts x' y' ∧ Transformed op.image n.toNat wx wy x y x' y' ∧
      x'.len = x.len ∧ y'.len = y.len := by
  obtain ⟨hx, hy⟩ := inside_of_resolveBinary hres
  have h := op.transformed_result hx hy
  exact ⟨_, _, (leaves_iff hop).mpr ⟨sel, n, wx, wy, hsel, hres, h⟩, h, h.fst.len_eq hx,
    h.snd.len_eq hy⟩

end BinaryOp

end Strided
