import Mathlib.Data.Multiset.AddSub
import Strided.Proofs.Succession

/-! # Exchanging two vectors

A swap takes the elements of two windows one pair at a time, and each pair goes through one
temporary. No element is lost or doubled on the way, a second swap takes all of them back, and it
does not matter which of the two vectors is named first.

* `Buffer.bag`: the cells of a buffer, however they are ordered.
* `bag_updatePair`, `bag_foldlM`: one exchange of a pair keeps all cells, and so does the loop.
* `Transformed.flip`: the two vectors in the other order.
* `exchange_of_vectors`: the calls. -/

namespace Strided

variable {α : Type}

/-! ### The cells of a buffer -/

/-- The cells of a buffer, each as often as it occurs. -/
def Buffer.bag (b : Buffer α) : Multiset α := b.cells.toList

/-- A write puts one value in and takes another one out. -/
theorem Buffer.bag_set {b b' : Buffer α} {i : ℕ} {a c : α} (ha : b.get? i = some a)
    (hb' : b.set? i c = some b') : c ::ₘ b.bag = a ::ₘ b'.bag := by
  unfold Buffer.set? at hb'
  split_ifs at hb' with hi
  cases hb'
  have hl : i < b.cells.toList.length := hi
  have hget : b.cells.toList[i] = a := by
    simpa [Buffer.get?, hi] using ha
  -- Both lists consist of one value and of the cells that are not written.
  have hold : b.cells.toList.Perm (a :: b.cells.toList.eraseIdx i) := by
    rw [← hget]
    exact (List.getElem_cons_eraseIdx_perm hl).symm
  have hnew : (b.cells.set i c hi).toList.Perm (c :: b.cells.toList.eraseIdx i) := by
    rw [Array.toList_set]
    exact List.set_perm_cons_eraseIdx hl c
  unfold Buffer.bag
  rw [Multiset.coe_eq_coe.mpr hold, Multiset.coe_eq_coe.mpr hnew, ← Multiset.cons_coe,
    ← Multiset.cons_coe]
  exact Multiset.cons_swap c a _

namespace View

theorem bag_set {v v' : View α} {i : UInt64} {a c : α} (ha : v.get? i = some a)
    (hv' : v.set? i c = some v') : c ::ₘ v.buffer.bag = a ::ₘ v'.buffer.bag := by
  obtain ⟨j, hj, hget⟩ := Option.bind_eq_some_iff.mp ha
  obtain ⟨j', hj', hset⟩ := Option.bind_eq_some_iff.mp hv'
  cases hj.symm.trans hj'
  obtain ⟨b', hb', hv⟩ := Option.bind_eq_some_iff.mp hset
  cases hv
  exact Buffer.bag_set hget hb'

/-- All cells of two views. -/
def bags (p : View α × View α) : Multiset α := p.1.buffer.bag + p.2.buffer.bag

/-- **One exchange keeps all cells.** What the one buffer gives away the other takes. -/
theorem bag_updatePair {p q : View α × View α} {i : UInt64}
    (h : updatePair? (fun w z => (z, w)) p i = some q) : bags q = bags p := by
  obtain ⟨a, ha, h⟩ := Option.bind_eq_some_iff.mp h
  obtain ⟨c, hc, h⟩ := Option.bind_eq_some_iff.mp h
  obtain ⟨x, hx, h⟩ := Option.bind_eq_some_iff.mp h
  obtain ⟨y, hy, h⟩ := Option.bind_eq_some_iff.mp h
  cases h
  refine (Multiset.cons_inj_right a).mp ?_
  calc a ::ₘ (x.buffer.bag + y.buffer.bag)
      = (a ::ₘ x.buffer.bag) + y.buffer.bag := (Multiset.cons_add _ _ _).symm
    _ = (c ::ₘ p.1.buffer.bag) + y.buffer.bag := by rw [bag_set ha hx]
    _ = p.1.buffer.bag + (c ::ₘ y.buffer.bag) := by rw [Multiset.cons_add, Multiset.add_cons]
    _ = p.1.buffer.bag + (a ::ₘ p.2.buffer.bag) := by rw [bag_set hc hy]
    _ = a ::ₘ (p.1.buffer.bag + p.2.buffer.bag) := Multiset.add_cons _ _ _

/-- **The loop keeps all cells**, whichever elements it runs through. -/
theorem bag_foldlM : ∀ (is : List UInt64) {p q : View α × View α},
    is.foldlM (updatePair? fun w z => (z, w)) p = some q → bags q = bags p
  | [], p, q, h => by
    cases h
    rfl
  | i :: is, p, q, h => by
    rw [List.foldlM_cons] at h
    obtain ⟨r, hr, hq⟩ := Option.bind_eq_some_iff.mp h
    exact (bag_foldlM is hq).trans (bag_updatePair hr)

end View

/-! ### The vectors in the other order -/

section Flip
variable {f : α → α → α × α} {n : ℕ} {wx wy : Window} {x y x' y' : Buffer α}

theorem imageAt?_flip (f : α → α → α × α) (n : ℕ) (wx wy : Window) (x y : Buffer α) (i : ℕ) :
    imageAt? (fun a c => (f c a).swap) n wy wx y x i =
      (imageAt? f n wx wy x y i).map Prod.swap := by
  unfold imageAt?
  cases x.get? (wx.place n i) <;> cases y.get? (wy.place n i) <;> rfl

theorem Transformed.flip (h : Transformed f n wx wy x y x' y') :
    Transformed (fun a c => (f c a).swap) n wy wx y x y' x' := by
  constructor
  · refine h.snd.congr fun i _ => ?_
    rw [imageAt?_flip, Option.map_map]
    rfl
  · refine h.fst.congr fun i _ => ?_
    rw [imageAt?_flip, Option.map_map]
    rfl

end Flip

/-! ### Calls -/

variable {ρ : Type} [RealScalar ρ] [Element α ρ]

theorem BinaryOp.bag_result_swap {n : UInt64} {wx wy : Window} {x y : Buffer α}
    (hx : wx.Inside n.toNat x.cells.size) (hy : wy.Inside n.toNat y.cells.size) :
    ((swap : BinaryOp α ρ).result n wx wy x y).1.bag +
      ((swap : BinaryOp α ρ).result n wx wy x y).2.bag = x.bag + y.bag :=
  View.bag_foldlM _ (View.mapPairs?_eq (x := wx.view n x) (y := wy.view n y) hx hy rfl _)

/-- **A swap loses nothing and undoes itself.** A swap that succeeds exchanges the elements that stand
side by side. The same swap then succeeds again and gives back both buffers, whole; all cells of both
buffers together are the same as before, each as often; and with the vectors and their options in the
other order, and with the number of elements that the options come to, the call leaves the same two
buffers. -/
theorem exchange_of_vectors (plan : Schedule) {x y x' y' : Buffer α} {opts : BinaryOptions}
    (h : (BinaryOp.swap : BinaryOp α ρ).Leaves plan x y opts x' y') :
    (BinaryOp.swap : BinaryOp α ρ).Leaves plan x' y' opts x y ∧
    x'.bag + y'.bag = x.bag + y.bag ∧
    ∃ n wx wy, resolveBinary Operation.swap.rule x.len y.len opts = some (.ok ⟨n, [wx, wy]⟩) ∧
      (∀ i < n.toNat, x'.get? (wx.place n.toNat i) = y.get? (wy.place n.toNat i) ∧
        y'.get? (wy.place n.toNat i) = x.get? (wx.place n.toNat i)) ∧
      (BinaryOp.swap : BinaryOp α ρ).Leaves plan y x ⟨some n, opts.y, opts.x⟩ y' x' := by
  obtain ⟨sel, n, wx, wy, hsel, hres, ht⟩ := (BinaryOp.leaves_iff rfl).mp h
  obtain ⟨hx, hy⟩ := inside_of_resolveBinary hres
  refine ⟨?_, ?_, n, wx, wy, hres, fun i hi => ?_, ?_⟩
  · have hres' := (ht.resolveBinary_eq hx hy _ opts).trans hres
    have hback := ht.undo hx hy (g := BinaryOp.image (.swap : BinaryOp α ρ)) fun _ _ => rfl
    exact (BinaryOp.leaves_iff rfl).mpr ⟨sel, n, wx, wy, hsel, hres', hback⟩
  · obtain ⟨rfl, rfl⟩ := ht.unique (BinaryOp.transformed_result _ hx hy)
    exact BinaryOp.bag_result_swap hx hy
  · obtain ⟨a, c, ha, hc, ha', hc'⟩ := ht.exists_images hx hy hi
    exact ⟨ha'.trans hc.symm, hc'.trans ha.symm⟩
  · obtain ⟨⟨hwx, hinx⟩, hwy, hiny⟩ := resolveBinary_ok hres
    -- The name of an operand does not matter to the window that is asked for.
    have hres' : resolveBinary Operation.swap.rule y.len x.len ⟨some n, opts.y, opts.x⟩ =
        some (.ok ⟨n, [wy, wx]⟩) :=
      resolveBinary_given ⟨hwy.offset, hwy.inc⟩ hiny ⟨hwx.offset, hwx.inc⟩ hinx
    exact (BinaryOp.leaves_iff rfl).mpr ⟨sel, n, wy, wx, hsel, hres', ht.flip⟩

/-- Every second element of `x` goes against the last three of `y`, which are read backwards. -/
theorem exchange_of_vectors_opposite :
    ∃ (x y x' y' : Buffer Float) (opts : BinaryOptions),
      x.cells = #[1, 2, 3, 4, 5] ∧ y.cells = #[6, 7, 8, 9] ∧ x'.cells = #[9, 2, 8, 4, 7] ∧
      y'.cells = #[6, 5, 3, 1] ∧ opts = ⟨none, ⟨none, some 2⟩, ⟨some 1, some (-1)⟩⟩ ∧
      BinaryOp.swap.Leaves .sequential x y opts x' y' ∧
      BinaryOp.swap.Leaves .sequential x' y' opts x y ∧ x'.bag + y'.bag = x.bag + y.bag ∧
      BinaryOp.swap.Leaves .sequential y x ⟨some 3, ⟨some 1, some (-1)⟩, ⟨none, some 2⟩⟩ y' x' := by
  let x : Buffer Float := ⟨#[1, 2, 3, 4, 5], by decide⟩
  let y : Buffer Float := ⟨#[6, 7, 8, 9], by decide⟩
  let x' : Buffer Float := ⟨#[9, 2, 8, 4, 7], by decide⟩
  let y' : Buffer Float := ⟨#[6, 5, 3, 1], by decide⟩
  let opts : BinaryOptions := ⟨none, ⟨none, some 2⟩, ⟨some 1, some (-1)⟩⟩
  have hres : resolveBinary Operation.swap.rule x.len y.len opts =
      some (.ok ⟨3, [⟨0, 2⟩, ⟨1, -1⟩]⟩) := by
    decide
  have hleaves : BinaryOp.swap.Leaves .sequential x y opts x' y' :=
    ⟨_, _, BinaryOp.run_of_resolved .sequential rfl hres, rfl, rfl⟩
  obtain ⟨hback, hbag, n, wx, wy, hres', -, hflip⟩ := exchange_of_vectors .sequential hleaves
  cases hres.symm.trans hres'
  exact ⟨x, y, x', y', opts, rfl, rfl, rfl, rfl, rfl, hleaves, hback, hbag, hflip⟩

end Strided
