import Mathlib.Algebra.Group.Nat.Defs
import Strided.Proofs.Succession

/-! # Vectors in blocks

The elements of a call may be worked through in two blocks, the first `k` of them and the others,
each by a call of its own and in either order. A window with a negative increment ends at its
offset, so there it is the second block that keeps the offset, and the first one begins further on.

* `Window.Part`: a stretch of the elements of a window, as a window.
* `Window.Part.place_eq`, `Window.Part.inside`: its elements, which lie inside the same buffer.
* `Complementary`: two stretches that make up the whole.
* `Replaced.of_parts`: replacing the elements of one stretch and then those of the other.
* `VectorOptions.Block`, `VectorOptions.Block.exists_part`: the options of a block, and its window.
* `blocked_processing`: calls. -/

namespace Strided

/-! ### Parts of a window -/

/-- The window `w'` of `m` elements shows the elements of the window `w` of `n` elements from
element `i` on. -/
structure Window.Part (n i m : ℕ) (w w' : Window) : Prop where
  inc : w'.inc = w.inc
  le : i + m ≤ n
  offset : w'.offset.toNat =
    w.offset.toNat + (if 0 < w.inc then i else n - (i + m)) * w.inc.toInt.natAbs

namespace Window.Part

variable {n i m : ℕ} {w w' : Window}

/-- **The elements of a part.** -/
theorem place_eq (h : w.Part n i m w') {j : ℕ} (hj : j < m) : w'.place m j = w.place n (i + j) := by
  have hle := h.le
  unfold place reach
  rw [h.offset, h.inc, Nat.add_assoc, Nat.add_left_cancel_iff]
  split_ifs
  · rw [Nat.add_mul]
  · rw [← Nat.add_mul]
    congr 1
    omega

theorem last_le (h : w.Part n i m w') (hm : 0 < m) : w'.last m ≤ w.last n := by
  have hle := h.le
  unfold last
  rw [h.offset, h.inc, Nat.add_assoc, ← Nat.add_mul]
  refine Nat.add_le_add_left (Nat.mul_le_mul_right _ ?_) _
  split_ifs
  · omega
  · omega

/-- **A part lies inside the same buffer.** -/
theorem inside (h : w.Part n i m w') (hm : 0 < m) {len : ℕ} (hin : w.Inside n len) :
    w'.Inside m len := by
  have hle := h.le
  have hlast := hin.last_lt (by omega)
  have hlast' := h.last_le hm
  have hoffset : w'.offset.toNat ≤ w'.last m := Nat.le_add_right _ _
  refine ⟨?_, by omega, fun _ => by omega⟩
  rw [h.inc]
  exact hin.inc_ne

end Window.Part

/-! ### Two parts that make up the whole -/

/-- Of the numbers below `n` there are `m` from `i` on, and the others are the `m'` from `i'` on. -/
structure Complementary (n i m i' m' : ℕ) : Prop where
  pos : 0 < m ∧ 0 < m'
  total : m + m' = n
  le : i + m ≤ n ∧ i' + m' ≤ n
  disjoint : i + m ≤ i' ∨ i' + m' ≤ i

theorem Complementary.symm {n i m i' m' : ℕ} (h : Complementary n i m i' m') :
    Complementary n i' m' i m :=
  ⟨h.pos.symm, (Nat.add_comm m' m).trans h.total, h.le.symm, h.disjoint.symm⟩

section Replaced
variable {α : Type} {w w₁ w₂ : Window} {n i m i' m' : ℕ} {z z₁ z₂ : ℕ → Option α}
  {b b₁ b₂ : Buffer α}

/-- Replacing the elements of a part leaves the other elements of the window as they are. -/
theorem Replaced.get?_of_part (h : Replaced w₁ m z₁ b b₁) (hw : w.Part n i m w₁) (hinc : w.inc ≠ 0)
    {k : ℕ} (hk : k < n) (hout : k < i ∨ i + m ≤ k) :
    b₁.get? (w.place n k) = b.get? (w.place n k) := by
  have hle := hw.le
  refine h.other _ fun j hj e => ?_
  rw [hw.place_eq hj] at e
  have hjk := Window.place_inj hinc (by omega) hk e
  omega

/-- **One part after the other** is the whole window. -/
theorem Replaced.of_parts (hc : Complementary n i m i' m') (hinc : w.inc ≠ 0)
    (hw₁ : w.Part n i m w₁) (hw₂ : w.Part n i' m' w₂) (h₁ : Replaced w₁ m z₁ b b₁)
    (h₂ : Replaced w₂ m' z₂ b₁ b₂) (hz₁ : ∀ j < m, z₁ j = z (i + j))
    (hz₂ : ∀ j < m', z₂ j = z (i' + j)) : Replaced w n z b b₂ := by
  obtain ⟨-, htotal, hle, hdisjoint⟩ := hc
  refine ⟨fun k hk => ?_, fun c hc => ?_⟩
  · rcases (show (i ≤ k ∧ k < i + m) ∨ (i' ≤ k ∧ k < i' + m') by omega) with hin | hin
    · -- An element of the first part keeps what was put there, for the second is elsewhere.
      obtain ⟨j, rfl⟩ : ∃ j, k = i + j := ⟨k - i, by omega⟩
      have hj : j < m := by omega
      obtain ⟨a, ha, hget⟩ := h₁.element j hj
      rw [hw₁.place_eq hj] at hget
      refine ⟨a, (hz₁ j hj).symm.trans ha, ?_⟩
      rw [h₂.get?_of_part hw₂ hinc hk (by omega), hget]
    · obtain ⟨j, rfl⟩ : ∃ j, k = i' + j := ⟨k - i', by omega⟩
      have hj : j < m' := by omega
      obtain ⟨a, ha, hget⟩ := h₂.element j hj
      rw [hw₂.place_eq hj] at hget
      exact ⟨a, (hz₂ j hj).symm.trans ha, hget⟩
  · have hout : ∀ {i m : ℕ} {w' : Window}, w.Part n i m w' → ∀ j < m, w'.place m j ≠ c := by
      intro i m w' hw j hj
      rw [hw.place_eq hj]
      exact hc _ (by have := hw.le; omega)
    rw [h₂.other c (hout hw₂), h₁.other c (hout hw₁)]

end Replaced

section Transformed
variable {α : Type} {f : α → α → α × α} {wx wy wx₁ wy₁ wx₂ wy₂ : Window} {n i m i' m' : ℕ}
  {x y x₁ y₁ x₂ y₂ : Buffer α}

theorem imageAt?_of_part (hx : wx.Part n i m wx₁) (hy : wy.Part n i m wy₁) {j : ℕ} (hj : j < m) :
    imageAt? f m wx₁ wy₁ x y j = imageAt? f n wx wy x y (i + j) := by
  unfold imageAt?
  rw [hx.place_eq hj, hy.place_eq hj]

theorem Transformed.of_parts (hc : Complementary n i m i' m') (hincx : wx.inc ≠ 0)
    (hincy : wy.inc ≠ 0) (hx₁ : wx.Part n i m wx₁) (hy₁ : wy.Part n i m wy₁)
    (hx₂ : wx.Part n i' m' wx₂) (hy₂ : wy.Part n i' m' wy₂)
    (h₁ : Transformed f m wx₁ wy₁ x y x₁ y₁) (h₂ : Transformed f m' wx₂ wy₂ x₁ y₁ x₂ y₂) :
    Transformed f n wx wy x y x₂ y₂ := by
  have himage₁ : ∀ j < m, imageAt? f m wx₁ wy₁ x y j = imageAt? f n wx wy x y (i + j) :=
    fun j hj => imageAt?_of_part hx₁ hy₁ hj
  have himage₂ : ∀ j < m', imageAt? f m' wx₂ wy₂ x₁ y₁ j = imageAt? f n wx wy x y (i' + j) := by
    intro j hj
    have hk : i' + j < n := by have := hx₂.le; omega
    have hout : i' + j < i ∨ i + m ≤ i' + j := by have := hc.disjoint; omega
    rw [imageAt?_of_part hx₂ hy₂ hj]
    unfold imageAt?
    rw [h₁.fst.get?_of_part hx₁ hincx hk hout, h₁.snd.get?_of_part hy₁ hincy hk hout]
  constructor
  · exact Replaced.of_parts hc hincx hx₁ hx₂ h₁.fst h₂.fst
      (fun j hj => congrArg (Option.map Prod.fst) (himage₁ j hj))
      fun j hj => congrArg (Option.map Prod.fst) (himage₂ j hj)
  · exact Replaced.of_parts hc hincy hy₁ hy₂ h₁.snd h₂.snd
      (fun j hj => congrArg (Option.map Prod.snd) (himage₁ j hj))
      fun j hj => congrArg (Option.map Prod.snd) (himage₂ j hj)

end Transformed

/-! ### Options of a block -/

/-- Of the `n` elements that the options `v` of a vector ask for, the options `v'` ask for the `m`
elements from element `i` on. With a positive increment the block begins `i` steps after the offset,
with a negative one as many steps after it as there are elements behind the block. -/
structure VectorOptions.Block (n i m : ℕ) (v v' : VectorOptions) : Prop where
  inc : v'.inc.getD 1 = v.inc.getD 1
  offset : (v'.offset.getD 0).toInt = (v.offset.getD 0).toInt +
    (if 0 < v.inc.getD 1 then (i : ℤ) else n - (i + m)) * |(v.inc.getD 1).toInt|

/-- The options of the first `k` of `n` elements, and those of the other ones. -/
structure UnaryOptions.Split (n k : UInt64) (opts first second : UnaryOptions) : Prop where
  first_n : first.n = some k
  first_x : opts.x.Block n.toNat 0 k.toNat first.x
  second_n : second.n = some (n - k)
  second_x : opts.x.Block n.toNat k.toNat (n - k).toNat second.x

/-- The options of the first `k` of `n` pairs of elements, and those of the other ones. -/
structure BinaryOptions.Split (n k : UInt64) (opts first second : BinaryOptions) : Prop where
  first_n : first.n = some k
  first_x : opts.x.Block n.toNat 0 k.toNat first.x
  first_y : opts.y.Block n.toNat 0 k.toNat first.y
  second_n : second.n = some (n - k)
  second_x : opts.x.Block n.toNat k.toNat (n - k).toNat second.x
  second_y : opts.y.Block n.toNat k.toNat (n - k).toNat second.y

section Options
variable {name : String} {len : UInt64} {v v' : VectorOptions} {n i m : ℕ} {w : Window}

/-- The start of a block as a natural number. -/
theorem blockStart_eq (hle : i + m ≤ n) (hw : Operand.Asks ⟨name, len, v⟩ w) :
    (v.offset.getD 0).toInt +
        (if 0 < v.inc.getD 1 then (i : ℤ) else n - (i + m)) * |(v.inc.getD 1).toInt| =
      ((w.offset.toNat + (if 0 < w.inc then i else n - (i + m)) * w.inc.toInt.natAbs : ℕ) : ℤ) := by
  have hoff : (w.offset.toNat : ℤ) = (v.offset.getD 0).toInt := hw.offset
  have hinc : w.inc = v.inc.getD 1 := Int64.toInt_inj.mp hw.inc
  rw [Int.natCast_add, Int.natCast_mul, Int.natCast_natAbs, hoff, hinc]
  congr 2
  split_ifs
  · rfl
  · omega

theorem blockStart_lt (hle : i + m ≤ n) (hm : 0 < m) (hin : w.Inside n len.toNat) :
    w.offset.toNat + (if 0 < w.inc then i else n - (i + m)) * w.inc.toInt.natAbs < len.toNat := by
  have hlast := hin.last_lt (by omega)
  refine Nat.lt_of_le_of_lt (Nat.add_le_add_left (Nat.mul_le_mul_right _ ?_) _) hlast
  split_ifs
  · omega
  · omega

/-- **The window of a block.** -/
theorem VectorOptions.Block.exists_part (h : v.Block n i m v') (hle : i + m ≤ n) (hm : 0 < m)
    (hw : Operand.Asks ⟨name, len, v⟩ w) (hin : w.Inside n len.toNat) :
    ∃ w', Operand.Asks ⟨name, len, v'⟩ w' ∧ w.Part n i m w' ∧ w'.Inside m len.toNat := by
  have hlen := len.toNat_lt_size
  have hlt := blockStart_lt hle hm hin
  have hstart := blockStart_eq hle hw
  set start := w.offset.toNat + (if 0 < w.inc then i else n - (i + m)) * w.inc.toInt.natAbs
  have hword : (UInt64.ofNat start).toNat = start := UInt64.toNat_ofNat_of_lt' (by omega)
  have hpart : w.Part n i m ⟨UInt64.ofNat start, w.inc⟩ := ⟨rfl, hle, hword⟩
  refine ⟨_, ⟨?_, ?_⟩, hpart, hpart.inside hm hin⟩
  · change ((UInt64.ofNat start).toNat : ℤ) = (v'.offset.getD 0).toInt
    rw [h.offset, hstart, hword]
  · change w.inc.toInt = (v'.inc.getD 1).toInt
    rw [h.inc]
    exact hw.inc

/-- If the numbers of all cells are signed words, every block has options. -/
theorem VectorOptions.exists_block (hle : i + m ≤ n) (hm : 0 < m)
    (hw : Operand.Asks ⟨name, len, v⟩ w) (hin : w.Inside n len.toNat)
    (hlen : len.toNat ≤ 2 ^ 63) : ∃ v', v.Block n i m v' := by
  have hlt := blockStart_lt hle hm hin
  have hstart := blockStart_eq hle hw
  set start := w.offset.toNat + (if 0 < w.inc then i else n - (i + m)) * w.inc.toInt.natAbs
  refine ⟨⟨some (Int64.ofInt start), v.inc⟩, rfl, ?_⟩
  rw [hstart]
  exact Int64.toInt_ofInt_of_le (by omega) (by omega)

end Options

theorem complementary_of_lt {n k : UInt64} (hpos : 0 < k) (hlt : k < n) :
    Complementary n.toNat 0 k.toNat k.toNat (n - k).toNat := by
  rw [UInt64.lt_iff_toNat_lt] at hpos hlt
  have h0 : (0 : UInt64).toNat = 0 := rfl
  have hsub : (n - k).toNat = n.toNat - k.toNat :=
    UInt64.toNat_sub_of_le _ _ (UInt64.le_iff_toNat_le.mpr hlt.le)
  refine ⟨⟨?_, ?_⟩, ?_, ⟨?_, ?_⟩, ?_⟩
  all_goals omega

/-! ### Calls -/

variable {α ρ : Type} [RealScalar ρ] [Element α ρ]

theorem UnaryOp.leaves_of_blocks (plan : Schedule) {op : UnaryOp α ρ}
    (hop : op.operation.copies = false) {sel : Selection}
    (hsel : select op.operation (Element.precision α) = .ok sel) {x x' : Buffer α}
    {opts first second : UnaryOptions} {n m m' : UInt64} {w : Window}
    (hres : resolveUnary op.operation.rule x.len opts = some (.ok ⟨n, [w]⟩))
    (hx' : Replaced w n.toNat (op.image? n.toNat w x) x x') {i i' : ℕ}
    (hc : Complementary n.toNat i m.toNat i' m'.toNat)
    (hfirst : first.n = some m ∧ opts.x.Block n.toNat i m.toNat first.x)
    (hsecond : second.n = some m' ∧ opts.x.Block n.toNat i' m'.toNat second.x) :
    ∃ x₁, op.Leaves plan x first x₁ ∧ op.Leaves plan x₁ second x' := by
  obtain ⟨n₁, v₁⟩ := first
  obtain ⟨n₂, v₂⟩ := second
  obtain ⟨rfl, hv₁⟩ := hfirst
  obtain ⟨rfl, hv₂⟩ := hsecond
  obtain ⟨hw, hin⟩ := resolveUnary_ok hres
  obtain ⟨w₁, hw₁, hpart₁, hin₁⟩ := hv₁.exists_part hc.le.1 hc.pos.1 hw hin
  obtain ⟨w₂, hw₂, hpart₂, hin₂⟩ := hv₂.exists_part hc.le.2 hc.pos.2 hw hin
  obtain ⟨x₁, hleaves₁, h₁, hlen⟩ := exists_leaves plan hop hsel (resolveUnary_given hw₁ hin₁)
  have hres₂ : resolveUnary op.operation.rule x₁.len ⟨some m', v₂⟩ = some (.ok ⟨m', [w₂]⟩) := by
    rw [hlen]
    exact resolveUnary_given hw₂ hin₂
  obtain ⟨x₂, hleaves₂, h₂, -⟩ := exists_leaves plan hop hsel hres₂
  have hwhole : Replaced w n.toNat (op.image? n.toNat w x) x x₂ := by
    refine Replaced.of_parts hc hin.inc_ne hpart₁ hpart₂ h₁ h₂ (fun j hj => ?_) fun j hj => ?_
    · unfold image?
      rw [hpart₁.place_eq hj]
    · have hk : i' + j < n.toNat := by have := hc.le; omega
      have hout : i' + j < i ∨ i + m.toNat ≤ i' + j := by have := hc.disjoint; omega
      unfold image?
      rw [hpart₂.place_eq hj, h₁.get?_of_part hpart₁ hin.inc_ne hk hout]
  obtain rfl := hx'.unique hwhole
  exact ⟨x₁, hleaves₁, hleaves₂⟩

theorem BinaryOp.leaves_of_blocks (plan : Schedule) {op : BinaryOp α ρ}
    (hop : op.operation.copies = false) {sel : Selection}
    (hsel : select op.operation (Element.precision α) = .ok sel) {x y x' y' : Buffer α}
    {opts first second : BinaryOptions} {n m m' : UInt64} {wx wy : Window}
    (hres : resolveBinary op.operation.rule x.len y.len opts = some (.ok ⟨n, [wx, wy]⟩))
    (h : Transformed op.image n.toNat wx wy x y x' y') {i i' : ℕ}
    (hc : Complementary n.toNat i m.toNat i' m'.toNat)
    (hfirst : first.n = some m ∧ opts.x.Block n.toNat i m.toNat first.x ∧
      opts.y.Block n.toNat i m.toNat first.y)
    (hsecond : second.n = some m' ∧ opts.x.Block n.toNat i' m'.toNat second.x ∧
      opts.y.Block n.toNat i' m'.toNat second.y) :
    ∃ x₁ y₁, op.Leaves plan x y first x₁ y₁ ∧ op.Leaves plan x₁ y₁ second x' y' := by
  obtain ⟨n₁, vx₁, vy₁⟩ := first
  obtain ⟨n₂, vx₂, vy₂⟩ := second
  obtain ⟨rfl, hvx₁, hvy₁⟩ := hfirst
  obtain ⟨rfl, hvx₂, hvy₂⟩ := hsecond
  obtain ⟨⟨hwx, hinx⟩, hwy, hiny⟩ := resolveBinary_ok hres
  obtain ⟨wx₁, hwx₁, hpartx₁, hinx₁⟩ := hvx₁.exists_part hc.le.1 hc.pos.1 hwx hinx
  obtain ⟨wy₁, hwy₁, hparty₁, hiny₁⟩ := hvy₁.exists_part hc.le.1 hc.pos.1 hwy hiny
  obtain ⟨wx₂, hwx₂, hpartx₂, hinx₂⟩ := hvx₂.exists_part hc.le.2 hc.pos.2 hwx hinx
  obtain ⟨wy₂, hwy₂, hparty₂, hiny₂⟩ := hvy₂.exists_part hc.le.2 hc.pos.2 hwy hiny
  obtain ⟨x₁, y₁, hleaves₁, h₁, hxlen, hylen⟩ := exists_leaves plan hop hsel
    (resolveBinary_given hwx₁ hinx₁ hwy₁ hiny₁)
  have hres₂ : resolveBinary op.operation.rule x₁.len y₁.len ⟨some m', vx₂, vy₂⟩ =
      some (.ok ⟨m', [wx₂, wy₂]⟩) := by
    rw [hxlen, hylen]
    exact resolveBinary_given hwx₂ hinx₂ hwy₂ hiny₂
  obtain ⟨x₂, y₂, hleaves₂, h₂, -, -⟩ := exists_leaves plan hop hsel hres₂
  obtain ⟨rfl, rfl⟩ := h.unique (Transformed.of_parts hc hinx.inc_ne hiny.inc_ne hpartx₁ hparty₁
    hpartx₂ hparty₂ h₁ h₂)
  exact ⟨x₁, y₁, hleaves₁, hleaves₂⟩

/-- **Blocks.** A successful call of an operation in place on `n` elements leaves what two calls
leave one after the other, the one on the first `k` elements and the other on the rest. Both
succeed, and either may be made first. Each vector has its blocks by the sign of its own increment;
as long as the numbers of all cells are signed words, the blocks have offsets. -/
theorem blocked_processing (plan : Schedule) :
    (∀ (op : UnaryOp α ρ) (x x' : Buffer α) (opts : UnaryOptions),
      op.operation.row.mutation = .inPlace → op.Leaves plan x opts x' →
      ∃ n w, resolveUnary op.operation.rule x.len opts = some (.ok ⟨n, [w]⟩) ∧
        ∀ k, 0 < k → k < n →
          (x.cells.size ≤ 2 ^ 63 → ∃ first second, opts.Split n k first second) ∧
          ∀ first second, opts.Split n k first second →
            (∃ x₁, op.Leaves plan x first x₁ ∧ op.Leaves plan x₁ second x') ∧
            ∃ x₂, op.Leaves plan x second x₂ ∧ op.Leaves plan x₂ first x') ∧
    ∀ (op : BinaryOp α ρ) (x y x' y' : Buffer α) (opts : BinaryOptions),
      op.operation.row.mutation = .inPlace → op.Leaves plan x y opts x' y' →
      ∃ n wx wy, resolveBinary op.operation.rule x.len y.len opts = some (.ok ⟨n, [wx, wy]⟩) ∧
        ∀ k, 0 < k → k < n →
          (x.cells.size ≤ 2 ^ 63 → y.cells.size ≤ 2 ^ 63 →
            ∃ first second, opts.Split n k first second) ∧
          ∀ first second, opts.Split n k first second →
            (∃ x₁ y₁, op.Leaves plan x y first x₁ y₁ ∧ op.Leaves plan x₁ y₁ second x' y') ∧
            ∃ x₂ y₂, op.Leaves plan x y second x₂ y₂ ∧ op.Leaves plan x₂ y₂ first x' y' := by
  constructor
  · intro op x x' opts hmut hleaves
    have hop := Operation.not_copies_of_inPlace hmut
    obtain ⟨sel, n, w, hsel, hres, hx'⟩ := (UnaryOp.leaves_iff hop).mp hleaves
    refine ⟨n, w, hres, fun k hpos hlt => ?_⟩
    have hc := complementary_of_lt hpos hlt
    obtain ⟨hw, hin⟩ := resolveUnary_ok hres
    refine ⟨fun hsize => ?_, fun first second hsplit => ⟨?_, ?_⟩⟩
    · rw [← x.toNat_len] at hsize
      obtain ⟨v₁, hv₁⟩ := VectorOptions.exists_block hc.le.1 hc.pos.1 hw hin hsize
      obtain ⟨v₂, hv₂⟩ := VectorOptions.exists_block hc.le.2 hc.pos.2 hw hin hsize
      exact ⟨⟨some k, v₁⟩, ⟨some (n - k), v₂⟩, rfl, hv₁, rfl, hv₂⟩
    · exact UnaryOp.leaves_of_blocks plan hop hsel hres hx' hc ⟨hsplit.first_n, hsplit.first_x⟩
        ⟨hsplit.second_n, hsplit.second_x⟩
    · exact UnaryOp.leaves_of_blocks plan hop hsel hres hx' hc.symm
        ⟨hsplit.second_n, hsplit.second_x⟩ ⟨hsplit.first_n, hsplit.first_x⟩
  · intro op x y x' y' opts hmut hleaves
    have hop := Operation.not_copies_of_inPlace hmut
    obtain ⟨sel, n, wx, wy, hsel, hres, h⟩ := (BinaryOp.leaves_iff hop).mp hleaves
    refine ⟨n, wx, wy, hres, fun k hpos hlt => ?_⟩
    have hc := complementary_of_lt hpos hlt
    obtain ⟨⟨hwx, hinx⟩, hwy, hiny⟩ := resolveBinary_ok hres
    refine ⟨fun hxsize hysize => ?_, fun first second hsplit => ⟨?_, ?_⟩⟩
    · rw [← x.toNat_len] at hxsize
      rw [← y.toNat_len] at hysize
      obtain ⟨vx₁, hvx₁⟩ := VectorOptions.exists_block hc.le.1 hc.pos.1 hwx hinx hxsize
      obtain ⟨vy₁, hvy₁⟩ := VectorOptions.exists_block hc.le.1 hc.pos.1 hwy hiny hysize
      obtain ⟨vx₂, hvx₂⟩ := VectorOptions.exists_block hc.le.2 hc.pos.2 hwx hinx hxsize
      obtain ⟨vy₂, hvy₂⟩ := VectorOptions.exists_block hc.le.2 hc.pos.2 hwy hiny hysize
      exact ⟨⟨some k, vx₁, vy₁⟩, ⟨some (n - k), vx₂, vy₂⟩, rfl, hvx₁, hvy₁, rfl, hvx₂, hvy₂⟩
    · exact BinaryOp.leaves_of_blocks plan hop hsel hres h hc
        ⟨hsplit.first_n, hsplit.first_x, hsplit.first_y⟩
        ⟨hsplit.second_n, hsplit.second_x, hsplit.second_y⟩
    · exact BinaryOp.leaves_of_blocks plan hop hsel hres h hc.symm
        ⟨hsplit.second_n, hsplit.second_x, hsplit.second_y⟩
        ⟨hsplit.first_n, hsplit.first_x, hsplit.first_y⟩

/-- Three elements, those of `x` read backwards from its last cell, two cells apart. The first of
them lies at cell `5` and stands beside the first one of `y`. -/
theorem blocked_processing_swap_backwards :
    ∃ (x y x' y' : Buffer Float) (opts first second : BinaryOptions),
      x.cells = #[1, 2, 3, 4, 5, 6] ∧ y.cells = #[7, 8, 9] ∧ x'.cells = #[1, 9, 3, 8, 5, 7] ∧
      y'.cells = #[6, 4, 2] ∧ opts = ⟨none, ⟨some 1, some (-2)⟩, {}⟩ ∧
      first = ⟨some 1, ⟨some 5, some (-2)⟩, {}⟩ ∧
      second = ⟨some 2, ⟨some 1, some (-2)⟩, ⟨some 1, none⟩⟩ ∧
      BinaryOp.swap.Leaves .sequential x y opts x' y' ∧
      (∃ x₁ y₁, BinaryOp.swap.Leaves .sequential x y first x₁ y₁ ∧
        BinaryOp.swap.Leaves .sequential x₁ y₁ second x' y') ∧
      ∃ x₂ y₂, BinaryOp.swap.Leaves .sequential x y second x₂ y₂ ∧
        BinaryOp.swap.Leaves .sequential x₂ y₂ first x' y' := by
  let x : Buffer Float := ⟨#[1, 2, 3, 4, 5, 6], by decide⟩
  let y : Buffer Float := ⟨#[7, 8, 9], by decide⟩
  let x' : Buffer Float := ⟨#[1, 9, 3, 8, 5, 7], by decide⟩
  let y' : Buffer Float := ⟨#[6, 4, 2], by decide⟩
  let opts : BinaryOptions := ⟨none, ⟨some 1, some (-2)⟩, {}⟩
  have hres : resolveBinary Operation.swap.rule x.len y.len opts =
      some (.ok ⟨3, [⟨1, -2⟩, ⟨0, 1⟩]⟩) := by
    decide
  have hleaves : BinaryOp.swap.Leaves .sequential x y opts x' y' :=
    ⟨_, _, BinaryOp.run_of_resolved .sequential rfl hres, rfl, rfl⟩
  obtain ⟨n, wx, wy, hres', hblocks⟩ := (blocked_processing (α := Float) .sequential).2 .swap x y x'
    y' opts rfl hleaves
  cases hres.symm.trans hres'
  have hsplit : opts.Split 3 1 ⟨some 1, ⟨some 5, some (-2)⟩, {}⟩
      ⟨some 2, ⟨some 1, some (-2)⟩, ⟨some 1, none⟩⟩ :=
    ⟨rfl, ⟨rfl, by decide⟩, ⟨rfl, by decide⟩, rfl, ⟨rfl, by decide⟩, ⟨rfl, by decide⟩⟩
  obtain ⟨hfirst, hsecond⟩ := (hblocks 1 (by decide) (by decide)).2 _ _ hsplit
  exact ⟨x, y, x', y', opts, _, _, rfl, rfl, rfl, rfl, rfl, rfl, rfl, hleaves, hfirst, hsecond⟩

end Strided
