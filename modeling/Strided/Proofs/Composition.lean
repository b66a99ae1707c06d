import Mathlib.Algebra.BigOperators.Group.Finset.Basic
import Mathlib.Tactic.LinearCombination
import Mathlib.Tactic.NormNum
import Mathlib.Tactic.Ring
import Strided.Proofs.Exact
import Strided.Proofs.Succession

/-! # Rotations one after the other

A rotation takes every pair of elements to another pair, by the same linear map of their parts. In
exact arithmetic two of these maps compose to a third, whose coefficients are those of the sum of two
angles. It is not asked that the coefficients are a cosine and a sine. If they are, the rotation by
the opposite angle takes all pairs back, and no rotation changes the sum of the squares.

* `turn_turn`, `turn_sq`: the map of two numbers.
* `Element.OfParts`: real and complex elements.
* `rotate_rotate`, `rotate_back`, `normSq_rotate`: the map of two elements.
* `Transformed.windowSquares_eq`: the sum over the windows.
* `rotations_compose`: the calls. -/

namespace Strided

/-! ### Turning two numbers -/

section Turn
variable {R : Type} [CommRing R]

/-- The rotation of two numbers. -/
def turn (c s a b : R) : R × R := (a * c + b * s, b * c - a * s)

/-- **The coefficients of two rotations** combine like the cosine and the sine of a sum. -/
theorem turn_turn (c₁ s₁ c₂ s₂ a b : R) :
    turn c₂ s₂ (turn c₁ s₁ a b).1 (turn c₁ s₁ a b).2 =
      turn (c₁ * c₂ - s₁ * s₂) (c₁ * s₂ + s₁ * c₂) a b := by
  refine Prod.ext ?_ ?_
  · change (a * c₁ + b * s₁) * c₂ + (b * c₁ - a * s₁) * s₂ =
      a * (c₁ * c₂ - s₁ * s₂) + b * (c₁ * s₂ + s₁ * c₂)
    ring
  · change (b * c₁ - a * s₁) * c₂ - (a * c₁ + b * s₁) * s₂ =
      b * (c₁ * c₂ - s₁ * s₂) - a * (c₁ * s₂ + s₁ * c₂)
    ring

theorem turn_back {c s : R} (h : c ^ 2 + s ^ 2 = 1) (a b : R) :
    turn c (-s) (turn c s a b).1 (turn c s a b).2 = (a, b) := by
  have hcos : c * c - s * -s = 1 := by linear_combination h
  have hsin : c * -s + s * c = 0 := by ring
  rw [turn_turn, hcos, hsin, turn]
  simp

theorem turn_sq {c s : R} (h : c ^ 2 + s ^ 2 = 1) (a b : R) :
    (turn c s a b).1 ^ 2 + (turn c s a b).2 ^ 2 = a ^ 2 + b ^ 2 := by
  change (a * c + b * s) ^ 2 + (b * c - a * s) ^ 2 = a ^ 2 + b ^ 2
  linear_combination (a ^ 2 + b ^ 2) * h

end Turn

/-! ### Turning two elements -/

/-- Real and complex elements, of either width. -/
inductive Element.OfParts {K : Type} [RealScalar K] : {α : Type} → Element α K → Prop
  | real (w : Width) : OfParts (Element.real w)
  | complex (w : Width) : OfParts (Element.complex w)

variable {K α : Type} [ExactRing K]

/-- Two complex numbers, from their two real parts and their two imaginary parts. -/
def complexPair (re im : K × K) : Complex K × Complex K := (⟨re.1, im.1⟩, ⟨re.2, im.2⟩)

/-- The square of the distance from zero. -/
def normSq [Element α K] (a : α) : K := Scalar.re a ^ 2 + Scalar.im a ^ 2

section Elements
variable {E : Element α K} (hE : E.OfParts)
include hE

theorem rotate_rotate (c₁ s₁ c₂ s₂ : K) (a b : α) :
    (BinaryOp.rotInPlace c₂ s₂).image ((BinaryOp.rotInPlace c₁ s₁).image a b).1
        ((BinaryOp.rotInPlace c₁ s₁).image a b).2 =
      (BinaryOp.rotInPlace (c₁ * c₂ - s₁ * s₂) (c₁ * s₂ + s₁ * c₂)).image a b := by
  cases hE with
  | real w => exact turn_turn c₁ s₁ c₂ s₂ a b
  | complex w =>
    have hre := turn_turn c₁ s₁ c₂ s₂ a.re b.re
    have him := turn_turn c₁ s₁ c₂ s₂ a.im b.im
    exact congrArg₂ complexPair hre him

theorem rotate_back {c s : K} (h : c ^ 2 + s ^ 2 = 1) (a b : α) :
    (BinaryOp.rotInPlace c (-s)).image ((BinaryOp.rotInPlace c s).image a b).1
      ((BinaryOp.rotInPlace c s).image a b).2 = (a, b) := by
  cases hE with
  | real w => exact turn_back h a b
  | complex w =>
    have hre := turn_back h a.re b.re
    have him := turn_back h a.im b.im
    exact congrArg₂ complexPair hre him

theorem normSq_rotate {c s : K} (h : c ^ 2 + s ^ 2 = 1) (a b : α) :
    normSq ((BinaryOp.rotInPlace c s).image a b).1 +
      normSq ((BinaryOp.rotInPlace c s).image a b).2 = normSq a + normSq b := by
  cases hE with
  | real w =>
    change ((turn c s a b).1 ^ 2 + 0 ^ 2) + ((turn c s a b).2 ^ 2 + 0 ^ 2) =
      (a ^ 2 + 0 ^ 2) + (b ^ 2 + 0 ^ 2)
    linear_combination turn_sq h a b
  | complex w =>
    change ((turn c s a.re b.re).1 ^ 2 + (turn c s a.im b.im).1 ^ 2) +
        ((turn c s a.re b.re).2 ^ 2 + (turn c s a.im b.im).2 ^ 2) =
      (a.re ^ 2 + a.im ^ 2) + (b.re ^ 2 + b.im ^ 2)
    linear_combination turn_sq h a.re b.re + turn_sq h a.im b.im

end Elements

/-! ### The sum over the windows -/

/-- The sum of the squares of the elements of a window. -/
def windowSquares [Element α K] (n : ℕ) (w : Window) (b : Buffer α) : K :=
  ∑ i ∈ Finset.range n, (b.get? (w.place n i)).elim 0 normSq

theorem Transformed.windowSquares_eq [Element α K] {f : α → α → α × α} {n : ℕ} {wx wy : Window}
    {x y x' y' : Buffer α} (hx : wx.Inside n x.cells.size) (hy : wy.Inside n y.cells.size)
    (h : Transformed f n wx wy x y x' y')
    (hf : ∀ a b, normSq (f a b).1 + normSq (f a b).2 = normSq a + normSq b) :
    windowSquares n wx x' + windowSquares n wy y' = windowSquares n wx x + windowSquares n wy y := by
  unfold windowSquares
  rw [← Finset.sum_add_distrib, ← Finset.sum_add_distrib]
  refine Finset.sum_congr rfl fun i hi => ?_
  have hlt := Finset.mem_range.mp hi
  obtain ⟨a, c, ha, hc, ha', hc'⟩ := h.exists_images hx hy hlt
  rw [ha, hc, ha', hc']
  exact hf a c

/-! ### Calls -/

/-- **Rotations compose.** A rotation that succeeds turns the elements that stand side by side. A
second one under the same options then succeeds, and both together leave what the one rotation with
the combined coefficients leaves. If the squares of the coefficients add up to one, the rotation with
the opposite sine gives back both buffers, and the sum of the squares of all elements in the windows
is the same as before. -/
theorem rotations_compose {E : Element α K} (hE : E.OfParts) (plan : Schedule)
    {x y x₁ y₁ : Buffer α} {opts : BinaryOptions} {c₁ s₁ : K}
    (h : (BinaryOp.rotInPlace c₁ s₁).Leaves plan x y opts x₁ y₁) :
    ∃ n wx wy, resolveBinary Operation.rotInPlace.rule x.len y.len opts =
        some (.ok ⟨n, [wx, wy]⟩) ∧
      (∀ i < n.toNat, ∃ a b, x.get? (wx.place n.toNat i) = some a ∧
        y.get? (wy.place n.toNat i) = some b ∧
        x₁.get? (wx.place n.toNat i) = some (Scalar.mulReal a c₁ + Scalar.mulReal b s₁) ∧
        y₁.get? (wy.place n.toNat i) = some (Scalar.mulReal b c₁ - Scalar.mulReal a s₁)) ∧
      (∀ c₂ s₂ : K, ∃ x₂ y₂, (BinaryOp.rotInPlace c₂ s₂).Leaves plan x₁ y₁ opts x₂ y₂ ∧
        (BinaryOp.rotInPlace (c₁ * c₂ - s₁ * s₂) (c₁ * s₂ + s₁ * c₂)).Leaves plan x y opts
          x₂ y₂) ∧
      (c₁ ^ 2 + s₁ ^ 2 = 1 → (BinaryOp.rotInPlace c₁ (-s₁)).Leaves plan x₁ y₁ opts x y ∧
        windowSquares n.toNat wx x₁ + windowSquares n.toNat wy y₁ =
          windowSquares n.toNat wx x + windowSquares n.toNat wy y) := by
  obtain ⟨sel, n, wx, wy, hsel, hres, h₁⟩ := (BinaryOp.leaves_iff rfl).mp h
  obtain ⟨hx, hy⟩ := inside_of_resolveBinary hres
  have hres₁ := (h₁.resolveBinary_eq hx hy _ opts).trans hres
  refine ⟨n, wx, wy, hres, fun i hi => h₁.exists_images hx hy hi, fun c₂ s₂ => ?_, fun hone => ?_⟩
  · have hop : (BinaryOp.rotInPlace c₂ s₂ : BinaryOp α K).operation.copies = false := rfl
    obtain ⟨x₂, y₂, hleaves, h₂, -⟩ := BinaryOp.exists_leaves plan hop hsel hres₁
    refine ⟨x₂, y₂, hleaves, (BinaryOp.leaves_iff rfl).mpr ⟨sel, n, wx, wy, hsel, hres, ?_⟩⟩
    have hcomp := h₁.comp hx hy h₂
    have hmap := funext₂ (rotate_rotate hE c₁ s₁ c₂ s₂)
    rw [hmap] at hcomp
    exact hcomp
  · have hback := h₁.undo hx hy (rotate_back hE hone)
    refine ⟨(BinaryOp.leaves_iff rfl).mpr ⟨sel, n, wx, wy, hsel, hres₁, hback⟩, ?_⟩
    exact h₁.windowSquares_eq hx hy (normSq_rotate hE hone)

/-- Two complex elements, those of `x` read backwards and those of `y` two cells apart, under the
rotation with the sides of a triangle `3, 4, 5`, once and twice and back. -/
theorem rotations_compose_three_four :
    let _ : ExactRing ℚ := .rational
    let _ : Element (Complex ℚ) ℚ := .complex .w64
    ∃ (x y x₁ y₁ x₂ y₂ : Buffer (Complex ℚ)) (opts : BinaryOptions),
      x.cells = #[⟨5, 0⟩, ⟨5, 10⟩] ∧ y.cells = #[⟨0, 5⟩, ⟨9, 9⟩, ⟨10, 0⟩] ∧
      x₁.cells = #[⟨11, 0⟩, ⟨3, 10⟩] ∧ y₁.cells = #[⟨-4, -5⟩, ⟨9, 9⟩, ⟨2, 0⟩] ∧
      opts = ⟨none, ⟨none, some (-1)⟩, ⟨none, some 2⟩⟩ ∧
      (BinaryOp.rotInPlace (3 / 5) (4 / 5)).Leaves .sequential x y opts x₁ y₁ ∧
      (BinaryOp.rotInPlace (3 / 5) (4 / 5)).Leaves .sequential x₁ y₁ opts x₂ y₂ ∧
      (BinaryOp.rotInPlace (-7 / 25) (24 / 25)).Leaves .sequential x y opts x₂ y₂ ∧
      (BinaryOp.rotInPlace (3 / 5) (-(4 / 5))).Leaves .sequential x₁ y₁ opts x y ∧
      windowSquares 2 ⟨0, -1⟩ x₁ + windowSquares 2 ⟨0, 2⟩ y₁ =
        windowSquares 2 ⟨0, -1⟩ x + windowSquares 2 ⟨0, 2⟩ y := by
  let _ : ExactRing ℚ := .rational
  let _ : Element (Complex ℚ) ℚ := .complex .w64
  let x : Buffer (Complex ℚ) := ⟨#[⟨5, 0⟩, ⟨5, 10⟩], by decide⟩
  let y : Buffer (Complex ℚ) := ⟨#[⟨0, 5⟩, ⟨9, 9⟩, ⟨10, 0⟩], by decide⟩
  let x₁ : Buffer (Complex ℚ) := ⟨#[⟨11, 0⟩, ⟨3, 10⟩], by decide⟩
  let y₁ : Buffer (Complex ℚ) := ⟨#[⟨-4, -5⟩, ⟨9, 9⟩, ⟨2, 0⟩], by decide⟩
  let opts : BinaryOptions := ⟨none, ⟨none, some (-1)⟩, ⟨none, some 2⟩⟩
  have hres : resolveBinary Operation.rotInPlace.rule x.len y.len opts =
      some (.ok ⟨2, [⟨0, -1⟩, ⟨0, 2⟩]⟩) := by
    decide
  have hleaves : (BinaryOp.rotInPlace (3 / 5 : ℚ) (4 / 5)).Leaves .sequential x y opts x₁ y₁ := by
    refine ⟨_, _, BinaryOp.run_of_resolved .sequential rfl hres, rfl, Prod.ext ?_ ?_⟩
    · exact Buffer.ext (by decide +kernel)
    · exact Buffer.ext (by decide +kernel)
  obtain ⟨n, wx, wy, hres', -, hcomp, hunit⟩ :=
    rotations_compose (.complex .w64) .sequential hleaves
  cases hres.symm.trans hres'
  obtain ⟨x₂, y₂, hsecond, hboth⟩ := hcomp (3 / 5) (4 / 5)
  obtain ⟨hback, hsquares⟩ := hunit (by norm_num)
  have hcos : (3 / 5 * (3 / 5) - 4 / 5 * (4 / 5) : ℚ) = -7 / 25 := by norm_num
  have hsin : (3 / 5 * (4 / 5) + 4 / 5 * (3 / 5) : ℚ) = 24 / 25 := by norm_num
  have hboth' : (BinaryOp.rotInPlace (-7 / 25 : ℚ) (24 / 25)).Leaves .sequential x y opts x₂ y₂ := by
    rw [← hcos, ← hsin]
    exact hboth
  exact ⟨x, y, x₁, y₁, x₂, y₂, opts, rfl, rfl, rfl, rfl, rfl, hleaves, hsecond, hboth', hback,
    hsquares⟩

end Strided
