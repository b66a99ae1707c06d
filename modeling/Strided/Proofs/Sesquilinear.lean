import Mathlib.Algebra.Ring.MinimalAxioms
import Strided.Proofs.Composition
import Strided.Proofs.Parallel
import Strided.Proofs.Safety

/-! # Dot products of combined vectors

In exact arithmetic a dot product is linear in its second vector, and in its first one up to the
conjugation that it applies there; exchanged, its vectors give the conjugate. Adding a multiple of a
vector and scaling a vector are calls of their own, and these laws hold of the buffers that they
leave. A multiple by zero, for which nothing is added at all, is no exception.

* `Conjugation`: a map of a commutative ring that is its own inverse and keeps sums and products.
* `Sesquilinear`: the laws of the sum in order; `Conjugation.sesquilinear`: every ring has them.
* `Complex.commRing`, `Element.OfParts.sesquilinear`: real and complex elements have them.
* `Chosen`: the window of one vector of a call.
* `UnaryOp.gather_of_leaves`, `BinaryOp.gather_of_leaves`: the elements that a call leaves there.
* `BinaryOp.DotProduct.yields`: the dot product of the elements of two windows.
* `dot_of_combined_vectors`: the calls. -/

namespace Strided

open Kernel (dotInOrder)

/-! ### Sums in order over a ring -/

namespace Kernel

variable {R : Type} [CommRing R] (f : R → R)

/-- What stands before the sum may be added at last. -/
theorem foldl_eq_add (ps : List (R × R)) (c : R) :
    ps.foldl (fun sum p => sum + f p.1 * p.2) c =
      c + ps.foldl (fun sum p => sum + f p.1 * p.2) 0 := by
  induction ps generalizing c with
  | nil => simp
  | cons p ps ih =>
    rw [List.foldl_cons, List.foldl_cons, ih (c + _), ih (0 + _)]
    ring

@[simp] theorem dotInOrder_nil_left (ys : List R) : dotInOrder f [] ys = 0 := rfl

@[simp] theorem dotInOrder_nil_right (xs : List R) : dotInOrder f xs [] = 0 := by
  simp [dotInOrder]

@[simp] theorem dotInOrder_cons (x y : R) (xs ys : List R) :
    dotInOrder f (x :: xs) (y :: ys) = f x * y + dotInOrder f xs ys := by
  unfold dotInOrder
  rw [List.zip_cons_cons, List.foldl_cons, foldl_eq_add, zero_add]

end Kernel

/-- What dot products satisfy, with `f` for what is done to the elements of the first vector. -/
structure Sesquilinear {R : Type} [Zero R] [Add R] [Mul R] (f : R → R) : Prop where
  exactSums : ∀ terms : List R, ExactSums terms
  add_zero_mul : ∀ a b : R, b + 0 * a = b
  axpy_left : ∀ (alpha : R) {xs ys : List R} (zs : List R), xs.length = ys.length →
    dotInOrder f (List.zipWith (fun a b => b + alpha * a) xs ys) zs =
      f alpha * dotInOrder f xs zs + dotInOrder f ys zs
  axpy_right : ∀ (alpha : R) {xs ys : List R} (zs : List R), xs.length = ys.length →
    dotInOrder f zs (List.zipWith (fun a b => b + alpha * a) xs ys) =
      alpha * dotInOrder f zs xs + dotInOrder f zs ys
  scal_left : ∀ (alpha : R) (xs zs : List R),
    dotInOrder f (xs.map (alpha * ·)) zs = f alpha * dotInOrder f xs zs
  swap : ∀ xs zs : List R, dotInOrder f zs xs = f (dotInOrder f xs zs)

/-- A map of a commutative ring that keeps sums and products and is its own inverse. -/
structure Conjugation {R : Type} [CommRing R] (f : R → R) : Prop where
  map_add : ∀ a b, f (a + b) = f a + f b
  map_mul : ∀ a b, f (a * b) = f a * f b
  apply_apply : ∀ a, f (f a) = a

namespace Conjugation

variable {R : Type} [CommRing R] {f : R → R}

theorem map_zero (h : Conjugation f) : f 0 = 0 := by
  have hadd := h.map_add 0 0
  rw [add_zero] at hadd
  exact left_eq_add.mp hadd

variable (h : Conjugation f)
include h

theorem axpy_left (alpha : R) : ∀ {xs ys : List R} (zs : List R), xs.length = ys.length →
    dotInOrder f (List.zipWith (fun a b => b + alpha * a) xs ys) zs =
      f alpha * dotInOrder f xs zs + dotInOrder f ys zs
  | [], [], _, _ => by simp
  | _ :: _, _ :: _, [], _ => by simp
  | x :: xs, y :: ys, z :: zs, hl => by
    have ih := axpy_left alpha zs (Nat.succ.inj hl)
    simp only [List.zipWith_cons_cons, Kernel.dotInOrder_cons, ih, h.map_add, h.map_mul]
    ring

theorem scal_left (alpha : R) : ∀ xs zs : List R,
    dotInOrder f (xs.map (alpha * ·)) zs = f alpha * dotInOrder f xs zs
  | [], _ => by simp
  | _ :: _, [] => by simp
  | x :: xs, z :: zs => by
    simp only [List.map_cons, Kernel.dotInOrder_cons, scal_left alpha xs zs, h.map_mul]
    ring

theorem swap : ∀ xs zs : List R, dotInOrder f zs xs = f (dotInOrder f xs zs)
  | [], _ => by simp [h.map_zero]
  | _ :: _, [] => by simp [h.map_zero]
  | x :: xs, z :: zs => by
    simp only [Kernel.dotInOrder_cons, swap xs zs, h.map_add, h.map_mul, h.apply_apply]
    ring

/-- **Dot products over a ring.** The law for the second vector is that for the first one,
exchanged. -/
theorem sesquilinear : Sesquilinear f where
  exactSums terms := ExactSums.of_closed (P := fun _ => True) trivial (fun _ _ _ _ => trivial)
    (fun a b c _ _ _ => add_assoc a b c) (fun a _ => zero_add a) (fun a _ => add_zero a)
    fun _ _ => trivial
  add_zero_mul a b := by ring
  axpy_left alpha {_ _} zs hl := h.axpy_left alpha zs hl
  axpy_right alpha {xs ys} zs hl := by
    rw [h.swap _ zs, h.axpy_left alpha zs hl, h.map_add, h.map_mul, h.apply_apply, ← h.swap,
      ← h.swap]
  scal_left := h.scal_left
  swap := h.swap

end Conjugation

/-! ### Real and complex elements -/

section Pairs
variable {R : Type} [CommRing R] (a a' b b' c c' : R)

/-- The two parts of the product of three complex numbers. -/
theorem parts_mul_assoc :
    (a * b - a' * b') * c - (a * b' + a' * b) * c' =
        a * (b * c - b' * c') - a' * (b * c' + b' * c) ∧
      (a * b - a' * b') * c' + (a * b' + a' * b) * c =
        a * (b * c' + b' * c) + a' * (b * c - b' * c') :=
  ⟨by ring, by ring⟩

theorem parts_mul_comm :
    a * b - a' * b' = b * a - b' * a' ∧ a * b' + a' * b = b * a' + b' * a :=
  ⟨by ring, by ring⟩

theorem parts_one_mul : 1 * a - 0 * a' = a ∧ 1 * a' + 0 * a = a' :=
  ⟨by ring, by ring⟩

theorem parts_mul_add :
    a * (b + c) - a' * (b' + c') = a * b - a' * b' + (a * c - a' * c') ∧
      a * (b' + c') + a' * (b + c) = a * b' + a' * b + (a * c' + a' * c) :=
  ⟨by ring, by ring⟩

/-- The conjugate of a product. -/
theorem parts_conj_mul :
    a * b - a' * b' = a * b - -a' * -b' ∧ -(a * b' + a' * b) = a * -b' + -a' * b :=
  ⟨by ring, by ring⟩

end Pairs

variable {K α : Type} [ExactRing K]

/-- **Complex numbers over a commutative ring are one**, with the operations of the elements. -/
@[reducible] def Complex.commRing : CommRing (Complex K) :=
  .ofMinimalAxioms
    (fun a b c => congrArg₂ mk (add_assoc a.re b.re c.re) (add_assoc a.im b.im c.im))
    (fun a => congrArg₂ mk (zero_add a.re) (zero_add a.im))
    (fun a => congrArg₂ mk (neg_add_cancel a.re) (neg_add_cancel a.im))
    (fun a b c =>
      have h := parts_mul_assoc a.re a.im b.re b.im c.re c.im
      congrArg₂ mk h.1 h.2)
    (fun a b =>
      have h := parts_mul_comm a.re a.im b.re b.im
      congrArg₂ mk h.1 h.2)
    (fun a =>
      have h := parts_one_mul a.re a.im
      congrArg₂ mk h.1 h.2)
    (fun a b c =>
      have h := parts_mul_add a.re a.im b.re b.im c.re c.im
      congrArg₂ mk h.1 h.2)

theorem conjugation_id {R : Type} [CommRing R] : Conjugation (id : R → R) :=
  ⟨fun _ _ => rfl, fun _ _ => rfl, fun _ => rfl⟩

theorem Complex.conjugation :
    @Conjugation (Complex K) commRing (Scalar.conj (ρ := K)) := by
  refine @Conjugation.mk (Complex K) commRing _ (fun a b => ?_) (fun a b => ?_) fun a => ?_
  · exact congrArg₂ mk rfl (neg_add a.im b.im)
  · have h := parts_conj_mul a.re a.im b.re b.im
    exact congrArg₂ mk h.1 h.2
  · exact congrArg₂ mk rfl (neg_neg a.im)

/-- **Dot products of real and complex elements.** -/
theorem Element.OfParts.sesquilinear {E : Element α K} (hE : E.OfParts) {op : BinaryOp α K}
    {f : α → α} (hop : op.DotProduct f) : Sesquilinear f := by
  cases hE with
  | real w =>
    have hf : f = id := by cases hop <;> rfl
    subst hf
    exact (conjugation_id (R := K)).sesquilinear
  | complex w =>
    let _ : CommRing (Complex K) := Complex.commRing
    cases hop with
    | dot => exact (conjugation_id (R := Complex K)).sesquilinear
    | dotu => exact (conjugation_id (R := Complex K)).sesquilinear
    | dotc => exact Complex.conjugation.sesquilinear

section Axpy
variable {E : Element α K} (hE : E.OfParts) (hbeq : ∀ c : K, c == 0 → c = 0)
include hE hbeq

theorem Element.OfParts.eq_zero_of_beq {a : α} (h : a == 0) : a = 0 := by
  cases hE with
  | real w => exact hbeq a h
  | complex w =>
    obtain ⟨hre, him⟩ := Bool.and_eq_true_iff.mp h
    exact congrArg₂ Complex.mk (hbeq _ hre) (hbeq _ him)

/-- Where nothing is added, the multiple is zero. -/
theorem image_axpy {op : BinaryOp α K} {f : α → α} (hop : op.DotProduct f) (factor : Option α)
    (a b : α) : ((BinaryOp.axpy factor : BinaryOp α K).image a b).2 = b + factor.getD 1 * a := by
  change (if factor.getD 1 == 0 then b else b + factor.getD 1 * a) = b + factor.getD 1 * a
  split_ifs with h0
  · rw [hE.eq_zero_of_beq hbeq h0]
    exact ((hE.sesquilinear hop).add_zero_mul a b).symm
  · rfl

end Axpy

/-! ### The windows of a call -/

/-- A vector argument with options `v` in a call with `n` elements shows them through `w`. -/
structure Chosen (n : UInt64) (b : Buffer α) (v : VectorOptions) (w : Window) : Prop where
  offset : (w.offset.toNat : ℤ) = (v.offset.getD 0).toInt
  inc : w.inc.toInt = (v.inc.getD 1).toInt
  inside : w.Inside n.toNat b.cells.size

namespace Chosen

variable {n : UInt64} {b b' : Buffer α} {v : VectorOptions} {w w' : Window}

theorem of_asks {name : String} (ha : Operand.Asks ⟨name, b.len, v⟩ w)
    (hin : w.Inside n.toNat b.len.toNat) : Chosen n b v w :=
  ⟨ha.offset, ha.inc, by rw [← b.toNat_len]; exact hin⟩

theorem asks (h : Chosen n b v w) (name : String) : Operand.Asks ⟨name, b.len, v⟩ w :=
  ⟨h.offset, h.inc⟩

theorem of_size (h : Chosen n b v w) (hsize : b'.cells.size = b.cells.size) : Chosen n b' v w :=
  ⟨h.offset, h.inc, by rw [hsize]; exact h.inside⟩

theorem unique (h : Chosen n b v w) (h' : Chosen n b v w') : w = w' :=
  (h.asks "x").unique (h'.asks "x")

/-- **A call with a given length resolves** to the windows of its vectors. -/
theorem resolveBinary_eq {x y : Buffer α} {vx vy : VectorOptions} {wx wy : Window}
    (hx : Chosen n x vx wx) (hy : Chosen n y vy wy) (rule : LengthRule) :
    resolveBinary rule x.len y.len ⟨some n, vx, vy⟩ = some (.ok ⟨n, [wx, wy]⟩) :=
  resolveBinary_given (hx.asks "x") (by rw [x.toNat_len]; exact hx.inside) (hy.asks "y")
    (by rw [y.toNat_len]; exact hy.inside)

end Chosen

theorem chosen_of_resolveBinary {rule : LengthRule} {n : UInt64} {x y : Buffer α}
    {vx vy : VectorOptions} {r : Resolved}
    (h : resolveBinary rule x.len y.len ⟨some n, vx, vy⟩ = some (.ok r)) :
    ∃ wx wy, r = ⟨n, [wx, wy]⟩ ∧ Chosen n x vx wx ∧ Chosen n y vy wy := by
  obtain ⟨wx, wy, rfl, -, -⟩ := asks_of_resolveBinary h
  obtain ⟨⟨hwx, hx⟩, hwy, hy⟩ := resolveBinary_ok h
  exact ⟨wx, wy, rfl, .of_asks hwx hx, .of_asks hwy hy⟩

theorem chosen_of_resolveUnary {rule : LengthRule} {n : UInt64} {x : Buffer α} {v : VectorOptions}
    {r : Resolved} (h : resolveUnary rule x.len ⟨some n, v⟩ = some (.ok r)) :
    ∃ w, r = ⟨n, [w]⟩ ∧ Chosen n x v w := by
  obtain ⟨w, rfl, -⟩ := asks_of_resolveUnary h
  obtain ⟨hw, hin⟩ := resolveUnary_ok h
  exact ⟨w, rfl, .of_asks hw hin⟩

/-! ### Calls -/

/-- The call answers `a`, under every schedule. -/
def BinaryOp.Yields [Element α K] (op : BinaryOp α K) (x y : Buffer α) (opts : BinaryOptions)
    (a : α) : Prop :=
  ∀ plan, op.answer? plan x y opts = some (.ok (.scalar a))

section Calls
variable {E : Element α K} {n : UInt64}

/-- The elements that a call on one vector leaves in its window. -/
theorem UnaryOp.gather_of_leaves {plan : Schedule} {op : UnaryOp α K}
    (hop : op.operation.copies = false) {x x' : Buffer α} {v : VectorOptions} {w : Window}
    (hx : Chosen n x v w) (h : op.Leaves plan x ⟨some n, v⟩ x') :
    Chosen n x' v w ∧ (w.view n x').gather = (w.view n x).gather.map op.image := by
  obtain ⟨sel, m, w', -, hres, hx'⟩ := (leaves_iff hop).mp h
  obtain ⟨w₁, e, hw⟩ := chosen_of_resolveUnary hres
  cases e
  obtain rfl := hx.unique hw
  have hin : (w.view n x).Inside := hx.inside
  have hl : ((w.view n x).gather.map op.image).length = n.toNat := by
    rw [List.length_map, View.length_gather hin]
    rfl
  obtain rfl := (op.replaced_result hx.inside).unique hx'
  refine ⟨hx.of_size (hx'.size_eq hx.inside), ?_⟩
  unfold UnaryOp.result View.mapElements
  rw [← Window.scatter_view, View.gather_scatter hin hl]

/-- The elements that a call on two vectors leaves in the window of the second one. -/
theorem BinaryOp.gather_of_leaves {plan : Schedule} {op : BinaryOp α K}
    (hop : op.operation.copies = false) {x y x' y' : Buffer α} {vx vy : VectorOptions}
    {wx wy : Window} (hx : Chosen n x vx wx) (hy : Chosen n y vy wy)
    (h : op.Leaves plan x y ⟨some n, vx, vy⟩ x' y') :
    Chosen n y' vy wy ∧ (wy.view n y').gather =
      List.zipWith (fun a b => (op.image a b).2) (wx.view n x).gather (wy.view n y).gather := by
  obtain ⟨sel, m, wx', wy', -, hres, ht⟩ := (leaves_iff hop).mp h
  cases (hx.resolveBinary_eq hy _).symm.trans hres
  have hinx : (wx.view n x).Inside := hx.inside
  have hiny : (wy.view n y).Inside := hy.inside
  have hl := View.length_zipWith_gather hinx hiny rfl fun a b => (op.image a b).2
  obtain ⟨rfl, rfl⟩ := (op.transformed_result hx.inside hy.inside).unique ht
  refine ⟨hy.of_size (ht.snd.size_eq hy.inside), ?_⟩
  unfold BinaryOp.result View.mapPairs
  rw [← Window.scatter_view, View.gather_scatter hiny hl]

theorem BinaryOp.exists_select_of_answer? {plan : Schedule} {op : BinaryOp α K} {x y : Buffer α}
    {opts : BinaryOptions} {a : Answer α K} (h : op.answer? plan x y opts = some (.ok a)) :
    ∃ sel, select op.operation (Element.precision α) = .ok sel := by
  cases hsel : select op.operation (Element.precision α) with
  | error e =>
    unfold answer? at h
    rw [run_of_unsupported plan hsel] at h
    cases h
  | ok sel => exact ⟨sel, rfl⟩

/-- **A dot product** of the elements that two windows show. -/
theorem BinaryOp.DotProduct.yields {op : BinaryOp α K} {f : α → α} (hop : op.DotProduct f)
    (hf : Sesquilinear f) {sel : Selection}
    (hsel : select op.operation (Element.precision α) = .ok sel) {x y : Buffer α}
    {vx vy : VectorOptions} {wx wy : Window} (hx : Chosen n x vx wx) (hy : Chosen n y vy wy) :
    op.Yields x y ⟨some n, vx, vy⟩ (dotInOrder f (wx.view n x).gather (wy.view n y).gather) :=
  fun plan => answer?_dot hop hsel plan (hx.resolveBinary_eq hy _) fun _ _ => hf.exactSums _

/-- **Dot products are linear, up to conjugation, in what other calls leave.** Let `y'` be left by
adding a multiple of `x` to `y`, and `x'` by scaling `x` with the same factor, and let the dot
product of `x` and `z` succeed, all with the same number of elements. Then so do the dot products of
all of these vectors with `z`, and they are what linearity says; and exchanging the vectors
conjugates, or changes nothing if the dot product does not conjugate. The factor may be zero. -/
theorem dot_of_combined_vectors (hE : E.OfParts) (hbeq : ∀ c : K, c == 0 → c = 0)
    {op : BinaryOp α K} {f : α → α} (hop : op.DotProduct f) {p q r : Schedule}
    {factor : Option α} {vx vy vz : VectorOptions} {x y z x₁ x' y' : Buffer α} {a : Answer α K}
    (haxpy : (BinaryOp.axpy factor).Leaves p x y ⟨some n, vx, vy⟩ x₁ y')
    (hscal : (UnaryOp.scal (factor.getD 1)).Leaves q x ⟨some n, vx⟩ x')
    (hdot : op.answer? r x z ⟨some n, vx, vz⟩ = some (.ok a)) :
    ∃ wx wz xz yz zx zy,
      resolveBinary op.operation.rule x.len z.len ⟨some n, vx, vz⟩ =
        some (.ok ⟨n, [wx, wz]⟩) ∧
      xz = dotInOrder f (wx.view n x).gather (wz.view n z).gather ∧
      op.Yields x z ⟨some n, vx, vz⟩ xz ∧ op.Yields y z ⟨some n, vy, vz⟩ yz ∧
      op.Yields z x ⟨some n, vz, vx⟩ zx ∧ op.Yields z y ⟨some n, vz, vy⟩ zy ∧
      op.Yields y' z ⟨some n, vy, vz⟩ (f (factor.getD 1) * xz + yz) ∧
      op.Yields z y' ⟨some n, vz, vy⟩ (factor.getD 1 * zx + zy) ∧
      op.Yields x' z ⟨some n, vx, vz⟩ (f (factor.getD 1) * xz) ∧ zx = f xz := by
  have hf := hE.sesquilinear hop
  obtain ⟨sel, hsel⟩ := BinaryOp.exists_select_of_answer? hdot
  obtain ⟨res, hres⟩ := BinaryOp.exists_resolve_of_answer? hdot
  obtain ⟨wx, wz, rfl, hx, hz⟩ := chosen_of_resolveBinary hres
  obtain ⟨_, _, _, _, -, hres', -⟩ := (BinaryOp.leaves_iff rfl).mp haxpy
  obtain ⟨_, wy, -, -, hy⟩ := chosen_of_resolveBinary hres'
  obtain ⟨hy', hgy⟩ := BinaryOp.gather_of_leaves rfl hx hy haxpy
  obtain ⟨hx', hgx⟩ := UnaryOp.gather_of_leaves rfl hx hscal
  have hlength : (wx.view n x).gather.length = (wy.view n y).gather.length :=
    (View.length_gather (v := wx.view n x) hx.inside).trans
      (View.length_gather (v := wy.view n y) hy.inside).symm
  simp only [image_axpy hE hbeq hop] at hgy
  have hleft := hop.yields hf hsel hy' hz
  have hright := hop.yields hf hsel hz hy'
  have hscaled := hop.yields hf hsel hx' hz
  rw [hgy, hf.axpy_left _ _ hlength] at hleft
  rw [hgy, hf.axpy_right _ _ hlength] at hright
  have himage : (UnaryOp.scal (factor.getD 1) : UnaryOp α K).image = (factor.getD 1 * ·) := rfl
  rw [hgx, himage, hf.scal_left] at hscaled
  exact ⟨wx, wz, _, _, _, _, hres, rfl, hop.yields hf hsel hx hz, hop.yields hf hsel hy hz,
    hop.yields hf hsel hz hx, hop.yields hf hsel hz hy, hleft, hright, hscaled, hf.swap _ _⟩

end Calls

/-- Two complex elements: those of `x` two cells apart, those of `y` read backwards, and those of
`z` side by side. The factor is the imaginary unit. -/
theorem dot_of_combined_vectors_conjugated :
    let _ : ExactRing ℚ := .rational
    let _ : Element (Complex ℚ) ℚ := .complex .w64
    ∃ (x y z x' y' : Buffer (Complex ℚ)) (vx vy vz : VectorOptions) (yz : Complex ℚ),
      x.cells = #[⟨1, 2⟩, ⟨9, 9⟩, ⟨3, -1⟩] ∧ y.cells = #[⟨0, 1⟩, ⟨2, 0⟩] ∧
      z.cells = #[⟨1, 0⟩, ⟨1, 1⟩] ∧ x'.cells = #[⟨-2, 1⟩, ⟨9, 9⟩, ⟨1, 3⟩] ∧
      y'.cells = #[⟨1, 4⟩, ⟨0, 1⟩] ∧ vx = ⟨none, some 2⟩ ∧ vy = ⟨none, some (-1)⟩ ∧ vz = {} ∧
      (BinaryOp.axpy (some ⟨0, 1⟩)).Leaves .sequential x y ⟨some 2, vx, vy⟩ x y' ∧
      (UnaryOp.scal ⟨0, 1⟩).Leaves .sequential x ⟨some 2, vx⟩ x' ∧
      BinaryOp.dotc.Yields x z ⟨some 2, vx, vz⟩ ⟨3, 2⟩ ∧
      BinaryOp.dotc.Yields z x ⟨some 2, vz, vx⟩ ⟨3, -2⟩ ∧
      BinaryOp.dotc.Yields x' z ⟨some 2, vx, vz⟩ ⟨2, -3⟩ ∧
      BinaryOp.dotc.Yields y z ⟨some 2, vy, vz⟩ yz ∧
      BinaryOp.dotc.Yields y' z ⟨some 2, vy, vz⟩ (⟨2, -3⟩ + yz) := by
  let _ : ExactRing ℚ := .rational
  let _ : Element (Complex ℚ) ℚ := .complex .w64
  let x : Buffer (Complex ℚ) := ⟨#[⟨1, 2⟩, ⟨9, 9⟩, ⟨3, -1⟩], by decide⟩
  let y : Buffer (Complex ℚ) := ⟨#[⟨0, 1⟩, ⟨2, 0⟩], by decide⟩
  let z : Buffer (Complex ℚ) := ⟨#[⟨1, 0⟩, ⟨1, 1⟩], by decide⟩
  let x' : Buffer (Complex ℚ) := ⟨#[⟨-2, 1⟩, ⟨9, 9⟩, ⟨1, 3⟩], by decide⟩
  let y' : Buffer (Complex ℚ) := ⟨#[⟨1, 4⟩, ⟨0, 1⟩], by decide⟩
  let vx : VectorOptions := ⟨none, some 2⟩
  let vy : VectorOptions := ⟨none, some (-1)⟩
  have hbeq : ∀ c : ℚ, ExactRing.toRealScalar.beq c 0 → c = 0 := fun c h => of_decide_eq_true h
  have hxy : resolveBinary Operation.axpy.rule x.len y.len ⟨some 2, vx, vy⟩ =
      some (.ok ⟨2, [⟨0, 2⟩, ⟨0, -1⟩]⟩) := by
    decide
  have hx : resolveUnary Operation.scal.rule x.len ⟨some 2, vx⟩ = some (.ok ⟨2, [⟨0, 2⟩]⟩) := by
    decide
  have hxz : resolveBinary Operation.dotc.rule x.len z.len ⟨some 2, vx, {}⟩ =
      some (.ok ⟨2, [⟨0, 2⟩, ⟨0, 1⟩]⟩) := by
    decide
  have haxpy : (BinaryOp.axpy (some (⟨0, 1⟩ : Complex ℚ))).Leaves .sequential x y
      ⟨some 2, vx, vy⟩ x y' := by
    refine ⟨_, _, BinaryOp.run_of_resolved .sequential rfl hxy, rfl, Prod.ext rfl ?_⟩
    exact Buffer.ext (by decide +kernel)
  have hscal : (UnaryOp.scal (⟨0, 1⟩ : Complex ℚ)).Leaves .sequential x ⟨some 2, vx⟩ x' := by
    refine ⟨_, _, UnaryOp.run_of_resolved .sequential rfl hx, rfl, ?_⟩
    exact Buffer.ext (by decide +kernel)
  have hdot : BinaryOp.dotc.answer? .sequential x z ⟨some 2, vx, {}⟩ = some (.ok _) :=
    BinaryOp.answer?_of_resolved rfl hxz
  obtain ⟨wx, wz, xz, yz, zx, zy, hres, hvalue, hyields, hyz, hzx, -, hleft, -, hscaled, hswap⟩ :=
    dot_of_combined_vectors (.complex .w64) hbeq .dotc haxpy hscal hdot
  cases hxz.symm.trans hres
  obtain rfl : xz = ⟨3, 2⟩ := hvalue.trans (by decide +kernel)
  obtain rfl : zx = ⟨3, -2⟩ := hswap.trans (by decide +kernel)
  have hfactor : Scalar.conj ((some (⟨0, 1⟩ : Complex ℚ)).getD 1) * ⟨3, 2⟩ = ⟨2, -3⟩ := by
    decide +kernel
  rw [hfactor] at hleft hscaled
  exact ⟨x, y, z, x', y', vx, vy, {}, yz, rfl, rfl, rfl, rfl, rfl, rfl, rfl, rfl, haxpy, hscal,
    hyields, hzx, hscaled, hyz, hleft⟩

end Strided
