import Mathlib.Algebra.Order.Field.Basic
import Mathlib.Tactic.Ring
import Strided.Proofs.Elementwise
import Strided.Proofs.Exact
import Strided.Proofs.Refusal

/-! # The real axis

A real number is a complex number with imaginary part zero. In exact arithmetic, what a complex
operation does to vectors on the real axis is what the real operation does to the real vectors.

* `Buffer.map`, `View.map`: storage with every element replaced by its image.
* `View.gather_map`, `View.scatter_map`: the elements of such a view.
* `UnaryOp.Carried`, `BinaryOp.Carried`: a map carries one operation into another.
* `UnaryOp.Carried.run_map`, `BinaryOp.Carried.run_map`: then it carries the calls.
* `UnaryOp.OnAxis`, `BinaryOp.OnAxis`: the operations that belong together on the axis.
* `real_axis`: calls on the axis, and scaling by a real factor. -/

namespace Strided

/-! ### Mapped storage -/

section Storage
variable {α β : Type} (f : α → β)

/-- The buffer with every cell replaced by its image. -/
def Buffer.map (b : Buffer α) : Buffer β := ⟨b.cells.map f, by simpa using b.size_lt⟩

theorem Buffer.len_map (b : Buffer α) : (b.map f).len = b.len := by
  unfold Buffer.len Buffer.map
  rw [Array.size_map]

theorem Buffer.get?_map (b : Buffer α) (j : ℕ) : (b.map f).get? j = (b.get? j).map f :=
  Array.getElem?_map

/-- The same window over the mapped buffer. -/
def View.map (v : View α) : View β := ⟨v.buffer.map f, v.offset, v.n, v.inc⟩

namespace View

theorem gather_map (v : View α) : (v.map f).gather = v.gather.map f := by
  unfold gather
  rw [List.map_filterMap]
  exact List.filterMap_congr fun i _ => v.buffer.get?_map f _

theorem put_map (v : View α) (i : ℕ) (a : α) : (v.map f).put i (f a) = (v.put i a).map f :=
  View.ext (Buffer.ext Array.map_setIfInBounds.symm) rfl rfl rfl

theorem scatter_map (v : View α) (zs : List α) :
    (v.map f).scatter (zs.map f) = (v.scatter zs).map f := by
  induction zs using List.reverseRecOn with
  | nil => rfl
  | append_singleton zs z ih =>
    rw [List.map_append, List.map_singleton, scatter_concat, scatter_concat, ih, List.length_map,
      put_map]

variable {f}

theorem mapElements_map {g : α → α} {g' : β → β} (h : ∀ a, g' (f a) = f (g a)) (v : View α) :
    (v.map f).mapElements g' = (v.mapElements g).map f := by
  unfold mapElements
  rw [gather_map, List.map_map, ← scatter_map, List.map_map]
  exact congrArg _ (List.map_congr_left fun a _ => h a)

theorem mapPairs_map {g : α → α → α × α} {g' : β → β → β × β}
    (h : ∀ a b, g' (f a) (f b) = (g a b).map f f) (v w : View α) :
    (v.map f).mapPairs g' (w.map f) = (v.mapPairs g w).map (View.map f) (View.map f) := by
  unfold mapPairs
  simp only [gather_map, List.zipWith_map_left, List.zipWith_map_right, h, Prod.map_fst,
    Prod.map_snd, Prod.map_apply, ← scatter_map, List.map_zipWith]

end View

end Storage

/-! ### Operations that a map carries into one another -/

section Carried
variable {α β ρ : Type}

/-- The answer with every element in it replaced by its image. -/
def Answer.map (f : α → β) : Answer α ρ → Answer β ρ
  | .done => .done
  | .scalar a => .scalar (f a)
  | .real r => .real r
  | .index k => .index k
  | .vectors copies => .vectors (copies.map (Buffer.map f))
  | .cosSin c s => .cosSin c (f s)
  | .params p => .params p

/-- Two rows treat their arguments in the same way. -/
structure Operation.Alike (op op' : Operation) : Prop where
  rule : op'.rule = op.rule
  role : ∀ k, op'.role? k = op.role? k

theorem Operation.Alike.refl (op : Operation) : op.Alike op := ⟨rfl, fun _ => rfl⟩

variable [RealScalar ρ] [Element α ρ] [Element β ρ] {f : α → β}

/-- The map `f` carries one operation into another: it commutes with their images of elements and
with the answers of their kernels, whatever the schedules, and with what they hand back. -/
structure UnaryOp.Carried (f : α → β) (op : UnaryOp α ρ) (op' : UnaryOp β ρ) : Prop where
  row : op.operation.Alike op'.operation
  image : ∀ a, op'.image (f a) = f (op.image a)
  value : ∀ plan plan' x, op'.value plan' (View.map f x) = (op.value plan x).map f
  emptyAnswer : op'.emptyAnswer = op.emptyAnswer.map f
  handBack : ∀ x a, op'.handBack (Buffer.map f x) (a.map f) = (op.handBack x a).map f

/-- The map `f` carries one operation into another. -/
structure BinaryOp.Carried (f : α → β) (op : BinaryOp α ρ) (op' : BinaryOp β ρ) : Prop where
  row : op.operation.Alike op'.operation
  image : ∀ a b, op'.image (f a) (f b) = (op.image a b).map f f
  value : ∀ plan plan' x y,
    op'.value plan' (View.map f x) (View.map f y) = (op.value plan x y).map f
  emptyAnswer : op'.emptyAnswer = op.emptyAnswer.map f
  handBack : ∀ x y a,
    op'.handBack (Buffer.map f x) (Buffer.map f y) (a.map f) = (op.handBack x y a).map f

namespace UnaryOp.Carried

variable {op : UnaryOp α ρ} {op' : UnaryOp β ρ} (h : Carried f op op')
include h

theorem result_map (n : UInt64) (w : Window) (x : Buffer α) :
    op'.result n w (x.map f) = (op.result n w x).map f :=
  congrArg View.buffer (View.mapElements_map h.image (w.view n x))

theorem reply_map (plan plan' : Schedule) (n : UInt64) (w : Window) (x : Buffer α) :
    op'.reply plan' n w (x.map f) = (op.reply plan n w x).map f := by
  unfold reply
  split_ifs
  · exact h.emptyAnswer
  · exact h.value plan plan' (w.view n x)

/-- **A map carries calls on one vector** as it carries their operations. -/
theorem run_map (hs : op.operation.row.supported.supports (Element.precision α))
    (hs' : op'.operation.row.supported.supports (Element.precision β)) (plan plan' : Schedule)
    (x : Buffer α) (opts : UnaryOptions) :
    ∃ o o', op.run plan x opts = some o ∧ op'.run plan' (x.map f) opts = some o' ∧
      o'.buffers = o.buffers.map f ∧ o'.answer = o.answer.map (Answer.map f) := by
  obtain ⟨sel, hsel⟩ := exists_select hs
  obtain ⟨sel', hsel'⟩ := exists_select hs'
  obtain ⟨res, hres⟩ : ∃ res, resolveUnary op.operation.rule x.len opts = some res :=
    exists_resolve _ _ _
  have hres' := hres
  rw [← h.row.rule, ← x.len_map f] at hres'
  cases res with
  | error e =>
    exact ⟨_, _, run_of_refused plan hsel hres, run_of_refused plan' hsel' hres', rfl, rfl⟩
  | ok r =>
    obtain ⟨w, hr, -⟩ := window_of_resolveUnary hres
    rw [hr] at hres hres'
    refine ⟨_, _, run_of_resolved plan hsel hres, run_of_resolved plan' hsel' hres', ?_, ?_⟩
    · simp only [outcome, h.row.role, h.result_map]
      split_ifs <;> rfl
    · simp only [outcome, Except.map, h.result_map, h.reply_map plan plan', h.handBack]

end UnaryOp.Carried

namespace BinaryOp.Carried

variable {op : BinaryOp α ρ} {op' : BinaryOp β ρ} (h : Carried f op op')
include h

theorem result_map (n : UInt64) (wx wy : Window) (x y : Buffer α) :
    op'.result n wx wy (x.map f) (y.map f) =
      (op.result n wx wy x y).map (Buffer.map f) (Buffer.map f) :=
  congrArg (Prod.map View.buffer View.buffer)
    (View.mapPairs_map h.image (wx.view n x) (wy.view n y))

theorem reply_map (plan plan' : Schedule) (n : UInt64) (wx wy : Window) (x y : Buffer α) :
    op'.reply plan' n wx wy (x.map f) (y.map f) = (op.reply plan n wx wy x y).map f := by
  unfold reply
  split_ifs
  · exact h.emptyAnswer
  · exact h.value plan plan' (wx.view n x) (wy.view n y)

/-- **A map carries calls on two vectors** as it carries their operations. -/
theorem run_map (hs : op.operation.row.supported.supports (Element.precision α))
    (hs' : op'.operation.row.supported.supports (Element.precision β)) (plan plan' : Schedule)
    (x y : Buffer α) (opts : BinaryOptions) :
    ∃ o o', op.run plan x y opts = some o ∧ op'.run plan' (x.map f) (y.map f) opts = some o' ∧
      o'.buffers = o.buffers.map (Buffer.map f) (Buffer.map f) ∧
      o'.answer = o.answer.map (Answer.map f) := by
  obtain ⟨sel, hsel⟩ := exists_select hs
  obtain ⟨sel', hsel'⟩ := exists_select hs'
  obtain ⟨res, hres⟩ : ∃ res, resolveBinary op.operation.rule x.len y.len opts = some res :=
    exists_resolve _ _ _
  have hres' := hres
  rw [← h.row.rule, ← x.len_map f, ← y.len_map f] at hres'
  cases res with
  | error e =>
    exact ⟨_, _, run_of_refused plan hsel hres, run_of_refused plan' hsel' hres', rfl, rfl⟩
  | ok r =>
    obtain ⟨wx, wy, hr, -⟩ := windows_of_resolveBinary hres
    rw [hr] at hres hres'
    refine ⟨_, _, run_of_resolved plan hsel hres, run_of_resolved plan' hsel' hres', ?_, ?_⟩
    · simp only [outcome, h.row.role, h.result_map, Prod.map_fst, Prod.map_snd]
      split_ifs <;> rfl
    · simp only [outcome, Except.map, h.result_map, h.reply_map plan plan', h.handBack,
        Prod.map_fst, Prod.map_snd]

end BinaryOp.Carried

end Carried

/-! ### Complex numbers in exact arithmetic -/

section Axis
variable {K : Type} [ExactReal K]

namespace Complex

instance : Std.Associative (α := Complex K) (· + ·) :=
  ⟨fun a b c => congrArg₂ mk (add_assoc a.re b.re c.re) (add_assoc a.im b.im c.im)⟩

instance : Std.LawfulIdentity (α := Complex K) (· + ·) 0 where
  left_id a := congrArg₂ mk (zero_add a.re) (zero_add a.im)
  right_id a := congrArg₂ mk (add_zero a.re) (add_zero a.im)

/-- A real number as a point of the real axis. -/
def ofReal (r : K) : Complex K := ⟨r, 0⟩

theorem ofReal_add (a b : K) : ofReal (a + b) = ofReal a + ofReal b :=
  congrArg (mk _) (add_zero (0 : K)).symm

theorem ofReal_sub (a b : K) : ofReal (a - b) = ofReal a - ofReal b :=
  congrArg (mk _) (sub_zero (0 : K)).symm

theorem ofReal_mul (a b : K) : ofReal (a * b) = ofReal a * ofReal b := by
  have hre : a * b = a * b - 0 * 0 := by ring
  have him : 0 = a * 0 + 0 * b := by ring
  exact congrArg₂ mk hre him

theorem conj_ofReal (a : K) : Scalar.conj (ofReal a) = ofReal a :=
  congrArg (mk a) neg_zero

theorem mulReal_ofReal (a r : K) : Scalar.mulReal (ofReal a) r = ofReal (a * r) :=
  congrArg (mk _) (zero_mul r)

theorem abs1_ofReal (a : K) : Scalar.abs1 (ofReal a) = Scalar.abs1 a := by
  have h : |a| + |(0 : K)| = |a| := by rw [abs_zero, add_zero]
  exact h

theorem ofReal_beq_zero (a : K) : (ofReal a == 0) = (a == 0) := by
  have h : (a == 0 && (0 : K) == 0) = (a == 0) := by
    rw [show ((0 : K) == 0) = true from decide_eq_true rfl, Bool.and_true]
  exact h

/-- Scaling by a real factor is multiplication by a point of the axis. -/
theorem ofReal_mul_eq_mulReal (r : K) (a : Complex K) : ofReal r * a = Scalar.mulReal a r := by
  have hre : r * a.re - 0 * a.im = a.re * r := by ring
  have him : r * a.im + 0 * a.re = a.im * r := by ring
  exact congrArg₂ mk hre him

end Complex

open Strided.Complex (ofReal)

namespace Kernel

theorem norm_map_ofReal (xs : List K) : norm (xs.map ofReal) = norm xs := by
  have hparts : parts (xs.map ofReal) = parts xs := List.flatMap_map ..
  unfold norm
  rw [hparts]

theorem map_abs1_ofReal (xs : List K) : (xs.map ofReal).map Scalar.abs1 = xs.map Scalar.abs1 := by
  rw [List.map_map]
  exact List.map_congr_left fun a _ => Complex.abs1_ofReal a

theorem products_map_ofReal {g : K → K} {g' : Complex K → Complex K}
    (h : ∀ a, g' (ofReal a) = ofReal (g a)) (xs ys : List K) :
    products g' (xs.map ofReal) (ys.map ofReal) = (products g xs ys).map ofReal := by
  unfold products
  simp only [List.zipWith_map_left, List.zipWith_map_right, List.map_zipWith, h,
    Complex.ofReal_mul]

theorem total_map_ofReal (plan plan' : Schedule) (long long' : Bool) (terms : List K) :
    total plan' long' (terms.map ofReal) = ofReal (total plan long terms) := by
  rw [total_eq_foldl, total_eq_foldl, List.foldl_map]
  exact List.foldl_hom ofReal fun a b => (Complex.ofReal_add a b).symm

end Kernel

/-! ### Calls on the axis -/

/-- Run a real operation on one vector. -/
def UnaryOp.runReal (w : Width) (plan : Schedule) (op : UnaryOp K K) (x : Buffer K)
    (opts : UnaryOptions) : Option (Outcome (Buffer K) K K) :=
  @UnaryOp.run K K _ (Element.real w) plan op x opts

/-- Run a complex operation on one vector. -/
def UnaryOp.runComplex (w : Width) (plan : Schedule) (op : UnaryOp (Complex K) K)
    (x : Buffer (Complex K)) (opts : UnaryOptions) :
    Option (Outcome (Buffer (Complex K)) (Complex K) K) :=
  @UnaryOp.run (Complex K) K _ (Element.complex w) plan op x opts

/-- Run a real operation on two vectors. -/
def BinaryOp.runReal (w : Width) (plan : Schedule) (op : BinaryOp K K) (x y : Buffer K)
    (opts : BinaryOptions) : Option (Outcome (Buffer K × Buffer K) K K) :=
  @BinaryOp.run K K _ (Element.real w) plan op x y opts

/-- Run a complex operation on two vectors. -/
def BinaryOp.runComplex (w : Width) (plan : Schedule) (op : BinaryOp (Complex K) K)
    (x y : Buffer (Complex K)) (opts : BinaryOptions) :
    Option (Outcome (Buffer (Complex K) × Buffer (Complex K)) (Complex K) K) :=
  @BinaryOp.run (Complex K) K _ (Element.complex w) plan op x y opts

/-- The complex operation on one vector that belongs to a real one. -/
inductive UnaryOp.OnAxis : UnaryOp K K → UnaryOp (Complex K) K → Prop
  | scal (alpha : K) : OnAxis (.scal alpha) (.scal (ofReal alpha))
  | nrm2 : OnAxis .nrm2 .nrm2
  | asum : OnAxis .asum .asum
  | iamax : OnAxis .iamax .iamax

/-- The complex operations on two vectors that belong to a real one. Both dot products of complex
vectors belong to the one of real vectors. -/
inductive BinaryOp.OnAxis : BinaryOp K K → BinaryOp (Complex K) K → Prop
  | rot (c s : K) : OnAxis (.rot c s) (.rot c s)
  | rotInPlace (c s : K) : OnAxis (.rotInPlace c s) (.rotInPlace c s)
  | swap : OnAxis .swap .swap
  | copy : OnAxis .copy .copy
  | axpy (alpha : Option K) : OnAxis (.axpy alpha) (.axpy (alpha.map ofReal))
  | dotu : OnAxis .dot .dotu
  | dotc : OnAxis .dot .dotc

theorem UnaryOp.OnAxis.carried {op : UnaryOp K K} {op' : UnaryOp (Complex K) K}
    (h : op.OnAxis op') (w w' : Width) :
    @Carried K (Complex K) K _ (Element.real w) (Element.complex w') ofReal op op' := by
  let _ : Element K K := Element.real w
  let _ : Element (Complex K) K := Element.complex w'
  cases h with
  | scal alpha =>
    exact ⟨.refl _, fun a => (Complex.ofReal_mul alpha a).symm, fun _ _ _ => rfl, rfl,
      fun _ _ => rfl⟩
  | nrm2 =>
    refine ⟨.refl _, fun _ => rfl, fun plan plan' x => congrArg Answer.real ?_, rfl, fun _ _ => rfl⟩
    rw [View.gather_map, Kernel.norm_map_ofReal]
  | asum =>
    refine ⟨.refl _, fun _ => rfl, fun plan plan' x => congrArg Answer.real ?_, rfl, fun _ _ => rfl⟩
    rw [View.gather_map, Kernel.map_abs1_ofReal, Kernel.total_eq_foldl, Kernel.total_eq_foldl]
  | iamax =>
    refine ⟨.refl _, fun _ => rfl, fun plan plan' x => congrArg Answer.index ?_, rfl,
      fun _ _ => rfl⟩
    rw [View.gather_map, Kernel.map_abs1_ofReal]

theorem BinaryOp.OnAxis.carried {op : BinaryOp K K} {op' : BinaryOp (Complex K) K}
    (h : op.OnAxis op') (w w' : Width) :
    @Carried K (Complex K) K _ (Element.real w) (Element.complex w') ofReal op op' := by
  let _ : Element K K := Element.real w
  let _ : Element (Complex K) K := Element.complex w'
  have hrot : ∀ c s a b : K,
      (Scalar.mulReal (ofReal a) c + Scalar.mulReal (ofReal b) s,
          Scalar.mulReal (ofReal b) c - Scalar.mulReal (ofReal a) s) =
        (ofReal (a * c + b * s), ofReal (b * c - a * s)) := by
    intro c s a b
    rw [Complex.ofReal_add, Complex.ofReal_sub]
    simp only [Complex.mulReal_ofReal]
  have hdot : ∀ (g : Complex K → Complex K), (∀ a, g (ofReal a) = ofReal (id a)) →
      ∀ (plan plan' : Schedule) (long long' : Bool) (x y : View K),
      Kernel.total plan' long' (Kernel.products g (x.map ofReal).gather (y.map ofReal).gather) =
        ofReal (Kernel.total plan long (Kernel.products id x.gather y.gather)) := by
    intro g hg plan plan' long long' x y
    rw [View.gather_map, View.gather_map, Kernel.products_map_ofReal hg, Kernel.total_map_ofReal]
  cases h with
  | rot c s => exact ⟨.refl _, hrot c s, fun _ _ _ _ => rfl, rfl, fun _ _ _ => rfl⟩
  | rotInPlace c s => exact ⟨.refl _, hrot c s, fun _ _ _ _ => rfl, rfl, fun _ _ _ => rfl⟩
  | swap => exact ⟨.refl _, fun _ _ => rfl, fun _ _ _ _ => rfl, rfl, fun _ _ _ => rfl⟩
  | copy => exact ⟨.refl _, fun _ _ => rfl, fun _ _ _ _ => rfl, rfl, fun _ _ _ => rfl⟩
  | axpy alpha =>
    have hget : (alpha.map ofReal).getD 1 = ofReal (alpha.getD 1) := by
      cases alpha <;> rfl
    refine ⟨.refl _, fun a b => congrArg (Prod.mk (ofReal a)) ?_, fun _ _ _ _ => rfl, rfl, fun _ _ _ => rfl⟩
    rw [hget, Complex.ofReal_beq_zero, ← Complex.ofReal_mul, ← Complex.ofReal_add]
    exact (apply_ite ofReal _ _ _).symm
  | dotu =>
    exact ⟨⟨rfl, fun _ => rfl⟩, fun _ _ => rfl, fun plan plan' x y =>
      congrArg Answer.scalar (hdot id (fun _ => rfl) plan plan' _ _ x y), rfl, fun _ _ _ => rfl⟩
  | dotc =>
    exact ⟨⟨rfl, fun _ => rfl⟩, fun _ _ => rfl, fun plan plan' x y =>
      congrArg Answer.scalar (hdot _ Complex.conj_ofReal plan plan' _ _ x y), rfl, fun _ _ _ => rfl⟩

theorem UnaryOp.OnAxis.supports {op : UnaryOp K K} {op' : UnaryOp (Complex K) K}
    (h : op.OnAxis op') (w w' : Width) : op.operation.row.supported.supports w.real ∧
      op'.operation.row.supported.supports w'.complex := by
  constructor
  · rw [Row.supported, PrecisionSet.supports_filter]
    cases h <;> cases w <;> rfl
  · rw [Row.supported, PrecisionSet.supports_filter]
    cases h <;> cases w' <;> rfl

theorem BinaryOp.OnAxis.supports {op : BinaryOp K K} {op' : BinaryOp (Complex K) K}
    (h : op.OnAxis op') (w w' : Width) : op.operation.row.supported.supports w.real ∧
      op'.operation.row.supported.supports w'.complex := by
  constructor
  · rw [Row.supported, PrecisionSet.supports_filter]
    cases h <;> cases w <;> rfl
  · rw [Row.supported, PrecisionSet.supports_filter]
    cases h <;> cases w' <;> rfl

/-- Scaling a copy by a real factor gives what scaling by the point of the axis leaves. -/
theorem UnaryOp.run_scalReal (w : Width) (plan plan' : Schedule) (alpha : K)
    (x : Buffer (Complex K)) (opts : UnaryOptions) :
    ∃ o o', (UnaryOp.scalReal alpha).runComplex w plan x opts = some o ∧
      (UnaryOp.scal (ofReal alpha)).runComplex w plan' x opts = some o' ∧
      o.buffers = x ∧ o.answer = o'.answer.map fun _ => .vectors [o'.buffers] := by
  let _ : Element (Complex K) K := Element.complex w
  have hs : Operation.scalReal.row.supported.supports w.complex ∧
      Operation.scal.row.supported.supports w.complex := by
    cases w <;> decide
  obtain ⟨sel, hsel⟩ := exists_select hs.1
  obtain ⟨sel', hsel'⟩ := exists_select hs.2
  have himage : (scal (ofReal alpha)).image = (scalReal alpha).image :=
    funext (Complex.ofReal_mul_eq_mulReal alpha)
  obtain ⟨res, hres⟩ : ∃ res, resolveUnary .inclusive x.len opts = some res :=
    exists_resolve _ _ _
  cases res with
  | error e =>
    exact ⟨_, _, run_of_refused plan hsel hres,
      run_of_refused plan' hsel' hres, rfl, rfl⟩
  | ok r =>
    obtain ⟨v, hr, -⟩ := window_of_resolveUnary hres
    rw [hr] at hres
    refine ⟨_, _, run_of_resolved plan hsel hres,
      run_of_resolved plan' hsel' hres, rfl, ?_⟩
    have hresult : (scal (ofReal alpha)).result r.n v x = (scalReal alpha).result r.n v x := by
      rw [result, result, himage]
    rw [UnaryOp.answer_of_copies plan sel r.n v x rfl, ← hresult]
    rfl

/-- **On the real axis the complex operations are the real ones.** A complex operation on vectors of
the axis, with its scalars there, and the real operation on the real vectors fail with the same
error or succeed together. What the one leaves and returns is what the other leaves and returns, as
points of the axis; norms, sums of magnitudes and positions are the same. For any complex vector,
the copy scaled by a real factor is what scaling by the point of the axis leaves. The square root
may be any function. -/
theorem real_axis (w w' : Width) (plan plan' : Schedule) :
    (∀ (op : UnaryOp K K) (op' : UnaryOp (Complex K) K), op.OnAxis op' →
      ∀ (x : Buffer K) (opts : UnaryOptions), ∃ o o', op.runReal w plan x opts = some o ∧
        op'.runComplex w' plan' (x.map ofReal) opts = some o' ∧
        o'.buffers = o.buffers.map ofReal ∧ o'.answer = o.answer.map (Answer.map ofReal)) ∧
    (∀ (op : BinaryOp K K) (op' : BinaryOp (Complex K) K), op.OnAxis op' →
      ∀ (x y : Buffer K) (opts : BinaryOptions), ∃ o o', op.runReal w plan x y opts = some o ∧
        op'.runComplex w' plan' (x.map ofReal) (y.map ofReal) opts = some o' ∧
        o'.buffers = o.buffers.map (Buffer.map ofReal) (Buffer.map ofReal) ∧
        o'.answer = o.answer.map (Answer.map ofReal)) ∧
    ∀ (alpha : K) (x : Buffer (Complex K)) (opts : UnaryOptions),
      ∃ o o', (UnaryOp.scalReal alpha).runComplex w' plan x opts = some o ∧
        (UnaryOp.scal (ofReal alpha)).runComplex w' plan' x opts = some o' ∧
        o.buffers = x ∧ o.answer = o'.answer.map fun _ => .vectors [o'.buffers] := by
  let _ : Element K K := Element.real w
  let _ : Element (Complex K) K := Element.complex w'
  refine ⟨fun op op' h x opts => ?_, fun op op' h x y opts => ?_, UnaryOp.run_scalReal w' plan plan'⟩
  · obtain ⟨hs, hs'⟩ := h.supports w w'
    exact (h.carried w w').run_map hs hs' plan plan' x opts
  · obtain ⟨hs, hs'⟩ := h.supports w w'
    exact (h.carried w w').run_map hs hs' plan plan' x y opts

end Axis

/-- Two elements of rational vectors, those of `x` read backwards and two cells apart. -/
theorem real_axis_dotc_backwards :
    let _ : ExactReal ℚ := .rational
    ∃ (x y : Buffer ℚ) (opts : BinaryOptions) (o : Outcome (Buffer ℚ × Buffer ℚ) ℚ ℚ)
        (o' : Outcome (Buffer (Complex ℚ) × Buffer (Complex ℚ)) (Complex ℚ) ℚ),
      x.cells = #[1, 2, 3, 4] ∧ y.cells = #[5, 6, 7] ∧
      opts = ⟨some 2, ⟨some 1, some (-2)⟩, ⟨none, none⟩⟩ ∧ BinaryOp.OnAxis (K := ℚ) .dot .dotc ∧
      BinaryOp.dot.runReal .w64 .sequential x y opts = some o ∧
      BinaryOp.dotc.runComplex .w32 .sequential (x.map .ofReal) (y.map .ofReal) opts = some o' ∧
      o.answer = .ok (.scalar 32) ∧ o'.answer = .ok (.scalar ⟨32, 0⟩) := by
  let _ : ExactReal ℚ := .rational
  let x : Buffer ℚ := ⟨#[1, 2, 3, 4], by decide⟩
  let y : Buffer ℚ := ⟨#[5, 6, 7], by decide⟩
  let opts : BinaryOptions := ⟨some 2, ⟨some 1, some (-2)⟩, ⟨none, none⟩⟩
  obtain ⟨o, o', ho, ho', -, ha⟩ :=
    (real_axis (K := ℚ) .w64 .w32 .sequential .sequential).2.1 .dot .dotc .dotc x y opts
  have hres : resolveBinary Operation.dot.rule x.len y.len opts =
      some (.ok ⟨2, [⟨1, -2⟩, ⟨0, 1⟩]⟩) := by
    decide
  let _ : Element ℚ ℚ := .real .w64
  obtain rfl := Option.some.inj (ho.symm.trans (BinaryOp.run_of_resolved .sequential rfl hres))
  have hsum : (0 + 4 * 5 + 2 * 6 : ℚ) = 32 := by norm_num
  have hdot := congrArg (fun s : ℚ => (.ok (.scalar s) : Except Error (Answer ℚ ℚ))) hsum
  exact ⟨x, y, opts, _, o', rfl, rfl, rfl, .dotc, ho, ho', hdot,
    ha.trans (congrArg (Except.map (Answer.map Complex.ofReal)) hdot)⟩

end Strided
