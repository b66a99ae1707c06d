import Mathlib.Tactic.FieldSimp
import Mathlib.Tactic.Linarith
import Mathlib.Order.Bounds.Basic
import Mathlib.Algebra.BigOperators.Group.List.Basic
import Strided.Proofs.RealAxis
import Strided.Proofs.Reduction
import Strided.Proofs.SquareRoot

/-! # The Euclidean norm

The loop of the norm keeps a scale and a factor in place of a sum of squares. A part larger than the
scale becomes the scale, and the factor shrinks by the square of the ratio; any other part adds the
square of its own ratio to the factor. So the square of the scale times the factor is the sum of the
squares, and no square is formed of anything above one.

* `StandsFor`: what scale and factor say about the parts seen so far.
* `StandsFor.concat_of_lt`, `StandsFor.concat_of_le`: one part more.
* `standsFor_add`, `standsFor_of`: a step of the loop, and the loop.
* `Kernel.norm_sq`, `Kernel.SelfProduct.total_eq`: norm and dot product see the same sum.
* `resolveBinary_same`, `resolveBinary_same_of_error`: one window given twice.
* `euclidean_norm`: the calls. -/

namespace Strided

/-! ### Fields -/

section Field
variable {F : Type} [Field F]

/-- The sum of the squares. -/
def sumSquares (ps : List F) : F := (ps.map fun p => p ^ 2).sum

theorem sumSquares_concat (ps : List F) (p : F) :
    sumSquares (ps ++ [p]) = sumSquares ps + p ^ 2 := by
  simp [sumSquares]

variable [LinearOrder F]

/-- A scale and a factor stand for the sum of the squares of the parts seen so far. -/
structure StandsFor (scale ssq : F) (ps : List F) : Prop where
  sum : scale ^ 2 * ssq = sumSquares ps
  /-- The scale is the largest absolute value, and zero before there is one. -/
  largest : IsGreatest {m | ∃ p ∈ 0 :: ps, |p| = m} scale
  one_le : 1 ≤ ssq
  /-- Zero parts do not count. -/
  le_count : ssq ≤ max 1 (ps.countP (· ≠ 0) : F)

variable {scale ssq p : F} {ps : List F}

theorem StandsFor.largest_concat (h : StandsFor scale ssq ps) (p : F) :
    IsGreatest {m | ∃ q ∈ 0 :: (ps ++ [p]), |q| = m} (max scale |p|) := by
  constructor
  · rcases max_choice scale |p| with hmax | hmax
    · obtain ⟨q, hq, habs⟩ := h.largest.1
      exact ⟨q, List.mem_append_left [p] hq, habs.trans hmax.symm⟩
    · exact ⟨p, by simp, hmax.symm⟩
  · rintro m ⟨q, hq, rfl⟩
    rcases List.mem_append.mp (show q ∈ (0 :: ps) ++ [p] from hq) with hq | hq
    · exact le_max_of_le_left (h.largest.2 ⟨q, hq, rfl⟩)
    · rw [List.mem_singleton.mp hq]
      exact le_max_right _ _

/-- What is left to show when a part that is not zero is taken in. -/
theorem StandsFor.concat (h : StandsFor scale ssq ps) (hp : p ≠ 0) {scale' ssq' : F}
    (hscale : scale' = max scale |p|) (hsum : scale' ^ 2 * ssq' = scale ^ 2 * ssq + p ^ 2)
    (hone : 1 ≤ ssq') (hcount : ssq' ≤ ps.countP (· ≠ 0) + 1) :
    StandsFor scale' ssq' (ps ++ [p]) where
  sum := by rw [sumSquares_concat, hsum, h.sum]
  largest := by
    rw [hscale]
    exact h.largest_concat p
  one_le := hone
  le_count := by
    refine hcount.trans (le_max_of_le_right (le_of_eq ?_))
    simp [List.countP_append, hp]

variable [IsStrictOrderedRing F]

theorem standsFor_nil : StandsFor (0 : F) 1 [] where
  sum := by simp [sumSquares]
  largest := ⟨⟨0, by simp⟩, by rintro m ⟨p, hp, rfl⟩; simp_all⟩
  one_le := le_rfl
  le_count := le_max_left _ _

namespace StandsFor

theorem scale_nonneg (h : StandsFor scale ssq ps) : 0 ≤ scale :=
  h.largest.2 ⟨0, List.mem_cons_self, abs_zero⟩

/-- A scale that is not zero is the absolute value of a part. -/
theorem one_le_count (h : StandsFor scale ssq ps) (hscale : scale ≠ 0) :
    1 ≤ ps.countP (· ≠ 0) := by
  obtain ⟨q, hq, habs⟩ := h.largest.1
  have hq0 : q ≠ 0 := fun h0 => hscale (by rw [← habs, h0, abs_zero])
  have hmem : q ∈ ps := (List.mem_cons.mp hq).resolve_left hq0
  exact List.countP_pos_iff.mpr ⟨q, hmem, decide_eq_true hq0⟩

/-- A zero part changes nothing. -/
theorem concat_zero (h : StandsFor scale ssq ps) : StandsFor scale ssq (ps ++ [0]) where
  sum := by rw [sumSquares_concat, h.sum, zero_pow two_ne_zero, add_zero]
  largest := by simpa [h.scale_nonneg] using h.largest_concat 0
  one_le := h.one_le
  le_count := by simpa using h.le_count

/-- Once the scale is not zero, the factor is at most the number of parts that are not. -/
theorem ssq_le_count (h : StandsFor scale ssq ps) (hscale : scale ≠ 0) :
    ssq ≤ ps.countP (· ≠ 0) := by
  have hone : (1 : F) ≤ ps.countP (· ≠ 0) := by exact_mod_cast h.one_le_count hscale
  have hcount := h.le_count
  rwa [max_eq_right hone] at hcount

/-- A part larger than the scale becomes the scale. -/
theorem concat_of_lt (h : StandsFor scale ssq ps) (hlt : scale < |p|) :
    StandsFor |p| (1 + ssq * (scale * |p|⁻¹) * (scale * |p|⁻¹)) (ps ++ [p]) := by
  have hs := h.scale_nonneg
  have hpos : 0 < |p| := hs.trans_lt hlt
  have hssq : 0 ≤ ssq := zero_le_one.trans h.one_le
  obtain ⟨hq0, hq1⟩ := quotient_le_one hs hpos hlt.le
  refine h.concat (abs_pos.mp hpos) (max_eq_right hlt.le).symm ?_ ?_ ?_
  · rw [← sq_abs p]
    field_simp
    ring
  · have hterm := mul_nonneg (mul_nonneg hssq hq0) hq0
    linarith
  · -- before the first part that is not zero, the factor is not bounded by their number
    by_cases hzero : scale = 0
    · simp [hzero]
    · have hqq : (scale * |p|⁻¹) * (scale * |p|⁻¹) ≤ 1 := mul_le_one₀ hq1 hq0 hq1
      have hterm := mul_le_of_le_one_right hssq hqq
      have hcount := h.ssq_le_count hzero
      rw [mul_assoc]
      linarith

/-- Any other part is measured by the scale. -/
theorem concat_of_le (h : StandsFor scale ssq ps) (hp : p ≠ 0) (hle : |p| ≤ scale) :
    StandsFor scale (ssq + |p| * scale⁻¹ * (|p| * scale⁻¹)) (ps ++ [p]) := by
  have hpos : 0 < scale := (abs_pos.mpr hp).trans_le hle
  obtain ⟨hq0, hq1⟩ := quotient_le_one (abs_nonneg p) hpos hle
  refine h.concat hp (max_eq_left hle).symm ?_ ?_ ?_
  · rw [← sq_abs p]
    field_simp
  · have hterm := mul_nonneg hq0 hq0
    linarith [h.one_le]
  · have hterm := mul_le_one₀ hq1 hq0 hq1
    linarith [h.ssq_le_count hpos.ne']

end StandsFor

end Field

/-! ### The loop -/

section Loop
variable {K : Type} [ExactReal K]

namespace Kernel.ScaledSquares

/-- The state of the loop after some parts. -/
def of (ps : List K) : ScaledSquares K := ps.foldl add zero

theorem of_concat (ps : List K) (p : K) : of (ps ++ [p]) = (of ps).add p :=
  List.foldl_concat ..

/-- The dividend and the divisor of the quotient that a part brings up; a zero part brings up
none. -/
def ratio? (s : ScaledSquares K) (p : K) : Option (K × K) :=
  if p = 0 then none else if s.scale < |p| then some (s.scale, |p|) else some (|p|, s.scale)

/-- What a step of the loop does with a part, and with which quotient. -/
inductive Step (s : ScaledSquares K) (p : K) : Prop
  /-- A zero part is passed over. -/
  | skips (part : p = 0) (ratio : s.ratio? p = none) (next : s.add p = s)
  /-- A part larger than the scale becomes the scale. -/
  | grows (part : p ≠ 0) (lt : s.scale < |p|) (ratio : s.ratio? p = some (s.scale, |p|))
      (next : s.add p = ⟨|p|, 1 + s.ssq * (s.scale / |p|) * (s.scale / |p|)⟩)
  /-- Any other part is measured by the scale. -/
  | stays (part : p ≠ 0) (le : |p| ≤ s.scale) (ratio : s.ratio? p = some (|p|, s.scale))
      (next : s.add p = ⟨s.scale, s.ssq + |p| / s.scale * (|p| / s.scale)⟩)

/-- **Every step has at most one quotient**, and it is that of `ratio?`. -/
theorem step (s : ScaledSquares K) (p : K) : s.Step p := by
  by_cases hp : p = 0
  · exact .skips hp (if_pos hp) (if_pos (ExactReal.beq_iff.mpr hp))
  have hbeq : ¬ (p == 0) = true := fun h => hp (ExactReal.beq_iff.mp h)
  by_cases hlt : s.scale < |p|
  · exact .grows hp hlt ((if_neg hp).trans (if_pos hlt)) ((if_neg hbeq).trans (if_pos hlt))
  · exact .stays hp (not_lt.mp hlt) ((if_neg hp).trans (if_neg hlt))
      ((if_neg hbeq).trans (if_neg hlt))

variable {s : ScaledSquares K} {ps : List K} (h : StandsFor s.scale s.ssq ps)
include h

/-- **No quotient has a zero divisor, and all lie between zero and one.** -/
theorem ratio?_le_one {p a b : K} (hratio : s.ratio? p = some (a, b)) :
    b ≠ 0 ∧ 0 ≤ a / b ∧ a / b ≤ 1 := by
  obtain ⟨-, hr, -⟩ | ⟨hp, hlt, hr, -⟩ | ⟨hp, hle, hr, -⟩ := s.step p
  · cases hr.symm.trans hratio
  · cases hr.symm.trans hratio
    have hpos : 0 < |p| := abs_pos.mpr hp
    rw [ExactReal.div_eq _ hpos.ne']
    exact ⟨hpos.ne', quotient_le_one h.scale_nonneg hpos (le_of_lt hlt)⟩
  · cases hr.symm.trans hratio
    have hpos : 0 < s.scale := (abs_pos.mpr hp).trans_le hle
    rw [ExactReal.div_eq _ hpos.ne']
    exact ⟨hpos.ne', quotient_le_one (abs_nonneg p) hpos hle⟩

/-- **A step of the loop.** -/
theorem standsFor_add (p : K) : StandsFor (s.add p).scale (s.add p).ssq (ps ++ [p]) := by
  obtain ⟨rfl, -, hadd⟩ | ⟨hp, hlt, -, hadd⟩ | ⟨hp, hle, -, hadd⟩ := s.step p
  · rw [hadd]
    exact h.concat_zero
  · rw [hadd, ExactReal.div_eq _ (abs_pos.mpr hp).ne']
    exact h.concat_of_lt hlt
  · have hpos : 0 < s.scale := (abs_pos.mpr hp).trans_le hle
    rw [hadd, ExactReal.div_eq _ hpos.ne']
    exact h.concat_of_le hp hle

end Kernel.ScaledSquares

open Kernel.ScaledSquares

/-- **The loop**: after any parts, the state stands for the sum of their squares. -/
theorem standsFor_of (ps : List K) : StandsFor (of ps).scale (of ps).ssq ps := by
  induction ps using List.reverseRecOn with
  | nil => exact standsFor_nil
  | append_singleton ps p ih =>
    rw [of_concat]
    exact standsFor_add ih p

end Loop

/-! ### Norms and dot products of lists -/

section Lists
variable {K α : Type} [ExactReal K] [Scalar α K]

namespace Kernel

theorem norm_eq_root (xs : List α) : norm xs = (ScaledSquares.of (parts xs)).root := rfl

section Root
variable [ExactRoot K]

theorem norm_nonneg (xs : List α) : 0 ≤ norm xs := by
  have h := standsFor_of (parts xs)
  rw [norm_eq_root]
  exact mul_nonneg h.scale_nonneg (ExactRoot.root_nonneg (zero_le_one.trans h.one_le))

/-- **The square of the norm** is the sum of the squares of all parts. -/
theorem norm_sq (xs : List α) : norm xs ^ 2 = sumSquares (parts xs) := by
  have h := standsFor_of (parts xs)
  have hroot := ExactRoot.root_sq (zero_le_one.trans h.one_le)
  calc norm xs ^ 2
      = (ScaledSquares.of (parts xs)).scale ^ 2 *
          ExactReal.root (ScaledSquares.of (parts xs)).ssq ^ 2 := by
        rw [norm_eq_root]
        exact mul_pow _ _ 2
    _ = sumSquares (parts xs) := by rw [hroot, h.sum]

end Root

theorem sumSquares_parts_concat (xs : List α) (v : α) : sumSquares (parts (xs ++ [v])) =
    sumSquares (parts xs) + (Scalar.re v ^ 2 + Scalar.im v ^ 2) := by
  have hparts : parts (xs ++ [v]) = parts xs ++ [Scalar.re v] ++ [Scalar.im v] := by
    simp [parts]
  rw [hparts, sumSquares_concat, sumSquares_concat, add_assoc]

/-- The map `f` makes the product of an element with itself the sum of the squares of its parts, in
elements whose real axis adds like the reals. -/
structure SelfProduct (f : α → α) : Prop where
  ofReal_zero : (Scalar.ofReal (0 : K) : α) = 0
  ofReal_add : ∀ a b : K, (Scalar.ofReal (a + b) : α) = Scalar.ofReal a + Scalar.ofReal b
  mul_self : ∀ v : α, f v * v = Scalar.ofReal (Scalar.re v ^ 2 + Scalar.im v ^ 2)

/-- **The dot product of a list with itself** is the sum of the squares of all parts. -/
theorem SelfProduct.total_eq [Std.Associative (α := α) (· + ·)]
    [Std.LawfulIdentity (α := α) (· + ·) 0] {f : α → α} (hf : SelfProduct f) (plan : Schedule)
    (long : Bool) (xs : List α) :
    total plan long (products f xs xs) = Scalar.ofReal (sumSquares (parts xs)) := by
  rw [total_eq_foldl, products, List.zipWith_self]
  induction xs using List.reverseRecOn with
  | nil => exact hf.ofReal_zero.symm
  | append_singleton xs v ih =>
    rw [List.map_append, List.foldl_append, ih, sumSquares_parts_concat, hf.ofReal_add,
      ← hf.mul_self]
    rfl

theorem selfProduct_real : SelfProduct (id : K → K) where
  ofReal_zero := rfl
  ofReal_add _ _ := rfl
  mul_self v := by
    have h : v * v = v ^ 2 + 0 ^ 2 := by ring
    exact h

theorem selfProduct_complex : SelfProduct (Scalar.conj : Complex K → Complex K) where
  ofReal_zero := rfl
  ofReal_add := Complex.ofReal_add
  mul_self v := by
    have hre : v.re * v.re - -v.im * v.im = v.re ^ 2 + v.im ^ 2 := by ring
    have him : v.re * v.im + -v.im * v.re = 0 := by ring
    exact congrArg₂ Complex.mk hre him

end Kernel

end Lists

/-! ### Calls -/

/-- The first entry of a list is the first of a longer one. -/
theorem First.append {β : Type} {P : β → Prop} {l : List β} {b : β} (h : First P l b)
    (l' : List β) : First P (l ++ l') b := by
  obtain ⟨before, after, rfl, hbefore, hb⟩ := h
  exact ⟨before, after ++ l', by simp, hbefore, hb⟩

section Same
variable {rule : LengthRule} {len : UInt64} {m : Option UInt64} {v : VectorOptions}

/-- The same window given for two operands resolves as it does for one. -/
theorem resolveBinary_same {n : UInt64} {w : Window}
    (h : resolveUnary rule len ⟨m, v⟩ = some (.ok ⟨n, [w]⟩)) :
    resolveBinary rule len len ⟨m, v, v⟩ = some (.ok ⟨n, [w, w]⟩) := by
  obtain ⟨hws, hn, hfits⟩ := resolve_eq_ok_iff.mp h
  obtain ⟨⟨hvalid, hasks⟩, -⟩ := List.forall₂_cons.mp hws
  obtain ⟨hfit, -⟩ := List.forall₂_cons.mp hfits
  have hy : Operand.Valid ⟨"y", len, v⟩ ∧ Operand.Asks ⟨"y", len, v⟩ w :=
    ⟨⟨hvalid.increment_ne, hvalid.start_nonneg, hvalid.start_lt⟩, ⟨hasks.offset, hasks.inc⟩⟩
  refine resolve_eq_ok_iff.mpr ⟨.cons ⟨hvalid, hasks⟩ (.cons hy .nil), ?_,
    .cons hfit (.cons hfit .nil)⟩
  cases m <;> exact hn

/-- Whatever is wrong with the window is reported for the first operand. -/
theorem resolveBinary_same_of_error {e : Error}
    (h : resolveUnary rule len ⟨m, v⟩ = some (.error e)) :
    resolveBinary rule len len ⟨m, v, v⟩ = some (.error e) := by
  refine resolve_eq_error_iff.mpr ?_
  cases resolve_eq_error_iff.mp h with
  | invalid first => exact .invalid (first.append [⟨"y", len, v⟩])
  | short valid first length asks =>
    have hx : Operand.Valid ⟨"x", len, v⟩ := valid _ (by simp [unaryOperands])
    have hy : Operand.Valid ⟨"y", len, v⟩ := ⟨hx.increment_ne, hx.start_nonneg, hx.start_lt⟩
    have hlength : exactLength rule m (binaryOperands len len ⟨m, v, v⟩) =
        exactLength rule m (unaryOperands len ⟨m, v⟩) := by
      cases m <;> rfl
    refine .short ?_ ?_ (length.trans hlength.symm) asks
    · simpa [binaryOperands] using ⟨hx, hy⟩
    · rw [hlength]
      exact first.append [⟨"y", len, v⟩]

end Same

section Calls
variable {K α : Type} [ExactReal K]

/-- The answers to the norm of a vector and to its dot product with itself. Both calls fail with the
error of the resolver; or the norm is what the loop over all parts of the elements ends with, the
nonnegative root of the sum of their squares, and the dot product is its square. -/
inductive NormSquared [Scalar α K] (x : Buffer α) (resolution : Option (Except Error Resolved)) :
    Except Error (Answer α K) → Except Error (Answer α K) → Prop
  | refused (e : Error) (resolved : resolution = some (.error e)) :
      NormSquared x resolution (.error e) (.error e)
  | squared (n : UInt64) (w : Window) (r : K) (resolved : resolution = some (.ok ⟨n, [w]⟩))
      (loop : r = (Kernel.ScaledSquares.of (Kernel.parts (w.view n x).gather)).root)
      (nonneg : 0 ≤ r) (sum : r ^ 2 = sumSquares (Kernel.parts (w.view n x).gather)) :
      NormSquared x resolution (.ok (.real r)) (.ok (.scalar (Scalar.ofReal (r ^ 2))))

variable [Element α K]

/-- The norm of no elements is that of the empty list. -/
theorem UnaryOp.reply_nrm2 (plan : Schedule) (n : UInt64) (w : Window) (x : Buffer α) :
    UnaryOp.nrm2.reply plan n w x = .real (Kernel.norm (w.view n x).gather) := by
  unfold reply
  split_ifs with h0
  · subst h0
    have hzero : (0 : K) * ExactReal.root 1 = 0 := zero_mul _
    exact congrArg Answer.real hzero.symm
  · rfl

/-- The dot products that conjugate the first operand by `f`. -/
structure BinaryOp.Dots (op : BinaryOp α K) (f : α → α) : Prop where
  rule : op.operation.rule = .inclusive
  copies : op.operation.copies = false
  emptyAnswer : op.emptyAnswer = .scalar 0
  value : ∀ plan x y, op.value plan x y =
    .scalar (Kernel.total plan (Kernel.isLong x && y.isContiguous)
      (Kernel.products f x.gather y.gather))

variable [Std.Associative (α := α) (· + ·)] [Std.LawfulIdentity (α := α) (· + ·) 0]
  {op : BinaryOp α K} {f : α → α}

theorem BinaryOp.Dots.reply_self (h : op.Dots f) (hf : Kernel.SelfProduct f) (plan : Schedule)
    (n : UInt64) (w : Window) (x : Buffer α) : op.reply plan n w w x x =
      .scalar (Scalar.ofReal (sumSquares (Kernel.parts (w.view n x).gather))) := by
  unfold reply
  split_ifs with h0
  · subst h0
    exact h.emptyAnswer.trans (congrArg Answer.scalar hf.ofReal_zero.symm)
  · rw [h.value, hf.total_eq]

/-- **The norm and the dot product of a vector with itself.** -/
theorem BinaryOp.Dots.normSquared [ExactRoot K] (h : op.Dots f) (hf : Kernel.SelfProduct f)
    (hs : Operation.nrm2.row.supported.supports (Element.precision α))
    (hs' : op.operation.row.supported.supports (Element.precision α)) (plan plan' : Schedule)
    (x : Buffer α) (m : Option UInt64) (v : VectorOptions) :
    ∃ o o', UnaryOp.nrm2.run plan x ⟨m, v⟩ = some o ∧ op.run plan' x x ⟨m, v, v⟩ = some o' ∧
      NormSquared x (resolveUnary .inclusive x.len ⟨m, v⟩) o.answer o'.answer := by
  obtain ⟨sel, hsel⟩ := exists_select hs
  obtain ⟨sel', hsel'⟩ := exists_select hs'
  obtain ⟨res, hres⟩ : ∃ res, resolveUnary .inclusive x.len ⟨m, v⟩ = some res :=
    exists_resolve _ _ _
  cases res with
  | error e =>
    have hres' := resolveBinary_same_of_error hres
    rw [← h.rule] at hres'
    exact ⟨_, _, UnaryOp.run_of_refused plan hsel hres, run_of_refused plan' hsel' hres',
      .refused e hres⟩
  | ok r =>
    obtain ⟨w, hr, -⟩ := window_of_resolveUnary hres
    rw [hr] at hres
    have hres' := resolveBinary_same hres
    rw [← h.rule] at hres'
    refine ⟨_, _, UnaryOp.run_of_resolved plan hsel hres, run_of_resolved plan' hsel' hres', ?_⟩
    have hnorm := Kernel.norm_sq (w.view r.n x).gather
    have hanswer : (UnaryOp.nrm2.outcome plan sel r.n w x).answer =
        .ok (.real (Kernel.norm (w.view r.n x).gather)) :=
      congrArg Except.ok (UnaryOp.reply_nrm2 plan r.n w x)
    have hanswer' : (op.outcome plan' sel' r.n w w x x).answer =
        .ok (.scalar (Scalar.ofReal (Kernel.norm (w.view r.n x).gather ^ 2))) := by
      rw [answer_of_not_copies plan' sel' r.n w w x x (by simp [h.copies]), hnorm,
        h.reply_self hf plan']
    rw [hanswer, hanswer']
    exact .squared r.n w _ hres (Kernel.norm_eq_root _) (Kernel.norm_nonneg _) hnorm

end Calls

variable {K : Type} [ExactReal K]

open Kernel.ScaledSquares in
/-- **The norm is the Euclidean norm and agrees with the dot products.** Throughout the loop the
square of the scale times the factor is the sum of the squares of the parts seen so far, the scale
is the largest of their absolute values, and the factor lies between one and the number of parts
that are not zero. A step forms at most one quotient; it has a divisor that is not zero, and lies
between zero and one. The norm is what the loop ends with, and is the nonnegative root of the sum of all squares; its square is the dot product of a real
vector with itself, and, on the real axis, the conjugated one of a complex vector. -/
theorem euclidean_norm [ExactRoot K] (w : Width) (plan plan' : Schedule) :
    (∀ ps : List K, StandsFor (of ps).scale (of ps).ssq ps ∧ (∀ p, (of ps).Step p) ∧
      ∀ p a b, (of ps).ratio? p = some (a, b) → b ≠ 0 ∧ 0 ≤ a / b ∧ a / b ≤ 1) ∧
    (∀ (x : Buffer K) (n : Option UInt64) (v : VectorOptions),
      ∃ o o', UnaryOp.nrm2.runReal w plan x ⟨n, v⟩ = some o ∧
        BinaryOp.dot.runReal w plan' x x ⟨n, v, v⟩ = some o' ∧
        NormSquared x (resolveUnary .inclusive x.len ⟨n, v⟩) o.answer o'.answer) ∧
    ∀ (x : Buffer (Complex K)) (n : Option UInt64) (v : VectorOptions),
      ∃ o o', UnaryOp.nrm2.runComplex w plan x ⟨n, v⟩ = some o ∧
        BinaryOp.dotc.runComplex w plan' x x ⟨n, v, v⟩ = some o' ∧
        NormSquared x (resolveUnary .inclusive x.len ⟨n, v⟩) o.answer o'.answer := by
  let _ : Element K K := Element.real w
  let _ : Element (Complex K) K := Element.complex w
  have hreal : Operation.nrm2.row.supported.supports w.real ∧
      Operation.dot.row.supported.supports w.real := by
    cases w <;> decide
  have hcomplex : Operation.nrm2.row.supported.supports w.complex ∧
      Operation.dotc.row.supported.supports w.complex := by
    cases w <;> decide
  have hdot : BinaryOp.Dots (α := K) .dot id := ⟨rfl, rfl, rfl, fun _ _ _ => rfl⟩
  have hdotc : BinaryOp.Dots (α := Complex K) .dotc Scalar.conj :=
    ⟨rfl, rfl, rfl, fun _ _ _ => rfl⟩
  exact ⟨fun ps => ⟨standsFor_of ps, (of ps).step, fun p a b => ratio?_le_one (standsFor_of ps)⟩,
    hdot.normSquared Kernel.selfProduct_real hreal.1 hreal.2 plan plan',
    hdotc.normSquared Kernel.selfProduct_complex hcomplex.1 hcomplex.2 plan plan'⟩

/-- Two complex elements, read backwards and two cells apart: the norm is `13`. -/
theorem euclidean_norm_backwards :
    let _ : ExactReal ℝ := .reals
    ∃ (x : Buffer (Complex ℝ)) (v : VectorOptions) (o : Outcome (Buffer (Complex ℝ)) (Complex ℝ) ℝ)
        (o' : Outcome (Buffer (Complex ℝ) × Buffer (Complex ℝ)) (Complex ℝ) ℝ),
      x.cells = #[⟨3, 4⟩, ⟨7, 7⟩, ⟨0, -12⟩] ∧ v = ⟨none, some (-2)⟩ ∧
      UnaryOp.nrm2.runComplex .w64 .sequential x ⟨none, v⟩ = some o ∧
      BinaryOp.dotc.runComplex .w64 .sequential x x ⟨none, v, v⟩ = some o' ∧
      o.answer = .ok (.real 13) ∧ o'.answer = .ok (.scalar ⟨13 ^ 2, 0⟩) := by
  let _ : ExactReal ℝ := .reals
  have _ : ExactRoot ℝ := .reals
  let x : Buffer (Complex ℝ) := ⟨#[⟨3, 4⟩, ⟨7, 7⟩, ⟨0, -12⟩], by decide⟩
  obtain ⟨o, o', ho, ho', hsq⟩ := (euclidean_norm (K := ℝ) .w64 .sequential .sequential).2.2 x none
    ⟨none, some (-2)⟩
  have hres : resolveUnary .inclusive x.len ⟨none, ⟨none, some (-2)⟩⟩ =
      some (.ok ⟨2, [⟨0, -2⟩]⟩) := by
    decide
  refine ⟨x, _, o, o', rfl, rfl, ho, ho', ?_⟩
  generalize o.answer = a at hsq
  generalize o'.answer = a' at hsq
  cases hsq with
  | refused e hres' => cases hres.symm.trans hres'
  | squared n w r hres' _ hr hsum =>
    cases hres.symm.trans hres'
    have hgather : ((⟨0, -2⟩ : Window).view 2 x).gather = [⟨0, -12⟩, ⟨3, 4⟩] := rfl
    rw [hgather] at hsum
    have hparts : sumSquares (Kernel.parts [(⟨0, -12⟩ : Complex ℝ), ⟨3, 4⟩]) = 13 ^ 2 := by
      simp only [sumSquares, Kernel.parts, Scalar.re, Scalar.im, List.flatMap_cons,
        List.flatMap_nil, List.cons_append, List.nil_append, List.map_cons, List.map_nil,
        List.sum_cons, List.sum_nil]
      norm_num
    have hr13 : r = 13 := (sq_eq_sq₀ hr (by norm_num)).mp (hsum.trans hparts)
    subst hr13
    exact ⟨rfl, rfl⟩

end Strided
