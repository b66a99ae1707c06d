import Mathlib.Algebra.Order.Field.Basic
import Mathlib.Algebra.Order.Ring.Rat
import Mathlib.Data.Rat.Defs
import Mathlib.Tactic.Ring
import Strided.Proofs.Kernel

/-! # Exact arithmetic

The kernels ask of a scalar its operations and no laws. In an ordered field the operations have
them, and the kernels compute what their formulas say. `ExactReal K` makes an ordered field into
real scalars. It leaves open what a quotient by zero is, so a law that holds in all of these scalars
does not rest on such a quotient. `ExactRing K` asks for the laws of a commutative ring only.

* `div_eq`: the quotient by anything else is that of the field.
* `twoPow_eq`: the powers of two that are formed by doubling.
* `Grouping.reduce_eq_foldl`, `total_eq_foldl`: a sum is the same under every schedule. -/

namespace Strided

/-- The quotient of a number by one that is not smaller. -/
theorem quotient_le_one {F : Type} [Field F] [LinearOrder F] [IsStrictOrderedRing F] {a b : F}
    (ha : 0 ≤ a) (hb : 0 < b) (hab : a ≤ b) : 0 ≤ a * b⁻¹ ∧ a * b⁻¹ ≤ 1 := by
  refine ⟨mul_nonneg ha (inv_pos.mpr hb).le, ?_⟩
  rwa [mul_inv_le_iff₀ hb, one_mul]

/-- Exact real numbers: an ordered field, with functions in the places of the quotient by zero and
of the square root. -/
class ExactReal (K : Type) extends Field K, LinearOrder K where
  [toIsStrictOrderedRing : IsStrictOrderedRing K]
  /-- The quotient by zero. -/
  overZero : K → K
  /-- The square root. -/
  root : K → K

attribute [instance] ExactReal.toIsStrictOrderedRing

namespace ExactReal

variable {K : Type} [ExactReal K]

instance toRealScalar : RealScalar K where
  zero := 0
  one := 1
  add a b := a + b
  sub a b := a - b
  mul a b := a * b
  div a b := if b = 0 then overZero a else a / b
  neg a := -a
  lt a b := a < b
  le a b := a ≤ b
  beq a b := decide (a = b)
  decidableLT := fun a b => inferInstanceAs (Decidable (a < b))
  decidableLE := fun a b => inferInstanceAs (Decidable (a ≤ b))
  abs a := |a|
  sqrt := root
  hypot a b := root (a * a + b * b)

/-- The rational numbers. The root of a square is exact. -/
@[reducible] def rational : ExactReal ℚ where
  overZero _ := 0
  root t := (t.num.toNat.sqrt : ℚ) / t.den.sqrt

theorem div_eq (a : K) {b : K} (h : b ≠ 0) : a / b = a * b⁻¹ :=
  (if_neg h).trans (div_eq_mul_inv a b)

theorem beq_iff {a b : K} : (a == b) = true ↔ a = b := decide_eq_true_iff

theorem twoPow_eq (k : ℕ) : (RealScalar.twoPow k : K) = 2 ^ k := by
  induction k with
  | zero => exact (pow_zero _).symm
  | succ k ih =>
    rw [RealScalar.twoPow, ih, pow_succ]
    exact (mul_two _).symm

end ExactReal

/-- Exact numbers of a commutative ring. What a ring does not have, such as a quotient and an order,
is as in some other real scalars. -/
class ExactRing (K : Type) extends CommRing K where
  /-- The scalars with the other operations. -/
  rest : RealScalar K

namespace ExactRing

instance toRealScalar {K : Type} [ExactRing K] : RealScalar K where
  zero := 0
  one := 1
  add a b := a + b
  sub a b := a - b
  mul a b := a * b
  div := rest.div
  neg a := -a
  lt := rest.lt
  le := rest.le
  beq := rest.beq
  decidableLT := rest.decidableLT
  decidableLE := rest.decidableLE
  abs := rest.abs
  sqrt := rest.sqrt
  hypot := rest.hypot

/-- The rational numbers. -/
@[reducible] def rational : ExactRing ℚ where
  rest := @ExactReal.toRealScalar ℚ ExactReal.rational

end ExactRing

/-! ### Sums -/

/-- **Every grouping of an associative operation is the left fold** over the terms. -/
theorem Grouping.reduce_eq_foldl {β : Type} (op : β → β → β) (e : β) [Std.Associative op]
    [Std.LawfulIdentity op e] (g : Grouping β) : g.reduce op e = g.leaves.foldl op e := by
  induction g with
  | unit => rfl
  | leaf b => exact (Std.LawfulLeftIdentity.left_id b).symm
  | node l r ihl ihr =>
    have hl : op (l.leaves.foldl op e) e = l.leaves.foldl op e :=
      Std.LawfulRightIdentity.right_id _
    rw [reduce, leaves, List.foldl_append, ihl, ihr]
    conv_rhs => rw [← hl]
    exact List.foldl_assoc.symm

theorem Kernel.total_eq_foldl {β : Type} [Zero β] [Add β] [Std.Associative (α := β) (· + ·)]
    [Std.LawfulIdentity (α := β) (· + ·) 0] (plan : Schedule) (long : Bool) (terms : List β) :
    total plan long terms = terms.foldl (· + ·) 0 := by
  unfold total
  split_ifs
  · rw [Schedule.reduce, Grouping.reduce_eq_foldl, plan.leaves_group]
  · rfl

end Strided
