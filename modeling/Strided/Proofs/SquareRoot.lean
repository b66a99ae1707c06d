import Mathlib.Analysis.Real.Sqrt
import Strided.Proofs.Exact

/-! # Square roots in exact arithmetic

An exact real scalar may have any function in the place of its square root. `ExactRoot` says that
it is the nonnegative root of every nonnegative number; an ordered field has at most one such
function. The hypotenuse and the modulus of a complex number are then lengths.

* `hypot_sq`: the square of a hypotenuse.
* `hypot_eq`: no other nonnegative number has this square.
* `Complex.modulus_sq`: the square of the modulus. -/

namespace Strided

/-- The square root of a nonnegative number is nonnegative, and its square is the number. -/
class ExactRoot (K : Type) [ExactReal K] : Prop where
  root_nonneg {t : K} : 0 ≤ t → 0 ≤ ExactReal.root t
  root_sq {t : K} : 0 ≤ t → ExactReal.root t ^ 2 = t

/-- The real numbers. -/
@[reducible] noncomputable def ExactReal.reals : ExactReal ℝ where
  overZero _ := 0
  root := Real.sqrt

theorem ExactRoot.reals : @ExactRoot ℝ ExactReal.reals :=
  let _ : ExactReal ℝ := .reals
  ⟨fun _ => Real.sqrt_nonneg _, fun h => Real.sq_sqrt h⟩

variable {K : Type} [ExactReal K] [ExactRoot K]

open ExactRoot

section Hypot
variable (a b : K)

theorem hypot_nonneg : 0 ≤ RealScalar.hypot a b :=
  root_nonneg (add_nonneg (mul_self_nonneg a) (mul_self_nonneg b))

theorem hypot_sq : RealScalar.hypot a b ^ 2 = a ^ 2 + b ^ 2 := by
  have hsum : 0 ≤ a * a + b * b := add_nonneg (mul_self_nonneg a) (mul_self_nonneg b)
  have hroot : ExactReal.root (a * a + b * b) ^ 2 = a ^ 2 + b ^ 2 := by
    rw [root_sq hsum, sq, sq]
  exact hroot

variable {a b}

theorem hypot_eq {t : K} (ht : 0 ≤ t) (h : t ^ 2 = a ^ 2 + b ^ 2) : RealScalar.hypot a b = t :=
  (sq_eq_sq₀ (hypot_nonneg a b) ht).mp ((hypot_sq a b).trans h.symm)

theorem hypot_pos (h : a ≠ 0 ∨ b ≠ 0) : 0 < RealScalar.hypot a b := by
  have hsum : 0 < a ^ 2 + b ^ 2 := by
    rcases h with ha | hb
    · exact add_pos_of_pos_of_nonneg (sq_pos_of_ne_zero ha) (sq_nonneg b)
    · exact add_pos_of_nonneg_of_pos (sq_nonneg a) (sq_pos_of_ne_zero hb)
  rw [← hypot_sq a b] at hsum
  exact (sq_pos_iff.mp hsum).lt_of_le' (hypot_nonneg a b)

theorem le_hypot (ha : 0 ≤ a) : a ≤ RealScalar.hypot a b := by
  rw [← sq_le_sq₀ ha (hypot_nonneg a b), hypot_sq]
  exact le_add_of_nonneg_right (sq_nonneg b)

end Hypot

namespace Complex

theorem modulus_nonneg (z : Complex K) : 0 ≤ Scalar.modulus z := hypot_nonneg z.re z.im

theorem modulus_sq (z : Complex K) : Scalar.modulus z ^ 2 = z.re ^ 2 + z.im ^ 2 :=
  hypot_sq z.re z.im

end Complex

end Strided
