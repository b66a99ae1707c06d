import Mathlib.Data.Sign.Basic
import Mathlib.Tactic.FieldSimp
import Mathlib.Tactic.LinearCombination
import Strided.Proofs.RealAxis
import Strided.Proofs.SquareRoot

/-! # Plane rotations in exact arithmetic

With exact square roots the rotations do what they are for: they keep lengths and send `(a, b)` to a
pair with second part zero. The real rotation divides by the length of `(a, b)` with the sign of the
larger number; the complex one divides by the length and turns by the direction of `a`. On the real
axis this makes a difference of sign and no other.

* `Givens.scaledNorm_eq`: dividing by a scale before squaring does not change a length.
* `Givens.radius_eq`, `Givens.exists_zeroes`: the real rotation.
* `Givens.complex_eq`, `Givens.zeroesComplex`: the complex rotation.
* `Givens.realQuotients`, `Givens.complexQuotients`: by which numbers they divide.
* `Givens.commonSign_eq`, `Givens.complex_ofReal_eq`: the real axis.
* `BinaryOp.run_single`: calls on vectors of one element.
* `plane_rotation`, `real_axis_rotation`: the calls. -/

namespace Strided

/-! ### Fields -/

section Field
variable {F : Type} [Field F]

theorem rotation_of_sq {a b r : F} (hr : r ≠ 0) (h : r ^ 2 = a ^ 2 + b ^ 2) :
    (a * r⁻¹) ^ 2 + (b * r⁻¹) ^ 2 = 1 ∧ a * (a * r⁻¹) + b * (b * r⁻¹) = r ∧
      b * (a * r⁻¹) - a * (b * r⁻¹) = 0 := by
  refine ⟨?_, ?_, by ring⟩
  · field_simp
    exact h.symm
  · field_simp
    exact h.symm

/-- A factor in front cancels with itself in the divisor. -/
theorem mul_sign_cancel {σ : F} (hσ : σ ≠ 0) (p t r : F) :
    p * σ * (t * (σ * r)⁻¹) = p * t * r⁻¹ := by
  rw [mul_inv]
  field_simp

/-! The numbers `A u + i A v` and `x + i y`, with a direction `u + i v` of length one, form a pair
of length `N`, and `M` is the inverse of it. -/

section Polar
variable {A M N x y u v : F}

theorem polar_unit (hphase : u ^ 2 + v ^ 2 = 1) (hM : N * M = 1)
    (hN : N ^ 2 = A ^ 2 + (x ^ 2 + y ^ 2)) :
    (A * M) ^ 2 + (((u * x - v * -y) * M) ^ 2 + ((u * -y + v * x) * M) ^ 2) = 1 := by
  linear_combination (x ^ 2 + y ^ 2) * M ^ 2 * hphase - M ^ 2 * hN + (N * M + 1) * hM

theorem polar_first (u v : F) (hM : N * M = 1) (hN : N ^ 2 = A ^ 2 + (x ^ 2 + y ^ 2)) :
    A * u * (A * M) + ((u * x - v * -y) * M * x - (u * -y + v * x) * M * y) = u * N ∧
      A * v * (A * M) + ((u * x - v * -y) * M * y + (u * -y + v * x) * M * x) = v * N := by
  constructor
  · linear_combination -(M * u) * hN + u * N * hM
  · linear_combination -(M * v) * hN + v * N * hM

theorem polar_second (A M x y : F) (hphase : u ^ 2 + v ^ 2 = 1) :
    x * (A * M) - ((u * x - v * -y) * M * (A * u) - -((u * -y + v * x) * M) * (A * v)) = 0 ∧
      y * (A * M) - ((u * x - v * -y) * M * (A * v) + -((u * -y + v * x) * M) * (A * u)) = 0 := by
  constructor
  · linear_combination -(x * A * M) * hphase
  · linear_combination -(y * A * M) * hphase

end Polar

end Field

/-! ### Lengths -/

section Length
variable {K : Type} [ExactReal K] [ExactRoot K]

/-- Dividing by a scale first does not change a length. -/
theorem Givens.scaledNorm_eq {scale : K} (h : 0 < scale) (a b : K) :
    scaledNorm scale a b = RealScalar.hypot a b := by
  have hdiv : scaledNorm scale a b =
      scale * RealScalar.hypot (a * scale⁻¹) (b * scale⁻¹) := by
    unfold scaledNorm
    rw [ExactReal.div_eq _ h.ne', ExactReal.div_eq _ h.ne']
    rfl
  rw [hdiv]
  refine (hypot_eq (mul_nonneg h.le (hypot_nonneg _ _)) ?_).symm
  rw [mul_pow, hypot_sq]
  field_simp

theorem Complex.modulus_ofReal (a : K) : Scalar.modulus (Complex.ofReal a) = |a| := by
  have hsq : |a| ^ 2 = a ^ 2 + 0 ^ 2 := by rw [sq_abs, zero_pow two_ne_zero, add_zero]
  exact hypot_eq (abs_nonneg a) hsq

end Length

namespace Givens

/-! ### Real rotations -/

section Real
variable {K : Type} [ExactReal K]

/-- The rotation by `c` and `s` sends `(a, b)` to `(r, 0)`. -/
structure Zeroes (a b c s r : K) : Prop where
  unit : c ^ 2 + s ^ 2 = 1
  image : rotatePair c s a b = (r, 0)

/-- The number whose sign the radius takes. -/
def larger (a b : K) : K := if |b| < |a| then a else b

/-- The first part of the image of `(a, b)`. -/
def radius (a b : K) : K :=
  if larger a b < 0 then -scaledNorm (|a| + |b|) a b else scaledNorm (|a| + |b|) a b

/-- The divisors that come up. -/
def realDivisors (a b : K) : List K :=
  if |a| + |b| = 0 then [] else [|a| + |b|, radius a b]

/-- How the cosine and the sine are formed: there is nothing to divide by, or each quotient has one
of the divisors. -/
inductive RealQuotients (a b c s : K) : Prop
  | trivial (divisors_eq : realDivisors a b = []) (cos : c = 1) (sin : s = 0)
  | divided (scale norm r : K) (divisors_eq : realDivisors a b = [scale, r])
      (scale_eq : scale = |a| + |b|)
      (norm_eq : norm =
        scale * RealScalar.sqrt (a / scale * (a / scale) + b / scale * (b / scale)))
      (r_eq : r = -norm ∨ r = norm) (cos : c = a / r) (sin : s = b / r)

variable {a b : K}

/-- A rotation keeps the length of a pair. -/
theorem Zeroes.radius_sq {c s r : K} (h : Zeroes a b c s r) : r ^ 2 = a ^ 2 + b ^ 2 := by
  have hfirst : a * c + b * s = r := congrArg Prod.fst h.image
  have hsecond : b * c - a * s = 0 := congrArg Prod.snd h.image
  linear_combination (-(a * c + b * s) - r) * hfirst - (b * c - a * s) * hsecond +
    (a ^ 2 + b ^ 2) * h.unit

theorem scale_pos (h : a ≠ 0 ∨ b ≠ 0) : 0 < |a| + |b| := by
  rcases h with ha | hb
  · exact add_pos_of_pos_of_nonneg (abs_pos.mpr ha) (abs_nonneg b)
  · exact add_pos_of_nonneg_of_pos (abs_nonneg a) (abs_pos.mpr hb)

theorem larger_ne_zero (h : a ≠ 0 ∨ b ≠ 0) : larger a b ≠ 0 := by
  unfold larger
  split_ifs with hlt
  · exact abs_pos.mp ((abs_nonneg b).trans_lt hlt)
  · rintro rfl
    rw [abs_zero, abs_pos] at hlt
    exact h.elim hlt fun hb => hb rfl

theorem real_of_scale_ne (h : |a| + |b| ≠ 0) :
    real a b = (a / radius a b, b / radius a b) := by
  have hscale : ¬ (|a| + |b| == 0) = true := fun h0 => h (ExactReal.beq_iff.mp h0)
  exact if_neg hscale

theorem real_of_scale_eq (h : |a| + |b| = 0) : real a b = (1, 0) :=
  if_pos (ExactReal.beq_iff.mpr h)

theorem real_eq (h : a ≠ 0 ∨ b ≠ 0) : real a b = (a / radius a b, b / radius a b) :=
  real_of_scale_ne (scale_pos h).ne'

theorem real_zero : real (0 : K) 0 = (1, 0) :=
  real_of_scale_eq (by simp)

theorem realQuotients (a b : K) : RealQuotients a b (real a b).1 (real a b).2 := by
  by_cases h : |a| + |b| = 0
  · rw [real_of_scale_eq h]
    exact .trivial (if_pos h) rfl rfl
  · rw [real_of_scale_ne h]
    exact .divided _ _ _ (if_neg h) rfl rfl (ite_eq_or_eq _ _ _) rfl rfl

theorem sign_sq {x : K} (h : x ≠ 0) : (SignType.sign x : K) ^ 2 = 1 := by
  rcases h.lt_or_gt with hlt | hgt
  · simp [sign_neg hlt]
  · simp [sign_pos hgt]

theorem sign_ne_zero {x : K} (h : x ≠ 0) : (SignType.sign x : K) ≠ 0 := by
  refine (pow_ne_zero_iff two_ne_zero).mp ?_
  rw [sign_sq h]
  exact one_ne_zero

variable [ExactRoot K]

/-- **The radius** is the length of the pair, with a sign. -/
theorem radius_eq (h : a ≠ 0 ∨ b ≠ 0) :
    radius a b = SignType.sign (larger a b) * RealScalar.hypot a b := by
  unfold radius
  rw [scaledNorm_eq (scale_pos h)]
  rcases (larger_ne_zero h).lt_or_gt with hlt | hgt
  · rw [if_pos hlt, sign_neg hlt]
    simp
  · rw [if_neg hgt.not_gt, sign_pos hgt]
    simp

/-- A first number that is zero leaves the second as it is. -/
theorem radius_zero_left (hb : b ≠ 0) : radius 0 b = b := by
  have hlarger : larger 0 b = b := if_neg (by rw [abs_zero]; exact (abs_nonneg b).not_gt)
  have hhypot : RealScalar.hypot 0 b = |b| :=
    hypot_eq (abs_nonneg b) (by rw [sq_abs, zero_pow two_ne_zero, zero_add])
  rw [radius_eq (Or.inr hb), hlarger, hhypot, sign_mul_abs]

theorem radius_sq (h : a ≠ 0 ∨ b ≠ 0) : radius a b ^ 2 = a ^ 2 + b ^ 2 := by
  rw [radius_eq h, mul_pow, sign_sq (larger_ne_zero h), one_mul, hypot_sq]

theorem radius_ne_zero (h : a ≠ 0 ∨ b ≠ 0) : radius a b ≠ 0 := by
  rw [radius_eq h]
  exact mul_ne_zero (sign_ne_zero (larger_ne_zero h)) (hypot_pos h).ne'

theorem sign_radius (h : a ≠ 0 ∨ b ≠ 0) :
    SignType.sign (radius a b) = SignType.sign (larger a b) := by
  rw [radius_eq h, sign_mul, sign_pos (hypot_pos h), mul_one]
  rcases (larger_ne_zero h).lt_or_gt with hlt | hgt
  · simp [sign_neg hlt]
  · simp [sign_pos hgt]

/-- **The real rotation.** -/
theorem exists_zeroes (a b : K) : ∃ r, Zeroes a b (real a b).1 (real a b).2 r ∧
    (a ≠ 0 ∨ b ≠ 0 → SignType.sign r = SignType.sign (larger a b)) := by
  by_cases h : a ≠ 0 ∨ b ≠ 0
  · have hr := radius_ne_zero h
    refine ⟨radius a b, ?_, fun _ => sign_radius h⟩
    rw [real_eq h, ExactReal.div_eq _ hr, ExactReal.div_eq _ hr]
    obtain ⟨hunit, hfirst, hsecond⟩ := rotation_of_sq hr (radius_sq h)
    exact ⟨hunit, Prod.ext hfirst hsecond⟩
  · obtain ⟨rfl, rfl⟩ : a = 0 ∧ b = 0 := by simpa only [not_or, not_not] using h
    refine ⟨0, ?_, fun h' => absurd h' h⟩
    rw [real_zero]
    have hunit : (1 : K) ^ 2 + 0 ^ 2 = 1 := by ring
    have hfirst : (0 : K) * 1 + 0 * 0 = 0 := by ring
    have hsecond : (0 : K) * 1 - 0 * 0 = 0 := by ring
    exact ⟨hunit, Prod.ext hfirst hsecond⟩

theorem realDivisors_ne_zero (a b : K) : ∀ d ∈ realDivisors a b, d ≠ 0 := by
  unfold realDivisors
  split_ifs with hscale
  · exact fun d hd => absurd hd List.not_mem_nil
  · have h : a ≠ 0 ∨ b ≠ 0 := by
      by_contra h
      simp only [not_or, not_not] at h
      exact hscale (by simp [h.1, h.2])
    simp [hscale, radius_ne_zero h]

end Real

/-! ### Complex rotations -/

section Complex
variable {K : Type} [ExactReal K]

/-- The rotation by the real `c` and the complex `s` sends `(a, b)` to a pair with second part zero,
and keeps lengths. -/
structure ZeroesComplex (a b : Complex K) (c : K) (s : Complex K) : Prop where
  nonneg : 0 ≤ c
  le_one : c ≤ 1
  unit : c ^ 2 + Scalar.modulus s ^ 2 = 1
  second : Scalar.mulReal b c - Scalar.conj s * a = 0
  first : Scalar.modulus (Scalar.mulReal a c + s * b) ^ 2 =
    Scalar.modulus a ^ 2 + Scalar.modulus b ^ 2

/-- The divisors that come up. -/
def complexDivisors (a b : Complex K) : List K :=
  let absA := Scalar.modulus a
  let absB := Scalar.modulus b
  if absA = 0 then [] else [absA + absB, absA, scaledNorm (absA + absB) absA absB]

/-- How the cosine and the sine are formed: there is nothing to divide by, or each quotient has one
of the divisors. -/
inductive ComplexQuotients (a b : Complex K) (c : K) (s : Complex K) : Prop
  | trivial (divisors_eq : complexDivisors a b = []) (cos : c = 0) (sin : s = 1)
  | divided (scale absA absB norm : K) (divisors_eq : complexDivisors a b = [scale, absA, norm])
      (scale_eq : scale = absA + absB) (absA_eq : absA = Scalar.modulus a)
      (absB_eq : absB = Scalar.modulus b)
      (norm_eq : norm =
        scale * RealScalar.sqrt (absA / scale * (absA / scale) + absB / scale * (absB / scale)))
      (cos : c = absA / norm)
      (sin : s = Scalar.mulReal (Scalar.mulReal a (1 / absA) * Scalar.conj b) (1 / norm))

/-- The direction of a number that is not zero. -/
def phase (a : Complex K) : Complex K := Scalar.mulReal a (Scalar.modulus a)⁻¹

/-- The length of a pair. -/
def length (a b : Complex K) : K := RealScalar.hypot (Scalar.modulus a) (Scalar.modulus b)

variable {a : Complex K}

theorem complex_of_modulus_eq_zero (h : Scalar.modulus a = 0) (b : Complex K) :
    complex a b = (0, 1) :=
  if_pos (ExactReal.beq_iff.mpr h)

theorem complex_of_modulus_ne_zero (h : Scalar.modulus a ≠ 0) (b : Complex K) :
    complex a b =
      (Scalar.modulus a / scaledNorm (Scalar.modulus a + Scalar.modulus b) (Scalar.modulus a)
          (Scalar.modulus b),
        Scalar.mulReal (Scalar.mulReal a (1 / Scalar.modulus a) * Scalar.conj b)
          (1 / scaledNorm (Scalar.modulus a + Scalar.modulus b) (Scalar.modulus a)
            (Scalar.modulus b))) := by
  have hbeq : ¬ (Scalar.modulus a == 0) = true := fun h0 => h (ExactReal.beq_iff.mp h0)
  exact if_neg hbeq

theorem complexQuotients (a b : Complex K) :
    ComplexQuotients a b (complex a b).1 (complex a b).2 := by
  by_cases h : Scalar.modulus a = 0
  · rw [complex_of_modulus_eq_zero h]
    exact .trivial (if_pos h) rfl rfl
  · rw [complex_of_modulus_ne_zero h]
    exact .divided _ _ _ _ (if_neg h) rfl rfl rfl rfl rfl rfl

theorem modulus_mul_phase (h : Scalar.modulus a ≠ 0) :
    Scalar.modulus a * (phase a).re = a.re ∧ Scalar.modulus a * (phase a).im = a.im := by
  have hcancel : ∀ t : K, Scalar.modulus a * (t * (Scalar.modulus a)⁻¹) = t := by
    intro t
    rw [mul_left_comm, mul_inv_cancel₀ h, mul_one]
  exact ⟨hcancel a.re, hcancel a.im⟩

variable [ExactRoot K]

theorem modulus_add_pos (h : Scalar.modulus a ≠ 0) (b : Complex K) :
    0 < Scalar.modulus a + Scalar.modulus b :=
  add_pos_of_pos_of_nonneg ((Complex.modulus_nonneg a).lt_of_ne' h) (Complex.modulus_nonneg b)

theorem length_pos (h : Scalar.modulus a ≠ 0) (b : Complex K) : 0 < length a b :=
  hypot_pos (Or.inl h)

theorem length_sq (a b : Complex K) :
    length a b ^ 2 = Scalar.modulus a ^ 2 + (b.re ^ 2 + b.im ^ 2) := by
  rw [length, hypot_sq, Complex.modulus_sq b]

theorem phase_sq (h : Scalar.modulus a ≠ 0) : (phase a).re ^ 2 + (phase a).im ^ 2 = 1 := by
  have hsq : (a.re * (Scalar.modulus a)⁻¹) ^ 2 + (a.im * (Scalar.modulus a)⁻¹) ^ 2 = 1 := by
    rw [mul_pow, mul_pow, ← add_mul, ← Complex.modulus_sq, ← mul_pow, mul_inv_cancel₀ h, one_pow]
  exact hsq

theorem complex_eq (h : Scalar.modulus a ≠ 0) (b : Complex K) :
    complex a b = (Scalar.modulus a * (length a b)⁻¹,
      Scalar.mulReal (phase a * Scalar.conj b) (length a b)⁻¹) := by
  have hone : ∀ t : K, 1 * t = t := one_mul
  have hlength := (length_pos h b).ne'
  unfold length at hlength
  rw [complex_of_modulus_ne_zero h, scaledNorm_eq (modulus_add_pos h b), ExactReal.div_eq _ h, ExactReal.div_eq _ hlength,
    ExactReal.div_eq _ hlength, hone, hone]
  rfl

/-- Without a first number, the pair is swapped. -/
theorem zeroesComplex_of_modulus_eq_zero (h : Scalar.modulus a = 0) (b : Complex K) :
    ZeroesComplex a b 0 1 := by
  have hsum : a.re ^ 2 + a.im ^ 2 = 0 := by
    rw [← Complex.modulus_sq, h, zero_pow two_ne_zero]
  obtain ⟨hre, him⟩ : a.re = 0 ∧ a.im = 0 := by
    rw [add_eq_zero_iff_of_nonneg (sq_nonneg _) (sq_nonneg _)] at hsum
    exact ⟨sq_eq_zero_iff.mp hsum.1, sq_eq_zero_iff.mp hsum.2⟩
  refine ⟨le_rfl, zero_le_one, ?_, ?_, ?_⟩
  · rw [Complex.modulus_sq]
    have hunit : (0 : K) ^ 2 + (1 ^ 2 + 0 ^ 2) = 1 := by ring
    exact hunit
  · have h1 : b.re * 0 - (1 * a.re - -0 * a.im) = 0 := by
      rw [hre]
      ring
    have h2 : b.im * 0 - (1 * a.im + -0 * a.re) = 0 := by
      rw [him]
      ring
    exact congrArg₂ Complex.mk h1 h2
  · rw [Complex.modulus_sq, Complex.modulus_sq, Complex.modulus_sq]
    have hsq : (a.re * 0 + (1 * b.re - 0 * b.im)) ^ 2 + (a.im * 0 + (1 * b.im + 0 * b.re)) ^ 2 =
        a.re ^ 2 + a.im ^ 2 + (b.re ^ 2 + b.im ^ 2) := by
      rw [hre, him]
      ring
    exact hsq

/-- Otherwise the first part of the image is the length of the pair in the direction of `a`. -/
theorem zeroesComplex_of_modulus_ne_zero (h : Scalar.modulus a ≠ 0) (b : Complex K) :
    ZeroesComplex a b (Scalar.modulus a * (length a b)⁻¹)
      (Scalar.mulReal (phase a * Scalar.conj b) (length a b)⁻¹) := by
  have hphase := phase_sq h
  have hN := length_sq a b
  have hM := mul_inv_cancel₀ (length_pos h b).ne'
  obtain ⟨hre, him⟩ := modulus_mul_phase h
  obtain ⟨hnonneg, hle⟩ := quotient_le_one (Complex.modulus_nonneg a) (length_pos h b)
    (le_hypot (Complex.modulus_nonneg a))
  refine ⟨hnonneg, hle, ?_, ?_, ?_⟩
  · rw [Complex.modulus_sq]
    exact polar_unit hphase hM hN
  · obtain ⟨h1, h2⟩ := polar_second (Scalar.modulus a) (length a b)⁻¹ b.re b.im hphase
    rw [hre, him] at h1 h2
    exact congrArg₂ Complex.mk h1 h2
  · obtain ⟨h1, h2⟩ := polar_first (phase a).re (phase a).im hM hN
    rw [hre] at h1
    rw [him] at h2
    have hfirst : Scalar.mulReal a (Scalar.modulus a * (length a b)⁻¹) +
        Scalar.mulReal (phase a * Scalar.conj b) (length a b)⁻¹ * b =
        ⟨(phase a).re * length a b, (phase a).im * length a b⟩ :=
      congrArg₂ Complex.mk h1 h2
    rw [hfirst, Complex.modulus_sq, Complex.modulus_sq b, ← hN, mul_pow, mul_pow, ← add_mul, hphase,
      one_mul]

/-- **The complex rotation.** -/
theorem zeroesComplex (a b : Complex K) : ZeroesComplex a b (complex a b).1 (complex a b).2 := by
  by_cases h : Scalar.modulus a = 0
  · rw [complex_of_modulus_eq_zero h]
    exact zeroesComplex_of_modulus_eq_zero h b
  · rw [complex_eq h]
    exact zeroesComplex_of_modulus_ne_zero h b

theorem complexDivisors_ne_zero (a b : Complex K) : ∀ d ∈ complexDivisors a b, d ≠ 0 := by
  unfold complexDivisors
  by_cases h : Scalar.modulus a = 0
  · simp [h]
  · have hscale := modulus_add_pos h b
    have hlength := (length_pos h b).ne'
    unfold length at hlength
    simp [h, scaledNorm_eq hscale, hscale.ne', hlength]

end Complex

/-! ### The real axis -/

section Axis
variable {K : Type} [ExactReal K]

/-- The sign by which the two rotations differ on the real axis. -/
def commonSign (a b : K) : K :=
  if a ≠ 0 ∧ |a| ≤ |b| ∧ (0 < a ∧ b < 0 ∨ a < 0 ∧ 0 < b) then -1 else 1

variable {a : K}

/-- The complex rotation takes the sign of `a`, the real one that of the larger number. -/
theorem commonSign_eq (ha : a ≠ 0) (b : K) :
    commonSign a b = SignType.sign a * SignType.sign (larger a b) := by
  unfold commonSign larger
  by_cases hlt : |b| < |a|
  · rw [if_pos hlt, ← sq, sign_sq ha, if_neg]
    exact fun h => h.2.1.not_gt hlt
  · have hle : |a| ≤ |b| := not_lt.mp hlt
    have hb : b ≠ 0 := abs_pos.mp ((abs_pos.mpr ha).trans_le hle)
    rw [if_neg hlt]
    rcases ha.lt_or_gt with ha' | ha' <;> rcases hb.lt_or_gt with hb' | hb' <;>
      simp [ha, hle, ha', hb', ha'.le, hb'.le, sign_pos, sign_neg]

variable [ExactRoot K]

theorem phase_ofReal (ha : a ≠ 0) :
    phase (Complex.ofReal a) = Complex.ofReal (SignType.sign a : K) := by
  have hsign : a * |a|⁻¹ = SignType.sign a :=
    calc a * |a|⁻¹ = SignType.sign a * |a| * |a|⁻¹ := by rw [sign_mul_abs]
      _ = SignType.sign a := mul_inv_cancel_right₀ (abs_ne_zero.mpr ha) _
  unfold phase
  rw [Complex.modulus_ofReal, Complex.mulReal_ofReal, hsign]

theorem length_ofReal (a b : K) :
    length (Complex.ofReal a) (Complex.ofReal b) = RealScalar.hypot a b := by
  unfold length
  rw [Complex.modulus_ofReal, Complex.modulus_ofReal]
  refine (hypot_eq (hypot_nonneg _ _) ?_).symm
  rw [hypot_sq, sq_abs, sq_abs]

theorem complex_ofReal (ha : a ≠ 0) (b : K) :
    complex (Complex.ofReal a) (Complex.ofReal b) = (|a| * (RealScalar.hypot a b)⁻¹,
      Complex.ofReal (SignType.sign a * b * (RealScalar.hypot a b)⁻¹)) := by
  have hmodulus : Scalar.modulus (Complex.ofReal a) ≠ 0 := by
    rw [Complex.modulus_ofReal]
    exact abs_ne_zero.mpr ha
  rw [complex_eq hmodulus, Complex.modulus_ofReal, length_ofReal, phase_ofReal ha,
    Complex.conj_ofReal, ← Complex.ofReal_mul, Complex.mulReal_ofReal]

/-- **The two rotations on the real axis.** -/
theorem complex_ofReal_eq {b : K} (h : a ≠ 0 ∨ b ≠ 0) :
    complex (Complex.ofReal a) (Complex.ofReal b) =
      (commonSign a b * (real a b).1, Complex.ofReal (commonSign a b * (real a b).2)) := by
  have hr := radius_ne_zero h
  rw [real_eq h, ExactReal.div_eq _ hr, ExactReal.div_eq _ hr]
  by_cases ha : a = 0
  · subst ha
    have hb : b ≠ 0 := h.resolve_left fun h0 => h0 rfl
    have hcommon : commonSign 0 b = 1 := if_neg fun h0 => h0.1 rfl
    have hmodulus : Scalar.modulus (Complex.ofReal (0 : K)) = 0 := by
      rw [Complex.modulus_ofReal, abs_zero]
    rw [complex_of_modulus_eq_zero hmodulus, radius_zero_left hb, hcommon, mul_inv_cancel₀ hb,
      zero_mul, mul_zero, mul_one]
    rfl
  · have hsign := sign_ne_zero (larger_ne_zero h)
    rw [complex_ofReal ha, commonSign_eq ha, radius_eq h, mul_sign_cancel hsign,
      mul_sign_cancel hsign, sign_mul_self]

end Axis

end Givens

/-! ### Vectors of one element -/

section Single
variable {α : Type}

/-- The buffer with one cell. -/
def Buffer.single (a : α) : Buffer α := ⟨#[a], show 1 < UInt64.size by decide⟩

/-- A window that is not empty shows the one cell. -/
theorem Window.Inside.place_single {w : Window} {n : ℕ} (h : w.Inside n 1) (hn : n ≠ 0) :
    n = 1 ∧ w.place n 0 = 0 := by
  have hinc := natAbs_pos h.inc_ne
  have hoffset := h.offset_lt
  have hlast := h.last_lt hn
  unfold Window.last at hlast
  have hspan : (n - 1) * w.inc.toInt.natAbs = 0 := by omega
  have hn1 : n = 1 := by
    rcases Nat.mul_eq_zero.mp hspan with h0 | h0
    · omega
    · omega
  have hplace := w.place_le_last (Nat.pos_of_ne_zero hn)
  unfold Window.last at hplace
  exact ⟨hn1, by omega⟩

theorem Replaced.eq_single {w : Window} {n : ℕ} {z : ℕ → Option α} {a c : α} {b' : Buffer α}
    (h : Replaced w n z (.single a) b') (hin : w.Inside n 1) (hn : n ≠ 0) (hz : z 0 = some c) :
    b' = .single c := by
  obtain ⟨rfl, hplace⟩ := hin.place_single hn
  refine Buffer.ext_get? fun j => ?_
  rcases Nat.eq_zero_or_pos j with rfl | hj
  · obtain ⟨c', hc', hget⟩ := h.element 0 Nat.one_pos
    rw [hplace] at hget
    rw [hget, ← hc', hz]
    rfl
  · have hother : ∀ i < 1, w.place 1 i ≠ j := by
      intro i hi
      obtain rfl : i = 0 := by omega
      omega
    rw [h.other j hother]
    have hnone : ∀ d : α, (Buffer.single d).get? j = none := fun d =>
      Array.getElem?_eq_none (show (#[d] : Array α).size ≤ j from hj)
    rw [hnone, hnone]

variable {ρ : Type} [RealScalar ρ] [Element α ρ]

/-- An operation that returns copies, on vectors of one element. -/
theorem BinaryOp.run_single (op : BinaryOp α ρ) (hcopies : op.operation.copies)
    (hs : op.operation.row.supported.supports (Element.precision α)) (plan : Schedule) (a b : α)
    {opts : BinaryOptions} {r : Resolved}
    (hres : resolveBinary op.operation.rule 1 1 opts = some (.ok r)) (hn : r.n ≠ 0) :
    ∃ o, op.run plan (.single a) (.single b) opts = some o ∧
      o.answer = .ok (.vectors [.single (op.image a b).1, .single (op.image a b).2]) := by
  obtain ⟨sel, hsel⟩ := exists_select hs
  obtain ⟨wx, wy, hr, hx, hy⟩ := windows_of_resolveBinary (x := .single a) (y := .single b) hres
  rw [hr] at hres
  refine ⟨_, run_of_resolved plan hsel hres, ?_⟩
  have hn' : r.n.toNat ≠ 0 := fun h0 => hn (UInt64.toNat_inj.mp h0)
  obtain ⟨hfst, hsnd⟩ := View.replaced_mapPairs (v := wx.view r.n (.single a))
    (w := wy.view r.n (.single b)) hx hy rfl op.image
  have hpair : View.pair? op.image (wx.view r.n (.single a)) (wy.view r.n (.single b)) 0 =
      some (op.image a b) := by
    have ha : (wx.view r.n (.single a)).elem? 0 = some a :=
      congrArg (Buffer.single a).get? (hx.place_single hn').2
    have hb : (wy.view r.n (.single b)).elem? 0 = some b :=
      congrArg (Buffer.single b).get? (hy.place_single hn').2
    unfold View.pair?
    rw [ha, hb]
    rfl
  have hx' := hfst.eq_single hx hn' (by rw [hpair]; rfl)
  have hy' := hsnd.eq_single hy hn' (by rw [hpair]; rfl)
  rw [answer_of_copies plan sel r.n wx wy _ _ hcopies]
  unfold result
  rw [hx', hy']

end Single

/-! ### Calls -/

section Calls
variable {K : Type} [ExactReal K]

/-- Run a real operation on scalars. -/
def ScalarOp.runReal (w : Width) (op : ScalarOp K K) : Option (Outcome Unit K K) :=
  @ScalarOp.run K K _ (Element.real w) op

/-- Run a complex operation on scalars. -/
def ScalarOp.runComplex (w : Width) (op : ScalarOp (Complex K) K) :
    Option (Outcome Unit (Complex K) K) :=
  @ScalarOp.run (Complex K) K _ (Element.complex w) op

theorem ScalarOp.run_rotg {α ρ : Type} [RealScalar ρ] [Element α ρ] (a b : α) :
    ∃ o, (ScalarOp.rotg a b).run = some o ∧
      o.answer = .ok (.cosSin (Element.rotg a b).1 (Element.rotg a b).2) := by
  have hs : Operation.rotg.row.supported.supports (Element.precision α) := by
    cases Element.precision α <;> decide
  obtain ⟨sel, hsel⟩ := exists_select hs
  have hannounce : (ScalarOp.rotg a b).announce = .ok sel.begunScalars :=
    congrArg (Except.map Selection.begunScalars) hsel
  unfold run
  rw [hannounce]
  exact ⟨_, rfl, rfl⟩

variable [ExactRoot K]

/-- **Plane rotations** are unitary and zero the second number. The real rotation of `a` and `b`
takes the vectors of one element `a` and `b` to `r` and zero, whatever the options, as long as they
leave the element in; `r` is as long as the pair and has the sign of the larger number, that of `b`
in case of a tie. The complex one has a real cosine between zero and one. Each quotient in a rotation
has a divisor from a list, and no divisor there is zero. -/
theorem plane_rotation (w : Width) :
    (∀ a b : K, ∃ o c s r, (ScalarOp.rotg a b).runReal w = some o ∧ o.answer = .ok (.cosSin c s) ∧
      c ^ 2 + s ^ 2 = 1 ∧ r ^ 2 = a ^ 2 + b ^ 2 ∧
      (a ≠ 0 ∨ b ≠ 0 → SignType.sign r = SignType.sign (if |b| < |a| then a else b)) ∧
      Givens.RealQuotients a b c s ∧ (∀ d ∈ Givens.realDivisors a b, d ≠ 0) ∧
      ∀ plan opts res, resolveBinary .inclusive 1 1 opts = some (.ok res) → res.n ≠ 0 →
        ∃ o', (BinaryOp.rot c s).runReal w plan (.single a) (.single b) opts = some o' ∧
          o'.answer = .ok (.vectors [.single r, .single 0])) ∧
    ∀ a b : Complex K, ∃ o c s, (ScalarOp.rotg a b).runComplex w = some o ∧
      o.answer = .ok (.cosSin c s) ∧ Givens.ZeroesComplex a b c s ∧
      Givens.ComplexQuotients a b c s ∧ ∀ d ∈ Givens.complexDivisors a b, d ≠ 0 := by
  constructor
  · intro a b
    let _ : Element K K := Element.real w
    obtain ⟨o, ho, ha⟩ := ScalarOp.run_rotg a b
    obtain ⟨r, hr, hsign⟩ := Givens.exists_zeroes a b
    refine ⟨o, _, _, r, ho, ha, hr.unit, hr.radius_sq, hsign, Givens.realQuotients a b,
      Givens.realDivisors_ne_zero a b, ?_⟩
    intro plan opts res hres hn
    have hs : Operation.rot.row.supported.supports w.real := by cases w <;> decide
    obtain ⟨o', ho', ha'⟩ := BinaryOp.run_single
      (.rot (Givens.real a b).1 (Givens.real a b).2 : BinaryOp K K) rfl hs plan a b hres hn
    have himage : (BinaryOp.rot (Givens.real a b).1 (Givens.real a b).2).image a b = (r, 0) :=
      hr.image
    rw [himage] at ha'
    exact ⟨o', ho', ha'⟩
  · intro a b
    let _ : Element (Complex K) K := Element.complex w
    obtain ⟨o, ho, ha⟩ := ScalarOp.run_rotg a b
    exact ⟨o, _, _, ho, ha, Givens.zeroesComplex a b, Givens.complexQuotients a b,
      Givens.complexDivisors_ne_zero a b⟩

/-- The number `-4` is the larger one of `3` and `-4`, so the radius is `-5`. -/
theorem plane_rotation_three_four :
    let _ : ExactReal ℝ := .reals
    ∃ (o : Outcome Unit ℝ ℝ) (o' : Outcome (Buffer ℝ × Buffer ℝ) ℝ ℝ) (c s : ℝ),
      (ScalarOp.rotg 3 (-4)).runReal .w64 = some o ∧ o.answer = .ok (.cosSin c s) ∧
      c ^ 2 + s ^ 2 = 1 ∧
      (BinaryOp.rot c s).runReal .w64 .sequential (.single 3) (.single (-4)) {} = some o' ∧
      o'.answer = .ok (.vectors [.single (-5), .single 0]) := by
  let _ : ExactReal ℝ := .reals
  have _ : ExactRoot ℝ := .reals
  obtain ⟨o, c, s, r, ho, ha, hunit, hsq, hsign, -, -, hrot⟩ :=
    (plane_rotation (K := ℝ) .w64).1 3 (-4)
  have hres : resolveBinary .inclusive 1 1 {} = some (.ok ⟨1, [⟨0, 1⟩, ⟨0, 1⟩]⟩) := by decide
  obtain ⟨o', ho', ha'⟩ := hrot .sequential {} _ hres (by decide)
  have hneg : SignType.sign r = -1 := by
    rw [hsign (Or.inl three_ne_zero), if_neg (by norm_num)]
    exact sign_neg (by norm_num)
  have hr : r = -5 := by
    have h25 : r ^ 2 = 5 ^ 2 := hsq.trans (by norm_num)
    have hlt : r < 0 := sign_eq_neg_one_iff.mp hneg
    rcases sq_eq_sq_iff_eq_or_eq_neg.mp h25 with h5 | h5
    · linarith
    · exact h5
  rw [hr] at ha'
  exact ⟨o, o', c, s, ho, ha, hunit, ho', ha'⟩

/-- **The real axis.** On numbers of the real axis that are not both zero, the complex rotation is
the real one up to a common sign. It is negative exactly if `a` is not zero, `b` is at least as
large, and they have opposite signs. -/
theorem real_axis_rotation (w w' : Width) {a b : K} (h : a ≠ 0 ∨ b ≠ 0) :
    ∃ o o' c s, (ScalarOp.rotg a b).runReal w = some o ∧ o.answer = .ok (.cosSin c s) ∧
      (ScalarOp.rotg (Complex.ofReal a) (Complex.ofReal b)).runComplex w' = some o' ∧
      o'.answer = .ok (.cosSin (Givens.commonSign a b * c)
        (Complex.ofReal (Givens.commonSign a b * s))) := by
  let _ : Element K K := Element.real w
  let _ : Element (Complex K) K := Element.complex w'
  obtain ⟨o, ho, ha⟩ := ScalarOp.run_rotg a b
  obtain ⟨o', ho', ha'⟩ := ScalarOp.run_rotg (Complex.ofReal a) (Complex.ofReal b)
  have haxis : Element.rotg (Complex.ofReal a) (Complex.ofReal b) =
      (Givens.commonSign a b * (Givens.real a b).1,
        Complex.ofReal (Givens.commonSign a b * (Givens.real a b).2)) :=
    Givens.complex_ofReal_eq h
  rw [haxis] at ha'
  exact ⟨o, o', _, _, ho, ha, ho', ha'⟩

/-- The numbers `-3` and `4` have opposite signs, and the second is the larger one. -/
theorem real_axis_rotation_opposite :
    let _ : ExactReal ℝ := .reals
    ∃ (o : Outcome Unit ℝ ℝ) (o' : Outcome Unit (Complex ℝ) ℝ) (c s : ℝ),
      (ScalarOp.rotg (-3) 4).runReal .w64 = some o ∧ o.answer = .ok (.cosSin c s) ∧
      (ScalarOp.rotg (Complex.ofReal (-3)) (Complex.ofReal 4)).runComplex .w64 = some o' ∧
      o'.answer = .ok (.cosSin (-1 * c) (Complex.ofReal (-1 * s))) := by
  let _ : ExactReal ℝ := .reals
  have _ : ExactRoot ℝ := .reals
  obtain ⟨o, o', c, s, ho, ha, ho', ha'⟩ := real_axis_rotation (K := ℝ) .w64 .w64
    (a := -3) (b := 4) (Or.inl (by norm_num))
  have hcommon : Givens.commonSign (-3 : ℝ) 4 = -1 := if_pos (by norm_num)
  rw [hcommon] at ha'
  exact ⟨o, o', c, s, ho, ha, ho', ha'⟩

end Calls

end Strided
