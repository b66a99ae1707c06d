import Strided.Proofs.Packing

/-! # Binary arithmetic

A result of arithmetic is rounded to its format and stored. It has the sign of the exact result, and
it passes over no number of the format: this is `Rounds`, and the operations on numbers satisfy it.
A result that no number of the format bounds from above is infinite.

* `rounds_mul`, `rounds_div`, `rounds_add`, `rounds_sub`: the operations.
* `le_finite_iff`: the order of positive numbers.
* `Signed`, `AtLeastOne`: what is known of a result from the signs of its operands. -/

namespace Strided

open Float.Model Float.Model.UnpackedFloat

/-- The distance from zero. What is not a number counts as infinite. -/
def magnitude : UnpackedFloat → WithTop ℚ
  | .zero _ => 0
  | .finite _ m e _ => (m * 2 ^ e : ℚ)
  | _ => ⊤

/-- The sign, of all but what is not a number. -/
def sign? : UnpackedFloat → Option Sign
  | .infinity s => some s
  | .notANumber => none
  | .zero s => some s
  | .finite s _ _ _ => some s

/-- The value `u` is the number of sign `s` and magnitude `x` as the format delivers it. -/
structure Rounds (f : Format) (s : Sign) (x : ℚ) (u : UnpackedFloat) : Prop where
  sign : sign? u = some s
  le {n : ℕ} {k : ℤ} (h : Fits f n k) (hk : k ≤ maxExponent f) (hx : x ≤ n * 2 ^ k) :
    magnitude u ≤ (n * 2 ^ k : ℚ)
  ge {n : ℕ} {k : ℤ} (h : Fits f n k) (hk : k ≤ maxExponent f) (hx : n * 2 ^ k ≤ x) :
    (n * 2 ^ k : ℚ) ≤ magnitude u

namespace Rounds

variable {f : Format} {s : Sign} {x : ℚ} {u : UnpackedFloat}

/-- A result with a bound from above is not infinite. -/
theorem zero_or_finite (h : Rounds f s x u) {n : ℕ} {k : ℤ} (hn : Fits f n k)
    (hk : k ≤ maxExponent f) (hx : x ≤ n * 2 ^ k) :
    u = .zero s ∨ ∃ m e hm, u = .finite s m e hm ∧ (m : ℚ) * 2 ^ e ≤ n * 2 ^ k := by
  have hle := h.le hn hk hx
  have hsign := h.sign
  cases u with
  | infinity t => exact absurd hle (WithTop.not_top_le_coe _)
  | notANumber => cases hsign
  | zero t =>
    cases hsign
    exact Or.inl rfl
  | finite t m e hm =>
    cases hsign
    exact Or.inr ⟨m, e, hm, rfl, WithTop.coe_le_coe.mp hle⟩

/-- A result with a positive bound from below is not zero. -/
theorem infinite_or_finite (h : Rounds f s x u) {n : ℕ} {k : ℤ} (hn : Fits f n k)
    (hk : k ≤ maxExponent f) (hpos : 0 < n) (hx : n * 2 ^ k ≤ x) :
    u = .infinity s ∨ ∃ m e hm, u = .finite s m e hm ∧ (n : ℚ) * 2 ^ k ≤ m * 2 ^ e := by
  have hge := h.ge hn hk hx
  have hsign := h.sign
  cases u with
  | infinity t =>
    cases hsign
    exact Or.inl rfl
  | notANumber => cases hsign
  | zero t =>
    have hq : (0 : ℚ) < n * 2 ^ k := mul_pos (by exact_mod_cast hpos) (zpow_pos two_pos k)
    exact absurd (WithTop.coe_le_coe.mp hge) hq.not_ge
  | finite t m e hm =>
    cases hsign
    exact Or.inr ⟨m, e, hm, rfl, WithTop.coe_le_coe.mp hge⟩

/-- **A number of the format is rounded to itself.** -/
theorem exact {n : ℕ} {k : ℤ} (h : Rounds f s x u) (hn : Fits f n k) (hk : k ≤ maxExponent f)
    (hpos : 0 < n) (hx : x = n * 2 ^ k) :
    ∃ m e hm, u = .finite s m e hm ∧ (m : ℚ) * 2 ^ e = x := by
  obtain rfl | ⟨m, e, hm, rfl, hge⟩ := h.infinite_or_finite hn hk hpos hx.ge
  · exact absurd (h.le hn hk hx.le) (WithTop.not_top_le_coe _)
  · have hle := WithTop.coe_le_coe.mp (h.le hn hk hx.le)
    exact ⟨m, e, hm, rfl, (le_antisymm hle hge).trans hx.symm⟩

end Rounds

/-- **A rounded result.** An exponent beyond the largest is beyond all numbers of the format. -/
theorem rounds_roundWithAccuracy {f : Format} (s : Sign) {m : ℕ} {e : ℤ} {a : Accuracy} {x : ℚ}
    (hx : Marks (.ofMantissaAndAccuracy m a) x) (he : e ≤ f.targetExponent (totalExponent m e)) :
    Rounds f s (x * 2 ^ e) (deliver f (roundWithAccuracy f s m e a)) := by
  obtain ⟨m', e', heq, hcan, hbetween⟩ := exists_roundWithAccuracy s hx he
  rw [heq, ofParts]
  split_ifs with hm
  · subst hm
    rw [deliver_of_stored (u := .zero s) trivial]
    refine ⟨rfl, fun {n k} _ _ _ => ?_, fun {n k} h _ hle => ?_⟩
    · exact WithTop.coe_le_coe.mpr (mul_nonneg n.cast_nonneg (zpow_pos two_pos k).le)
    · have := (hbetween n k h).2 hle
      rw [Nat.cast_zero, zero_mul] at this
      exact WithTop.coe_le_coe.mpr this
  · rw [deliver_finite hcan]
    split_ifs with hmax
    · exact ⟨rfl, fun h _ hle => WithTop.coe_le_coe.mpr ((hbetween _ _ h).1 hle),
        fun h _ hle => WithTop.coe_le_coe.mpr ((hbetween _ _ h).2 hle)⟩
    · refine ⟨rfl, fun {n k} h hk hle => ?_, fun _ _ _ => le_top⟩
      have hke : k < e' := by omega
      have hfull : 2 ^ f.mantissaBitsWithoutImplicit ≤ m' :=
        hcan.normal.resolve_left fun hmin => by
          have := h.le
          omega
      have hfull' : (2 ^ f.mantissaBitsWithoutImplicit : ℚ) ≤ m' := by exact_mod_cast hfull
      have hlt : (n : ℚ) * 2 ^ k < m' * 2 ^ e' := (h.lt_of_exponent_lt hke).trans_le
        (mul_le_mul_of_nonneg_right hfull' (zpow_pos two_pos e').le)
      exact absurd ((hbetween n k h).1 hle) hlt.not_ge

/-! ### Products and quotients -/

theorem marks_exact (m : ℕ) : Marks (.ofMantissaAndAccuracy m .exact) (m : ℚ) :=
  ⟨le_rfl, lt_add_one _, by simp [ExtendedMantissa.ofMantissaAndAccuracy]⟩

/-- The remainder of a division tells whether the quotient is a whole number. -/
theorem marks_accuracyOfFraction (m : ℕ) {n : ℕ} (hn : 0 < n) :
    Marks (.ofMantissaAndAccuracy (m / n) (accuracyOfFraction (m % n) n)) ((m : ℚ) / n) := by
  have hnq : (0 : ℚ) < n := by exact_mod_cast hn
  have hdiv : (m : ℚ) = n * (m / n : ℕ) + (m % n : ℕ) := by exact_mod_cast (Nat.div_add_mod m n).symm
  have hrem : ((m % n : ℕ) : ℚ) < n := by exact_mod_cast Nat.mod_lt m hn
  have hrem0 : (0 : ℚ) ≤ (m % n : ℕ) := Nat.cast_nonneg _
  refine ⟨?_, ?_, ?_⟩
  · rw [mantissa_ofMantissaAndAccuracy, le_div_iff₀ hnq]
    linarith
  · rw [mantissa_ofMantissaAndAccuracy, div_lt_iff₀ hnq]
    linarith
  · rw [mantissa_ofMantissaAndAccuracy, div_eq_iff hnq.ne']
    have hbits : ((ExtendedMantissa.ofMantissaAndAccuracy (m / n)
        (accuracyOfFraction (m % n) n)).roundBit ||
        (ExtendedMantissa.ofMantissaAndAccuracy (m / n)
          (accuracyOfFraction (m % n) n)).stickyBit) = false ↔ m % n = 0 := by
      unfold accuracyOfFraction
      split_ifs with h
      · simp [ExtendedMantissa.ofMantissaAndAccuracy, h]
      · cases compare (2 * (m % n)) n <;> simp [ExtendedMantissa.ofMantissaAndAccuracy, h]
    rw [hbits]
    constructor
    · intro h
      rw [h, Nat.cast_zero] at hdiv
      linarith
    · intro h
      have hzero : ((m % n : ℕ) : ℚ) = 0 := by linarith
      exact_mod_cast hzero

section Operations
variable {f : Format} {s t : Sign} {m n : ℕ} {e k : ℤ}

theorem exponent_mul_le (hm : 0 < m) (hn : 0 < n) (h : Canonical f m e) (h' : Canonical f n k) :
    e + k ≤ f.targetExponent (totalExponent (m * n) (e + k)) := by
  have htarget : f.targetExponent (totalExponent (m * n) (e + k)) =
      max ((m * n).log2 + 1 + (e + k) - f.mantissaBits) f.minExponent := rfl
  have hbits : f.mantissaBits = 1 + f.mantissaBitsWithoutImplicit := rfl
  rw [htarget]
  by_cases hfull : 2 ^ f.mantissaBitsWithoutImplicit ≤ m * n
  · have hlog := (Nat.le_log2 (Nat.mul_pos hm hn).ne').mpr hfull
    omega
  · -- Neither factor has all its bits, so both exponents are the smallest.
    have he := h.normal.resolve_right fun hle => hfull (hle.trans (Nat.le_mul_of_pos_right m hn))
    have hk := h'.normal.resolve_right fun hle => hfull (hle.trans (Nat.le_mul_of_pos_left n hm))
    have hmin := minExponent_eq f
    have := f.hm
    omega

theorem rounds_mul (hm : 0 < m) (hn : 0 < n) (h : Canonical f m e) (h' : Canonical f n k) :
    Rounds f (s * t) (m * 2 ^ e * (n * 2 ^ k))
      (deliver f (UnpackedFloat.mul f (.finite s m e hm) (.finite t n k hn))) := by
  have hvalue : (m : ℚ) * 2 ^ e * (n * 2 ^ k) = (m * n : ℕ) * 2 ^ (e + k) := by
    rw [zpow_add₀ two_ne_zero]
    push_cast
    ring
  rw [hvalue]
  exact rounds_roundWithAccuracy (s * t) (marks_exact (m * n)) (exponent_mul_le hm hn h h')

theorem exponent_div_le (hm : 0 < m) (hn : 0 < n) {r : ℤ} {j : ℕ} (hr : e - k = r + j)
    (hle : r ≤ f.targetExponent (totalExponent m e - totalExponent n k)) :
    r ≤ f.targetExponent (totalExponent (m * 2 ^ j / n) r) := by
  have htarget : f.targetExponent (totalExponent m e - totalExponent n k) =
      max (m.log2 + 1 + e - (n.log2 + 1 + k) - f.mantissaBits) f.minExponent := rfl
  have htarget' : f.targetExponent (totalExponent (m * 2 ^ j / n) r) =
      max ((m * 2 ^ j / n).log2 + 1 + r - f.mantissaBits) f.minExponent := rfl
  have hbits : f.mantissaBits = 1 + f.mantissaBitsWithoutImplicit := rfl
  rw [htarget] at hle
  rw [htarget']
  rcases le_or_gt r f.minExponent with hmin | hmin
  · omega
  · -- The shift gives the quotient all its bits.
    have hj : f.mantissaBits + n.log2 ≤ m.log2 + j := by omega
    have hquot : 2 ^ f.mantissaBitsWithoutImplicit ≤ m * 2 ^ j / n := by
      rw [Nat.le_div_iff_mul_le hn]
      calc 2 ^ f.mantissaBitsWithoutImplicit * n
          ≤ 2 ^ f.mantissaBitsWithoutImplicit * 2 ^ (n.log2 + 1) :=
            Nat.mul_le_mul_left _ Nat.lt_log2_self.le
        _ = 2 ^ (f.mantissaBits + n.log2) := by
            rw [← pow_add]
            congr 1
            omega
        _ ≤ 2 ^ (m.log2 + j) := Nat.pow_le_pow_right two_pos hj
        _ = 2 ^ m.log2 * 2 ^ j := pow_add _ _ _
        _ ≤ m * 2 ^ j := Nat.mul_le_mul_right _ (Nat.log2_self_le hm.ne')
    have hpos : m * 2 ^ j / n ≠ 0 := ((Nat.two_pow_pos _).trans_le hquot).ne'
    have hlog := (Nat.le_log2 hpos).mpr hquot
    omega

theorem rounds_div (hm : 0 < m) (hn : 0 < n) :
    Rounds f (s / t) (m * 2 ^ e / (n * 2 ^ k))
      (deliver f (UnpackedFloat.div f (.finite s m e hm) (.finite t n k hn))) := by
  set r := min (e - k) (f.targetExponent (totalExponent m e - totalExponent n k)) with hr
  obtain ⟨j, hj⟩ : ∃ j : ℕ, e - k = r + j := ⟨(e - k - r).toNat, by omega⟩
  have hshift : (e - k - r).toNat = j := by omega
  have hdiv : UnpackedFloat.div f (.finite s m e hm) (.finite t n k hn) =
      roundWithAccuracy f (s / t) (m * 2 ^ j / n) r (accuracyOfFraction (m * 2 ^ j % n) n) := by
    rw [← Nat.shiftLeft_eq, ← hshift]
    rfl
  have hvalue : (m : ℚ) * 2 ^ e / (n * 2 ^ k) = (m * 2 ^ j : ℕ) / n * 2 ^ r := by
    have he : e = r + j + k := by omega
    have hnq : (n : ℚ) ≠ 0 := by exact_mod_cast hn.ne'
    rw [he, zpow_add₀ two_ne_zero, zpow_add₀ two_ne_zero, zpow_natCast]
    push_cast
    field_simp
  rw [hdiv, hvalue]
  exact rounds_roundWithAccuracy (s / t) (marks_accuracyOfFraction _ hn)
    (exponent_div_le hm hn hj (min_le_right _ _))

/-! ### Sums of numbers of one sign -/

theorem rounds_round (hm : 0 < m) (s : Sign) (e : ℤ) :
    Rounds f s (m * 2 ^ e) (deliver f (round f s m e)) := by
  set r := f.targetExponent (totalExponent m e) with hr
  obtain ⟨j, hj⟩ : ∃ j : ℕ, (e - r).toNat = j := ⟨_, rfl⟩
  have hround : round f s m e = roundWithAccuracy f s (m * 2 ^ j) (e - j) .exact := by
    rw [← Nat.shiftLeft_eq, ← hj]
    rfl
  have hvalue : (m : ℚ) * 2 ^ e = (m * 2 ^ j : ℕ) * 2 ^ (e - j) := by
    rw [zpow_sub₀ two_ne_zero, zpow_natCast]
    push_cast
    field_simp
  have hlog : (m * 2 ^ j).log2 = m.log2 + j := by
    rw [Nat.log2_eq_iff (Nat.mul_pos hm (Nat.two_pow_pos j)).ne', Nat.add_right_comm, pow_add,
      pow_add]
    exact ⟨Nat.mul_le_mul_right _ (Nat.log2_self_le hm.ne'),
      Nat.mul_lt_mul_of_pos_right Nat.lt_log2_self (Nat.two_pow_pos j)⟩
  have htarget : f.targetExponent (totalExponent (m * 2 ^ j) (e - j)) =
      max ((m * 2 ^ j).log2 + 1 + (e - j) - f.mantissaBits) f.minExponent := rfl
  have htarget' : r = max (m.log2 + 1 + e - f.mantissaBits) f.minExponent := rfl
  rw [hround, hvalue]
  refine rounds_roundWithAccuracy s (marks_exact _) ?_
  rw [htarget, hlog]
  omega

theorem decreaseExponent_value {r : ℤ} (hr : r ≤ e) :
    ((decreaseExponent m e r).1 : ℚ) * 2 ^ r = m * 2 ^ e := by
  obtain ⟨j, hj⟩ : ∃ j : ℕ, e = r + j := ⟨(e - r).toNat, by omega⟩
  have hshift : (e - r).toNat = j := by omega
  have hone : (decreaseExponent m e r).1 = m * 2 ^ j := by
    rw [← Nat.shiftLeft_eq, ← hshift]
    rfl
  rw [hone, hj, zpow_add₀ two_ne_zero, zpow_natCast]
  push_cast
  ring

theorem rounds_normalize (hm : 0 < m) :
    Rounds f .positive (m * 2 ^ e + n * 2 ^ k)
      (deliver f (UnpackedFloat.normalize f (((decreaseExponent m e (min e k)).1 : ℤ) +
        ((decreaseExponent n k (min e k)).1 : ℤ)) (min e k) .positive)) := by
  have hvm := decreaseExponent_value (m := m) (min_le_left e k)
  have hvn := decreaseExponent_value (m := n) (min_le_right e k)
  set a := (decreaseExponent m e (min e k)).1
  set b := (decreaseExponent n k (min e k)).1
  have ha : 0 < a := by
    have hpos : (0 : ℚ) < a * 2 ^ min e k := by
      rw [hvm]
      exact mul_pos (by exact_mod_cast hm) (zpow_pos two_pos e)
    exact_mod_cast (pos_iff_pos_of_mul_pos hpos).mpr (zpow_pos two_pos _)
  have hsum : 0 < a + b := Nat.add_pos_left ha b
  have hcompare : compare ((a : ℤ) + b) 0 = .gt := by
    rw [compare_gt_iff_gt]
    omega
  have hnormalize : UnpackedFloat.normalize f ((a : ℤ) + b) (min e k) .positive =
      round f .positive (a + b) (min e k) := by
    unfold UnpackedFloat.normalize
    rw [hcompare]
    rfl
  rw [hnormalize, ← hvm, ← hvn, ← add_mul, ← Nat.cast_add]
  exact rounds_round hsum .positive (min e k)

theorem rounds_add (hm : 0 < m) (hn : 0 < n) :
    Rounds f .positive (m * 2 ^ e + n * 2 ^ k) (deliver f
      (UnpackedFloat.add f (.finite .positive m e hm) (.finite .positive n k hn))) :=
  rounds_normalize hm

theorem rounds_sub (hm : 0 < m) (hn : 0 < n) :
    Rounds f .positive (m * 2 ^ e + n * 2 ^ k) (deliver f
      (UnpackedFloat.sub f (.finite .positive m e hm) (.finite .negative n k hn))) := by
  have hsub : UnpackedFloat.sub f (.finite .positive m e hm) (.finite .negative n k hn) =
      UnpackedFloat.normalize f (((decreaseExponent m e (min e k)).1 : ℤ) -
        -((decreaseExponent n k (min e k)).1 : ℤ)) (min e k) .positive := rfl
  rw [hsub, sub_neg_eq_add]
  exact rounds_normalize hm

/-! ### The order of positive numbers -/

theorem Canonical.lt_of_exponent_lt (h : Canonical f m e) (h' : Canonical f n k) (hek : e < k) :
    (m : ℚ) * 2 ^ e < n * 2 ^ k := by
  have hfull : 2 ^ f.mantissaBitsWithoutImplicit ≤ n := h'.normal.resolve_left fun hmin => by
    have := h.le
    omega
  have hfull' : (2 ^ f.mantissaBitsWithoutImplicit : ℚ) ≤ n := by exact_mod_cast hfull
  exact (h.toFits.lt_of_exponent_lt hek).trans_le
    (mul_le_mul_of_nonneg_right hfull' (zpow_pos two_pos k).le)

/-- **Numbers in canonical form are compared by their values.** -/
theorem le_finite_iff (hm : 0 < m) (hn : 0 < n) (h : Canonical f m e) (h' : Canonical f n k) :
    UnpackedFloat.le (.finite .positive m e hm) (.finite .positive n k hn) = true ↔
      (m : ℚ) * 2 ^ e ≤ n * 2 ^ k := by
  change ((compare e k).then (compare m n)).isLE = true ↔ _
  rcases lt_trichotomy e k with hek | rfl | hek
  · rw [compare_lt_iff_lt.mpr hek]
    exact iff_of_true rfl (h.lt_of_exponent_lt h' hek).le
  · have hself : compare e e = .eq := compare_eq_iff_eq.mpr rfl
    rw [hself, mul_le_mul_iff_left₀ (zpow_pos two_pos e), Nat.cast_le]
    exact Nat.isLE_compare
  · rw [compare_gt_iff_gt.mpr hek]
    exact iff_of_false Bool.false_ne_true (h'.lt_of_exponent_lt h hek).not_ge

theorem Canonical.eq_of_value_eq (h : Canonical f m e) (h' : Canonical f n k)
    (hv : (m : ℚ) * 2 ^ e = n * 2 ^ k) : m = n ∧ e = k := by
  rcases lt_trichotomy e k with hek | rfl | hek
  · exact absurd hv (h.lt_of_exponent_lt h' hek).ne
  · exact ⟨by exact_mod_cast mul_right_cancel₀ (zpow_pos two_pos e).ne' hv, rfl⟩
  · exact absurd hv (h'.lt_of_exponent_lt h hek).ne'

/-! ### Signs -/

@[simp]
theorem deliver_infinity (s : Sign) : deliver f (.infinity s) = .infinity s :=
  deliver_of_stored (u := .infinity s) trivial

@[simp]
theorem deliver_zero (s : Sign) : deliver f (.zero s) = .zero s :=
  deliver_of_stored (u := .zero s) trivial

@[simp]
theorem deliver_notANumber : deliver f .notANumber = .notANumber :=
  deliver_of_stored (u := .notANumber) trivial

/-- A value that has the sign `s`, unless it is zero or not a number. -/
def Signed (s : Sign) : UnpackedFloat → Prop
  | .infinity t => t = s
  | .finite t _ _ _ => t = s
  | _ => True

instance decidableEqSign : DecidableEq Sign
  | .positive, .positive => .isTrue rfl
  | .positive, .negative => .isFalse nofun
  | .negative, .positive => .isFalse nofun
  | .negative, .negative => .isTrue rfl

instance (s : Sign) : DecidablePred (Signed s)
  | .infinity t => inferInstanceAs (Decidable (t = s))
  | .notANumber => .isTrue trivial
  | .zero _ => .isTrue trivial
  | .finite t _ _ _ => inferInstanceAs (Decidable (t = s))

theorem exists_signed (u : UnpackedFloat) : ∃ s, Signed s u := by
  cases u with
  | infinity s => exact ⟨s, rfl⟩
  | notANumber => exact ⟨.positive, trivial⟩
  | zero s => exact ⟨s, trivial⟩
  | finite s m e hm => exact ⟨s, rfl⟩

theorem Rounds.signed {x : ℚ} {u : UnpackedFloat} (h : Rounds f s x u) : Signed s u := by
  have hsign := h.sign
  cases u with
  | infinity t => exact Option.some.inj hsign
  | notANumber => trivial
  | zero t => trivial
  | finite t m e hm => exact Option.some.inj hsign

variable {u v : UnpackedFloat}

theorem signed_neg (h : Signed s u) : Signed (-s) u.neg := by
  cases u with
  | infinity t => exact congrArg _ h
  | notANumber => trivial
  | zero t => trivial
  | finite t m e hm => exact congrArg _ h

theorem signed_mul (hu : Stored f u) (hv : Stored f v) (h : Signed s u) (h' : Signed t v) :
    Signed (s * t) (deliver f (UnpackedFloat.mul f u v)) := by
  cases u <;> cases v
  case finite.finite =>
    cases h
    cases h'
    exact (rounds_mul _ _ hu.1 hv.1).signed
  all_goals simp_all [UnpackedFloat.mul, Signed]

theorem signed_div (h : Signed s u) (h' : Signed t v) (hv : ∀ r, v ≠ .zero r) :
    Signed (s / t) (deliver f (UnpackedFloat.div f u v)) := by
  cases u <;> cases v
  case finite.finite =>
    cases h
    cases h'
    exact (rounds_div _ _).signed
  all_goals simp_all [UnpackedFloat.div, Signed]

/-! ### Powers of two, and divisors that are at least one -/

/-- The number `2 ^ j`. -/
def power (f : Format) (j : ℤ) : UnpackedFloat :=
  .finite .positive (2 ^ f.mantissaBitsWithoutImplicit) (j - f.mantissaBitsWithoutImplicit)
    (Nat.two_pow_pos _)

theorem power_value (f : Format) (j : ℤ) :
    ((2 ^ f.mantissaBitsWithoutImplicit : ℕ) : ℚ) * 2 ^ (j - f.mantissaBitsWithoutImplicit : ℤ) =
      2 ^ j := by
  rw [zpow_sub₀ two_ne_zero, zpow_natCast]
  push_cast
  field_simp

theorem stored_power {j : ℤ} (hmin : 1 - f.exponentBias ≤ j) (hmax : j ≤ f.exponentBias) :
    Stored f (power f j) := by
  have hbits := two_pow_mantissaBits f
  have hpos := Nat.two_pow_pos f.mantissaBitsWithoutImplicit
  have hexp := minExponent_eq f
  refine ⟨⟨⟨by omega, by omega⟩, Or.inr le_rfl⟩, ?_⟩
  unfold maxExponent
  omega

/-- **A power of two is rounded to itself.** -/
theorem Rounds.eq_power {j : ℤ} (h : Rounds f .positive (2 ^ j) u) (hu : Stored f u)
    (hj : Stored f (power f j)) : u = power f j := by
  obtain ⟨m, e, hm, rfl, hv⟩ := h.exact hj.1.toFits hj.2 (Nat.two_pow_pos _) (power_value f j).symm
  obtain ⟨rfl, rfl⟩ := hu.1.eq_of_value_eq hj.1 (hv.trans (power_value f j).symm)
  rfl

/-- A value that is positive and at least one, possibly infinite, or not a number. -/
def AtLeastOne : UnpackedFloat → Prop
  | .infinity s => s = .positive
  | .notANumber => True
  | .zero _ => False
  | .finite s m e _ => s = .positive ∧ 1 ≤ (m : ℚ) * 2 ^ e

theorem AtLeastOne.signed (h : AtLeastOne u) : Signed .positive u := by
  cases u with
  | infinity s => exact h
  | notANumber => trivial
  | zero s => trivial
  | finite s m e hm => exact h.1

theorem AtLeastOne.ne_zero (h : AtLeastOne u) (r : Sign) : u ≠ .zero r := by
  rintro rfl
  exact h

theorem Rounds.atLeastOne {x : ℚ} (h : Rounds f .positive x u) (hf : Stored f (power f 0))
    (hx : 1 ≤ x) : AtLeastOne u := by
  have hone := power_value f 0
  rw [zpow_zero] at hone
  obtain rfl | ⟨m, e, hm, rfl, hge⟩ :=
    h.infinite_or_finite hf.1.toFits hf.2 (Nat.two_pow_pos _) (hone.le.trans hx)
  · rfl
  · exact ⟨rfl, hone.ge.trans hge⟩

theorem atLeastOne_power_zero : AtLeastOne (power f 0) := by
  have hone := power_value f 0
  rw [zpow_zero] at hone
  exact ⟨rfl, hone.ge⟩

theorem one_le_add {m : ℕ} {e : ℤ} :
    1 ≤ ((2 ^ f.mantissaBitsWithoutImplicit : ℕ) : ℚ) *
      2 ^ (0 - f.mantissaBitsWithoutImplicit : ℤ) + m * 2 ^ e := by
  rw [power_value, zpow_zero]
  exact le_add_of_nonneg_right (mul_nonneg m.cast_nonneg (zpow_pos two_pos e).le)

theorem atLeastOne_add (hf : Stored f (power f 0)) (h : Signed .positive u) :
    AtLeastOne (deliver f (UnpackedFloat.add f (power f 0) u)) := by
  cases u with
  | infinity s =>
    cases h
    exact (deliver_infinity (f := f) .positive).symm ▸ rfl
  | notANumber => exact (deliver_notANumber (f := f)).symm ▸ trivial
  | zero s =>
    change AtLeastOne (deliver f (power f 0))
    rw [deliver_of_stored hf]
    exact atLeastOne_power_zero
  | finite s m e hm =>
    cases h
    exact (rounds_add _ hm).atLeastOne hf one_le_add

theorem atLeastOne_sub (hf : Stored f (power f 0)) (h : Signed .negative u) :
    AtLeastOne (deliver f (UnpackedFloat.sub f (power f 0) u)) := by
  cases u with
  | infinity s =>
    cases h
    exact (deliver_infinity (f := f) .positive).symm ▸ rfl
  | notANumber => exact (deliver_notANumber (f := f)).symm ▸ trivial
  | zero s =>
    change AtLeastOne (deliver f (power f 0))
    rw [deliver_of_stored hf]
    exact atLeastOne_power_zero
  | finite s m e hm =>
    cases h
    exact (rounds_sub _ hm).atLeastOne hf one_le_add

/-- **Division by at least one** does not make a value infinite. -/
theorem isInf_div (hu : Stored f u) (hinf : u.isInf = false) (h : AtLeastOne v) :
    (deliver f (UnpackedFloat.div f u v)).isInf = false := by
  cases u <;> cases v
  case finite.finite s m e hm t n k hn =>
    have hq : (m : ℚ) * 2 ^ e / (n * 2 ^ k) ≤ m * 2 ^ e :=
      div_le_self (mul_nonneg m.cast_nonneg (zpow_pos two_pos e).le) h.2
    obtain hz | ⟨m', e', hm', hz, -⟩ :=
      (rounds_div (f := f) (s := s) (t := t) hm hn).zero_or_finite hu.1.toFits hu.2 hq
    · rw [hz]
      rfl
    · rw [hz]
      rfl
  all_goals simp_all [UnpackedFloat.div, UnpackedFloat.isInf, AtLeastOne]

end Operations

end Strided
