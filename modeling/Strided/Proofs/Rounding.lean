import Mathlib.Algebra.Order.Field.Power
import Mathlib.Algebra.Order.Ring.Rat
import Mathlib.Data.Nat.Log
import Mathlib.Tactic.FieldSimp
import Mathlib.Tactic.Linarith
import Mathlib.Tactic.Ring

/-! # Rounding in a binary format

A number of a format is `m * 2 ^ e` with a mantissa of `mantissaBits` bits and an exponent that is
not too small. Rounding does not pass over such a number: what is at most the number is rounded to
at most it, and what is at least the number to at least it. Nothing else about rounding is needed
here; in particular a number of the format is rounded to itself.

* `Marks`: where a number lies between two mantissas, as the residual bits tell.
* `Fits`, `Canonical`: the numbers of a format, and their unique form.
* `exists_roundWithAccuracy`: rounding. -/

namespace Strided

open Float.Model Float.Model.UnpackedFloat

/-! ### Residual bits -/

/-- The number lies at the mantissa if there are no residual bits, and otherwise strictly between
it and the next one. -/
structure Marks (em : ExtendedMantissa) (x : ℚ) : Prop where
  le : (em.mantissa : ℚ) ≤ x
  lt : x < em.mantissa + 1
  exact_iff : (em.roundBit || em.stickyBit) = false ↔ x = em.mantissa

namespace Marks

variable {em : ExtendedMantissa} {x : ℚ}

theorem shiftRightOne (h : Marks em x) : Marks em.shiftRightOne (x / 2) := by
  obtain ⟨hle, hlt, hexact⟩ := h
  have hmod : em.mantissa = 2 * (em.mantissa / 2) + em.mantissa % 2 := by omega
  have hcast : (em.mantissa : ℚ) = 2 * (em.mantissa / 2 : ℕ) + (em.mantissa % 2 : ℕ) := by
    exact_mod_cast hmod
  have hbit : ((em.mantissa % 2 : ℕ) : ℚ) ≤ 1 := by
    exact_mod_cast (show em.mantissa % 2 ≤ 1 by omega)
  have hbit0 : (0 : ℚ) ≤ (em.mantissa % 2 : ℕ) := Nat.cast_nonneg _
  have hbits : (em.shiftRightOne.roundBit || em.shiftRightOne.stickyBit) = false ↔
      em.mantissa % 2 = 0 ∧ (em.roundBit || em.stickyBit) = false := by
    simp [ExtendedMantissa.shiftRightOne]
  refine ⟨?_, ?_, ?_⟩
  · change ((em.mantissa / 2 : ℕ) : ℚ) ≤ x / 2
    linarith
  · change x / 2 < (em.mantissa / 2 : ℕ) + 1
    linarith
  · rw [hbits, hexact]
    change _ ↔ x / 2 = (em.mantissa / 2 : ℕ)
    constructor
    · rintro ⟨heven, hx⟩
      rw [heven, Nat.cast_zero] at hcast
      linarith
    · intro hx
      -- The lower half leaves no room for the last bit.
      have hzero : ((em.mantissa % 2 : ℕ) : ℚ) = 0 := by linarith
      refine ⟨by exact_mod_cast hzero, by linarith⟩

theorem shiftRight (h : Marks em x) (n : ℕ) : Marks (em >>> n) (x / 2 ^ n) := by
  change Marks (n.repeat ExtendedMantissa.shiftRightOne em) _
  induction n with
  | zero => simpa [Nat.repeat] using h
  | succ n ih =>
    rw [Nat.repeat, pow_succ, ← div_div]
    exact ih.shiftRightOne

end Marks

theorem roundedMantissa_cases (em : ExtendedMantissa) :
    em.roundedMantissa = em.mantissa ∨
      (em.roundBit || em.stickyBit) = true ∧ em.roundedMantissa = em.mantissa + 1 := by
  obtain ⟨m, r, s⟩ := em
  unfold ExtendedMantissa.roundedMantissa
  cases r with
  | false => cases s <;> exact Or.inl rfl
  | true =>
    cases s with
    | false =>
      -- A tie goes to the even one of the two.
      have htie : m + m % 2 = m ∨ m + m % 2 = m + 1 := by omega
      exact htie.imp_right fun h => ⟨rfl, h⟩
    | true => exact Or.inr ⟨rfl, rfl⟩

namespace Marks

variable {em : ExtendedMantissa} {x : ℚ}

/-- **Rounding does not pass over a whole number.** -/
theorem le_rounded (h : Marks em x) {n : ℕ} (hn : (n : ℚ) ≤ x) : n ≤ em.roundedMantissa := by
  have hlt : (n : ℚ) < em.mantissa + 1 := hn.trans_lt h.lt
  have hle : n ≤ em.mantissa := Nat.lt_succ_iff.mp (by exact_mod_cast hlt)
  obtain hr | ⟨-, hr⟩ := roundedMantissa_cases em <;> omega

theorem rounded_le (h : Marks em x) {n : ℕ} (hn : x ≤ n) : em.roundedMantissa ≤ n := by
  have hle : em.mantissa ≤ n := by exact_mod_cast h.le.trans hn
  obtain hr | ⟨hbits, hr⟩ := roundedMantissa_cases em
  · omega
  · have hne : x ≠ em.mantissa := fun hx => by
      rw [h.exact_iff.mpr hx] at hbits
      cases hbits
    have hlt : (em.mantissa : ℚ) < n := (lt_of_le_of_ne h.le hne.symm).trans_le hn
    have hlt' : em.mantissa < n := by exact_mod_cast hlt
    omega

end Marks

/-! ### The numbers of a format -/

/-- The number `m * 2 ^ e` has a mantissa and an exponent of the format, as long as it is not too
large. -/
structure Fits (f : Format) (m : ℕ) (e : ℤ) : Prop where
  lt : m < 2 ^ f.mantissaBits
  le : f.minExponent ≤ e

/-- The mantissa has all its bits, unless the exponent is the smallest. -/
structure Canonical (f : Format) (m : ℕ) (e : ℤ) : Prop extends Fits f m e where
  normal : e = f.minExponent ∨ 2 ^ f.mantissaBitsWithoutImplicit ≤ m

theorem mantissaBits_eq (f : Format) : f.mantissaBits = 1 + f.mantissaBitsWithoutImplicit := rfl

theorem two_pow_mantissaBits (f : Format) :
    2 ^ f.mantissaBits = 2 * 2 ^ f.mantissaBitsWithoutImplicit := by
  rw [mantissaBits_eq, Nat.add_comm, pow_succ, Nat.mul_comm]

theorem mantissa_ofMantissaAndAccuracy (m : ℕ) (a : Accuracy) :
    (ExtendedMantissa.ofMantissaAndAccuracy m a).mantissa = m := by
  unfold ExtendedMantissa.ofMantissaAndAccuracy
  split <;> rfl

/-- The first shift, to the exponent of the format: it changes nothing about the number. -/
theorem exists_shiftToTargetExponent {f : Format} {m : ℕ} {e : ℤ} {a : Accuracy} {x : ℚ}
    (hx : Marks (.ofMantissaAndAccuracy m a) x) (he : e ≤ f.targetExponent (totalExponent m e)) :
    ∃ em t y, shiftToTargetExponent f m e a = (em, t) ∧ Marks em y ∧ y * 2 ^ t = x * 2 ^ e ∧
      f.minExponent ≤ t ∧ y < 2 ^ f.mantissaBits ∧
      (t = f.minExponent ∨ 2 ^ f.mantissaBitsWithoutImplicit ≤ y) := by
  have hle := hx.le
  have hlt := hx.lt
  set t := f.targetExponent (totalExponent m e) with ht
  have htarget : t = max (m.log2 + 1 + e - f.mantissaBits) f.minExponent := rfl
  have hbits : f.mantissaBits = 1 + f.mantissaBitsWithoutImplicit := rfl
  obtain ⟨k, hk⟩ : ∃ k : ℕ, t = e + k := ⟨(t - e).toNat, by omega⟩
  have hshift : (t - e).toNat = k := by omega
  refine ⟨ExtendedMantissa.ofMantissaAndAccuracy m a >>> k, t, x / 2 ^ k, ?_, hx.shiftRight k, ?_,
    le_max_right _ _, ?_, ?_⟩
  · change (ExtendedMantissa.ofMantissaAndAccuracy m a >>> (t - e).toNat,
      e + ((t - e).toNat : ℤ)) = _
    rw [hshift, ← hk]
  · rw [hk, zpow_add₀ two_ne_zero, zpow_natCast]
    field_simp
  · have hm : m < 2 ^ (f.mantissaBits + k) :=
      Nat.lt_log2_self.trans_le (Nat.pow_le_pow_right two_pos (by omega))
    have hm' : (m + 1 : ℚ) ≤ 2 ^ (f.mantissaBits + k) := by exact_mod_cast hm
    rw [div_lt_iff₀ (pow_pos two_pos k), ← pow_add]
    rw [mantissa_ofMantissaAndAccuracy] at hlt
    exact hlt.trans_le hm'
  · by_cases htmin : t = f.minExponent
    · exact Or.inl htmin
    have hlog : f.mantissaBitsWithoutImplicit + k = m.log2 := by omega
    have hm0 : m ≠ 0 := by
      rintro rfl
      have := f.hm
      rw [Nat.log2_zero] at hlog
      omega
    have hm : ((2 ^ (f.mantissaBitsWithoutImplicit + k) : ℕ) : ℚ) ≤ m := by
      rw [hlog]
      exact_mod_cast Nat.log2_self_le hm0
    rw [mantissa_ofMantissaAndAccuracy] at hle
    rw [le_div_iff₀ (pow_pos two_pos k), ← pow_add]
    exact Or.inr (by exact_mod_cast hm.trans hle)

/-- The second shift, after rounding up to a mantissa with one bit too many. -/
theorem exists_shiftToTargetExponent_exact {f : Format} {r : ℕ} {t : ℤ}
    (hr : r ≤ 2 ^ f.mantissaBits) (ht : f.minExponent ≤ t)
    (hnormal : t = f.minExponent ∨ 2 ^ f.mantissaBitsWithoutImplicit ≤ r) :
    ∃ m e, (shiftToTargetExponent f r t .exact).1.mantissa = m ∧
      (shiftToTargetExponent f r t .exact).2 = e ∧ (m : ℚ) * 2 ^ e = r * 2 ^ t ∧
      Canonical f m e := by
  have hbits : f.mantissaBits = 1 + f.mantissaBitsWithoutImplicit := rfl
  have hpow := two_pow_mantissaBits f
  have hshift : shiftToTargetExponent f r t .exact =
      ((⟨r, false, false⟩ : ExtendedMantissa) >>>
          (max (r.log2 + 1 + t - f.mantissaBits) f.minExponent - t).toNat,
        t + ((max (r.log2 + 1 + t - f.mantissaBits) f.minExponent - t).toNat : ℤ)) :=
    rfl
  rcases Nat.lt_or_eq_of_le hr with hlt | rfl
  · have hlog : r.log2 < f.mantissaBits := by
      by_cases h0 : r = 0
      · rw [h0, Nat.log2_zero]
        omega
      · exact (Nat.log2_lt h0).mpr hlt
    have hamount : (max (r.log2 + 1 + t - f.mantissaBits) f.minExponent - t).toNat = 0 := by omega
    rw [hshift, hamount]
    exact ⟨r, t, rfl, by simp, rfl, ⟨hlt, ht⟩, hnormal⟩
  · have hamount : (max ((2 ^ f.mantissaBits : ℕ).log2 + 1 + t - f.mantissaBits) f.minExponent - t).toNat =
        1 := by
      rw [Nat.log2_two_pow]
      omega
    have hhalf : 2 ^ f.mantissaBits / 2 = 2 ^ f.mantissaBitsWithoutImplicit := by omega
    rw [hshift, hamount]
    refine ⟨2 ^ f.mantissaBitsWithoutImplicit, t + 1, hhalf, rfl, ?_, ⟨?_, by omega⟩, Or.inr le_rfl⟩
    · rw [zpow_add_one₀ two_ne_zero, hpow]
      push_cast
      ring
    · have := Nat.two_pow_pos f.mantissaBitsWithoutImplicit
      omega

/-- A number below the mantissas of an exponent is below all that have their full length. -/
theorem Fits.lt_of_exponent_lt {f : Format} {n : ℕ} {k t : ℤ} (h : Fits f n k) (hk : k < t) :
    (n : ℚ) * 2 ^ k < 2 ^ f.mantissaBitsWithoutImplicit * 2 ^ t := by
  have hn : (n : ℚ) < 2 ^ f.mantissaBits := by exact_mod_cast h.lt
  calc (n : ℚ) * 2 ^ k < 2 ^ f.mantissaBits * 2 ^ k :=
        mul_lt_mul_of_pos_right hn (zpow_pos two_pos k)
    _ = 2 ^ f.mantissaBitsWithoutImplicit * 2 ^ (k + 1) := by
        rw [zpow_add_one₀ two_ne_zero, mantissaBits_eq, pow_add]
        ring
    _ ≤ 2 ^ f.mantissaBitsWithoutImplicit * 2 ^ t :=
        mul_le_mul_of_nonneg_left (zpow_le_zpow_right₀ one_le_two hk) (pow_pos two_pos _).le

/-- **A rounded mantissa passes over no number of the format.** -/
theorem Marks.rounded_between {f : Format} {em : ExtendedMantissa} {y : ℚ} {t : ℤ}
    (h : Marks em y) (hnormal : t = f.minExponent ∨ 2 ^ f.mantissaBitsWithoutImplicit ≤ y) {n : ℕ}
    {k : ℤ} (hnk : Fits f n k) :
    (y * 2 ^ t ≤ n * 2 ^ k → (em.roundedMantissa : ℚ) * 2 ^ t ≤ n * 2 ^ k) ∧
      ((n : ℚ) * 2 ^ k ≤ y * 2 ^ t → (n : ℚ) * 2 ^ k ≤ em.roundedMantissa * 2 ^ t) := by
  have hpos : (0 : ℚ) < 2 ^ t := zpow_pos two_pos t
  rcases lt_or_ge k t with hkt | hkt
  · have hlt := hnk.lt_of_exponent_lt hkt
    have hy : 2 ^ f.mantissaBitsWithoutImplicit ≤ y :=
      hnormal.resolve_left fun ht => absurd hnk.le (by omega)
    have hr : (2 ^ f.mantissaBitsWithoutImplicit : ℚ) ≤ em.roundedMantissa := by
      exact_mod_cast h.le_rounded (n := 2 ^ f.mantissaBitsWithoutImplicit) (by exact_mod_cast hy)
    refine ⟨fun hle => absurd (hle.trans_lt hlt) (not_lt.mpr ?_), fun _ => hlt.le.trans ?_⟩
    · exact mul_le_mul_of_nonneg_right hy hpos.le
    · exact mul_le_mul_of_nonneg_right hr hpos.le
  · -- At a larger exponent the number is a whole multiple of the unit of `y`.
    obtain ⟨j, rfl⟩ : ∃ j : ℕ, k = t + j := ⟨(k - t).toNat, by omega⟩
    have hwhole : (n : ℚ) * 2 ^ (t + j : ℤ) = (n * 2 ^ j : ℕ) * 2 ^ t := by
      rw [zpow_add₀ two_ne_zero, zpow_natCast]
      push_cast
      ring
    rw [hwhole, mul_le_mul_iff_left₀ hpos, mul_le_mul_iff_left₀ hpos, mul_le_mul_iff_left₀ hpos,
      mul_le_mul_iff_left₀ hpos]
    exact ⟨fun hle => by exact_mod_cast h.rounded_le hle,
      fun hle => by exact_mod_cast h.le_rounded hle⟩

/-- A number with a sign, or zero. -/
def ofParts (s : Sign) (m : ℕ) (e : ℤ) : UnpackedFloat :=
  if h : m = 0 then .zero s else .finite s m e (Nat.pos_of_ne_zero h)

theorem finite_eq_ofParts {s : Sign} {m : ℕ} {e : ℤ} (hm : 0 < m) :
    UnpackedFloat.finite s m e hm = ofParts s m e := by
  rw [ofParts, dif_neg hm.ne']

/-- **Rounding** gives a number in canonical form, and passes over no number of the format. -/
theorem exists_roundWithAccuracy {f : Format} (s : Sign) {m : ℕ} {e : ℤ} {a : Accuracy} {x : ℚ}
    (hx : Marks (.ofMantissaAndAccuracy m a) x) (he : e ≤ f.targetExponent (totalExponent m e)) :
    ∃ m' e', roundWithAccuracy f s m e a = ofParts s m' e' ∧ Canonical f m' e' ∧
      ∀ n k, Fits f n k →
        (x * 2 ^ e ≤ n * 2 ^ k → (m' : ℚ) * 2 ^ e' ≤ n * 2 ^ k) ∧
          ((n : ℚ) * 2 ^ k ≤ x * 2 ^ e → (n : ℚ) * 2 ^ k ≤ m' * 2 ^ e') := by
  obtain ⟨em, t, y, hshift, hmarks, hval, ht, hlt, hnormal⟩ := exists_shiftToTargetExponent hx he
  have hr : em.roundedMantissa ≤ 2 ^ f.mantissaBits :=
    hmarks.rounded_le (by exact_mod_cast hlt.le)
  have hrnormal : t = f.minExponent ∨ 2 ^ f.mantissaBitsWithoutImplicit ≤ em.roundedMantissa :=
    hnormal.imp_right fun hy => hmarks.le_rounded (by exact_mod_cast hy)
  obtain ⟨m', e', hm', he', hval', hcan⟩ := exists_shiftToTargetExponent_exact hr ht hrnormal
  refine ⟨m', e', ?_, hcan, fun n k hnk => ?_⟩
  · unfold roundWithAccuracy
    rw [hshift]
    subst hm' he'
    rfl
  · rw [← hval, hval']
    exact hmarks.rounded_between hnormal hnk

end Strided
