import Strided.Proofs.Ieee
import Strided.Proofs.ModifiedRotation

/-! # Rescaling in binary arithmetic

The weights of a modified rotation are rescaled by a power of two. In a binary format this is exact
toward the bounds, so a loop over a positive weight comes to its end, as it does in exact
arithmetic. It does not if the weight is infinite, for then it stays infinite. The first loop does
not end from a negative weight either: the weight is compared with its sign, and only grows.

* `Weighted.finite_of_rescaled`, `Weighted.not_tame_of_rescaled`: one rescaling.
* `Weighted.exists_settleFirst?_iff`, `Weighted.exists_settleSecond?_iff`: when the loops end.
* `Weighted.tame_start`: no weight becomes infinite or negative if neither was.
* `binary_rescaling`: the result, and `make?_eq_none_of_finite`: calls without one. -/

namespace Strided

open Float.Model Float.Model.UnpackedFloat

open Ieee

variable {ρ : Type} [RealScalar ρ] [Ieee ρ]

namespace Weighted

/-! ### One rescaling -/

section Number
variable {a c b : ρ} {s : Sign} {m : ℕ} {e : ℤ} {hm : 0 < m}

theorem canonical_of_view (h : view a = .finite s m e hm) :
    Canonical (format ρ) m e ∧ e ≤ maxExponent (format ρ) := by
  have hstored := stored a
  rw [h] at hstored
  exact hstored

theorem le_rgamSq_iff (h : view a = .finite .positive m e hm) :
    a ≤ rgamSq ↔ (m : ℚ) * 2 ^ e ≤ (2 ^ 24)⁻¹ := by
  have hpower : Stored (format ρ) (power (format ρ) (-24)) :=
    stored_power_of_le le_rfl (by norm_num)
  rw [le_iff, h, view_rgamSq, power, le_finite_iff hm _ (canonical_of_view h).1 hpower.1,
    power_value, zpow_neg]
  norm_cast

theorem gamSq_le_iff (h : view a = .finite .positive m e hm) :
    gamSq ≤ a ↔ (2 : ℚ) ^ 24 ≤ m * 2 ^ e := by
  have hpower : Stored (format ρ) (power (format ρ) 24) :=
    stored_power_of_le (by norm_num) le_rfl
  rw [le_iff, h, view_gamSq, power, le_finite_iff _ hm hpower.1 (canonical_of_view h).1,
    power_value]
  norm_cast

theorem rounds_mul_gamSq (h : view a = .finite s m e hm) :
    Rounds (format ρ) s (m * 2 ^ e * 2 ^ 24) (view (a * gamSq)) := by
  have hpower : Stored (format ρ) (power (format ρ) 24) :=
    stored_power_of_le (by norm_num) le_rfl
  have hsign : s * .positive = s := by cases s <;> rfl
  have hrounds := rounds_mul (s := s) (t := .positive) hm (Nat.two_pow_pos _)
    (canonical_of_view h).1 hpower.1
  rw [power_value, hsign, zpow_ofNat] at hrounds
  rw [view_mul, h, view_gamSq]
  exact hrounds

theorem rounds_div_gamSq (h : view a = .finite s m e hm) :
    Rounds (format ρ) s (m * 2 ^ e / 2 ^ 24) (view (a / gamSq)) := by
  have hsign : s / .positive = s := by cases s <;> rfl
  have hrounds := rounds_div (f := format ρ) (s := s) (t := .positive) (e := e)
    (k := 24 - (format ρ).mantissaBitsWithoutImplicit) hm
    (Nat.two_pow_pos (format ρ).mantissaBitsWithoutImplicit)
  rw [power_value, hsign, zpow_ofNat] at hrounds
  rw [view_div, h, view_gamSq]
  exact hrounds

/-- A small number has room for a larger exponent. -/
theorem exponent_add_le (h : view a = .finite s m e hm) (hle : (m : ℚ) * 2 ^ e ≤ (2 ^ 24)⁻¹) :
    e + 24 ≤ maxExponent (format ρ) := by
  obtain ⟨hcan, -⟩ := canonical_of_view h
  have hwide := wide (ρ := ρ)
  have hmin := minExponent_eq (format ρ)
  have hmax : maxExponent (format ρ) =
      (format ρ).exponentBias - (format ρ).mantissaBitsWithoutImplicit := rfl
  obtain he | hfull := hcan.normal
  · omega
  · have hfull' : (2 : ℚ) ^ ((format ρ).mantissaBitsWithoutImplicit : ℤ) ≤ m := by
      exact_mod_cast hfull
    have hpow : (2 : ℚ) ^ ((format ρ).mantissaBitsWithoutImplicit + e : ℤ) ≤ 2 ^ (-24 : ℤ) := by
      rw [zpow_add₀ two_ne_zero, zpow_neg]
      exact (mul_le_mul_of_nonneg_right hfull' (zpow_pos two_pos e).le).trans (by exact_mod_cast hle)
    have hexp := (zpow_le_zpow_iff_right₀ one_lt_two).mp hpow
    omega

/-- A large number has room for a smaller exponent. -/
theorem le_exponent_sub (h : view a = .finite s m e hm) (hle : (2 : ℚ) ^ 24 ≤ m * 2 ^ e) :
    (format ρ).minExponent ≤ e - 24 := by
  obtain ⟨hcan, -⟩ := canonical_of_view h
  have hwide := wide (ρ := ρ)
  have hmin := minExponent_eq (format ρ)
  have hbits : (format ρ).mantissaBits = 1 + (format ρ).mantissaBitsWithoutImplicit := rfl
  have hlt : (m : ℚ) < 2 ^ ((format ρ).mantissaBits : ℤ) := by exact_mod_cast hcan.lt
  have hpow : (2 : ℚ) ^ (24 : ℤ) < 2 ^ ((format ρ).mantissaBits + e : ℤ) := by
    rw [zpow_add₀ two_ne_zero]
    exact lt_of_le_of_lt (by exact_mod_cast hle)
      (mul_lt_mul_of_pos_right hlt (zpow_pos two_pos e))
  have hexp := (zpow_lt_zpow_iff_right₀ one_lt_two).mp hpow
  omega

/-- **One rescaling is exact.** The weight `a` has the size `c`. -/
theorem finite_of_rescaled (h : Rescaled c a b) (ha : view a = .finite s m e hm)
    (hc : view c = .finite .positive m e hm) :
    ∃ m' e' hm', view b = .finite s m' e' hm' ∧
      ((m : ℚ) * 2 ^ e ≤ (2 ^ 24)⁻¹ ∧ (m' : ℚ) * 2 ^ e' = m * 2 ^ e * 2 ^ 24 ∨
        (2 : ℚ) ^ 24 ≤ m * 2 ^ e ∧ (m' : ℚ) * 2 ^ e' = m * 2 ^ e * (2 ^ 24)⁻¹) := by
  obtain ⟨hcan, hmax⟩ := canonical_of_view ha
  obtain ⟨hle, rfl⟩ | ⟨-, hle, rfl⟩ := h
  · rw [le_rgamSq_iff hc] at hle
    have hvalue : (m : ℚ) * 2 ^ e * 2 ^ 24 = m * 2 ^ (e + 24) := by
      rw [zpow_add₀ two_ne_zero, mul_assoc]
      norm_cast
    obtain ⟨m', e', hm', hb, hv⟩ := (rounds_mul_gamSq ha).exact
      (⟨hcan.lt, by have := hcan.le; omega⟩ : Fits (format ρ) m (e + 24))
      (exponent_add_le ha hle) hm hvalue
    exact ⟨m', e', hm', hb, Or.inl ⟨hle, hv⟩⟩
  · rw [gamSq_le_iff hc] at hle
    have hvalue : (m : ℚ) * 2 ^ e / 2 ^ 24 = m * 2 ^ (e - 24) := by
      rw [zpow_sub₀ two_ne_zero, mul_div_assoc]
      norm_cast
    obtain ⟨m', e', hm', hb, hv⟩ := (rounds_div_gamSq ha).exact
      (⟨hcan.lt, le_exponent_sub ha hle⟩ : Fits (format ρ) m (e - 24)) (by omega) hm hvalue
    exact ⟨m', e', hm', hb, Or.inr ⟨hle, by rw [hv, div_eq_mul_inv]⟩⟩

/-- A negative number that is scaled up does not come back to zero. -/
theorem view_mul_gamSq_ne_zero (h : view a = .finite s m e hm) :
    view (a * gamSq) = .infinity s ∨ ∃ m' e' hm', view (a * gamSq) = .finite s m' e' hm' := by
  obtain ⟨hcan, hmax⟩ := canonical_of_view h
  have hpos : (0 : ℚ) ≤ m * 2 ^ e := mul_nonneg m.cast_nonneg (zpow_pos two_pos e).le
  have hle : (m : ℚ) * 2 ^ e ≤ m * 2 ^ e * 2 ^ 24 := le_mul_of_one_le_right hpos (by norm_num)
  obtain hb | ⟨m', e', hm', hb, -⟩ :=
    (rounds_mul_gamSq h).infinite_or_finite hcan.toFits hmax hm hle
  · exact Or.inl hb
  · exact Or.inr ⟨m', e', hm', hb⟩

theorem infinity_of_rescaled (h : Rescaled c a b) (ha : view a = .infinity s) :
    view b = .infinity s := by
  obtain ⟨-, rfl⟩ | ⟨-, -, rfl⟩ := h
  · rw [view_mul, ha, view_gamSq]
    cases s <;> exact deliver_infinity _
  · rw [view_div, ha, view_gamSq]
    cases s <;> exact deliver_infinity _

end Number

/-! ### The loops -/

/-- Not a number, zero, or a number between the bounds. -/
def InBounds : UnpackedFloat → Prop
  | .infinity _ => False
  | .finite _ m e _ => ((2 : ℚ) ^ 24)⁻¹ < m * 2 ^ e ∧ (m : ℚ) * 2 ^ e < 2 ^ 24
  | _ => True

/-- A weight from which both loops end: not infinite, and not negative. -/
def Tame (u : UnpackedFloat) : Prop := u.isInf = false ∧ Signed .positive u

instance : DecidablePred Tame := fun _ => instDecidableAnd

/-- What is out of bounds is rescaled, and so is every negative number. -/
theorem inBounds_of_not_le {a : ρ} (hlow : ¬ a ≤ rgamSq) (hhigh : ¬ gamSq ≤ a) :
    InBounds (view a) ∧ Tame (view a) := by
  cases hu : view a with
  | infinity s =>
    rw [le_iff, hu, view_rgamSq] at hlow
    rw [le_iff, hu, view_gamSq] at hhigh
    cases s with
    | negative => exact absurd rfl hlow
    | positive => exact absurd rfl hhigh
  | notANumber => exact ⟨trivial, rfl, trivial⟩
  | zero s => exact ⟨trivial, rfl, trivial⟩
  | finite s m e hm =>
    cases s with
    | negative =>
      rw [le_iff, hu, view_rgamSq] at hlow
      exact absurd rfl hlow
    | positive =>
      rw [le_rgamSq_iff hu, not_le] at hlow
      rw [gamSq_le_iff hu, not_le] at hhigh
      exact ⟨⟨hlow, hhigh⟩, rfl, rfl⟩

/-- **A weight that is infinite or negative stays so** when it is compared with its sign. -/
theorem not_tame_of_rescaled {a b : ρ} (h : Rescaled a a b) (ha : ¬ Tame (view a)) :
    ¬ Tame (view b) := by
  cases hu : view a with
  | infinity r =>
    rw [infinity_of_rescaled h hu]
    exact fun hb => Bool.noConfusion hb.1
  | notANumber => exact absurd (by rw [hu]; exact ⟨rfl, trivial⟩) ha
  | zero r => exact absurd (by rw [hu]; exact ⟨rfl, trivial⟩) ha
  | finite r m e hm =>
    cases r with
    | positive => exact absurd (by rw [hu]; exact ⟨rfl, rfl⟩) ha
    | negative =>
      have hlow : a ≤ rgamSq := by
        rw [le_iff, hu, view_rgamSq]
        rfl
      -- A negative weight counts as small, so it is only ever scaled up.
      obtain ⟨-, rfl⟩ | ⟨hnot, -⟩ := h
      · obtain hinf | ⟨m', e', hm', hfin⟩ := view_mul_gamSq_ne_zero hu
        · rw [hinf]
          exact fun hb => Bool.noConfusion hb.1
        · rw [hfin]
          exact fun hb => Sign.noConfusion hb.2
      · exact absurd hlow hnot

theorem not_le_of_notANumber {a : ρ} (h : view a = .notANumber) :
    ¬ a ≤ rgamSq ∧ ¬ gamSq ≤ a := by
  rw [le_iff, le_iff, h, view_rgamSq, view_gamSq]
  exact ⟨Bool.false_ne_true, Bool.false_ne_true⟩

theorem inBounds_of_abs {u : UnpackedFloat} (h : InBounds u.abs) : InBounds u := by
  cases u <;> exact h

/-- The distance from zero of a number. -/
def size (u : UnpackedFloat) : ℚ := (magnitude u).untopD 0

theorem size_pos {u : UnpackedFloat} {s : Sign} {m : ℕ} {e : ℤ} {hm : 0 < m}
    (h : u = .finite s m e hm) : 0 < size u := by
  subst h
  exact mul_pos (by exact_mod_cast hm) (zpow_pos two_pos e)

/-- **A loop over a number ends.** The sign `r` of the weight is kept, and `c` gives its size. -/
theorem exists_settles_of_rescaled {step : Weighted ρ → Option (Weighted ρ)} {w : Weighted ρ → ρ}
    {c : ρ → ρ} {r : Sign}
    (hstep : ∀ u v, step u = some v → Rescaled (c (w u)) (w u) (w v))
    (hc : ∀ a m e hm, view a = .finite r m e hm → view (c a) = .finite .positive m e hm)
    {s : Weighted ρ} {m : ℕ} {e : ℤ} {hm : 0 < m} (h : view (w s) = .finite r m e hm) :
    ∃ k t, Settles step s k t := by
  refine exists_settles_of_invariant (m := fun u => size (view (w u))) (g := 2 ^ 24)
    (P := fun u => ∃ m e hm, view (w u) = .finite r m e hm) (by norm_num)
    (fun u v hu huv => ?_) ⟨m, e, hm, h⟩ (size_pos h)
  obtain ⟨m, e, hm, hu⟩ := hu
  obtain ⟨m', e', hm', hv, hsize⟩ := finite_of_rescaled (hstep u v huv) hu (hc _ _ _ _ hu)
  refine ⟨⟨m', e', hm', hv⟩, ?_⟩
  rw [hu, hv]
  exact hsize

section First
variable {s t : Weighted ρ}

/-- **The first loop does not end** from a weight that is infinite or negative. -/
theorem settleFirst?_eq_none (h : ¬ Tame (view s.d1)) : settleFirst? s = none := by
  have hzero : ¬ (s.d1 == 0) = true := by
    rw [beq_zero_iff]
    rintro ⟨r, hr⟩
    rw [hr] at h
    exact h ⟨rfl, trivial⟩
  rw [settleFirst?, if_neg hzero]
  refine settle?_eq_none (P := fun u : Weighted ρ => ¬ Tame (view u.d1)) (fun u hu => ?_) h
  cases hstep : rescaleFirst? u with
  | none =>
    obtain ⟨hlow, hhigh⟩ := rescaleFirst?_eq_none_iff.mp hstep
    exact absurd (inBounds_of_not_le hlow hhigh).2 hu
  | some v => exact ⟨v, rfl, not_tame_of_rescaled (rescaled_of_rescaleFirst? hstep).1 hu⟩

theorem exists_settleFirst?_iff :
    (∃ t, settleFirst? s = some t) ↔ Tame (view s.d1) := by
  constructor
  · rintro ⟨t, ht⟩
    by_contra h
    rw [settleFirst?_eq_none h] at ht
    cases ht
  · rintro ⟨hinf, hsigned⟩
    unfold settleFirst?
    cases hview : view s.d1 with
    | infinity r =>
      rw [hview] at hinf
      cases hinf
    | notANumber =>
      have hnone := rescaleFirst?_eq_none_iff.mpr (not_le_of_notANumber hview)
      split_ifs
      · exact ⟨s, rfl⟩
      · exact ⟨s, settle?_eq_some_iff.mpr ⟨0, .done hnone⟩⟩
    | zero r => exact ⟨s, if_pos (beq_zero_iff.mpr ⟨r, hview⟩)⟩
    | finite r m e hm =>
      rw [hview] at hsigned
      cases hsigned
      obtain ⟨k, t, ht⟩ := exists_settles_of_rescaled (c := id)
        (fun _ _ h => (rescaled_of_rescaleFirst? h).1) (fun _ _ _ _ h => h) hview
      split_ifs
      · exact ⟨s, rfl⟩
      · exact ⟨t, settle?_eq_some_iff.mpr ⟨k, ht⟩⟩

/-- What the first loop leaves. -/
theorem of_settleFirst? (h : settleFirst? s = some t) :
    InBounds (view t.d1) ∧ t.d2 = s.d2 := by
  unfold settleFirst? at h
  split_ifs at h with hzero
  · cases h
    obtain ⟨r, hr⟩ := beq_zero_iff.mp hzero
    rw [hr]
    exact ⟨trivial, rfl⟩
  · obtain ⟨k, hk⟩ := settle?_eq_some_iff.mp h
    obtain ⟨hlow, hhigh⟩ := rescaleFirst?_eq_none_iff.mp hk.stuck
    refine ⟨(inBounds_of_not_le hlow hhigh).1, ?_⟩
    exact hk.invariant (P := fun u : Weighted ρ => u.d2 = s.d2)
      (fun u v hu hstep => (rescaled_of_rescaleFirst? hstep).2.trans hu) rfl

end First

section Second
variable {s t : Weighted ρ}

/-- **The second loop does not end** from an infinite weight. -/
theorem settleSecond?_eq_none {r : Sign} (h : view s.d2 = .infinity r) :
    settleSecond? s = none := by
  have hzero : ¬ (s.d2 == 0) = true := by
    rw [beq_zero_iff]
    rintro ⟨r', hr'⟩
    rw [h] at hr'
    cases hr'
  rw [settleSecond?, if_neg hzero]
  refine settle?_eq_none (P := fun u : Weighted ρ => view u.d2 = .infinity r) (fun u hu => ?_) h
  cases hstep : rescaleSecond? u with
  | none =>
    obtain ⟨hlow, hhigh⟩ := rescaleSecond?_eq_none_iff.mp hstep
    have hbounds := (inBounds_of_not_le hlow hhigh).1
    rw [view_abs, hu] at hbounds
    exact hbounds.elim
  | some v =>
    exact ⟨v, rfl, infinity_of_rescaled (rescaled_of_rescaleSecond? hstep).1 hu⟩

theorem exists_settleSecond?_iff :
    (∃ t, settleSecond? s = some t) ↔ (view s.d2).isInf = false := by
  constructor
  · rintro ⟨t, ht⟩
    cases hview : view s.d2 with
    | infinity r =>
      rw [settleSecond?_eq_none hview] at ht
      cases ht
    | _ => rfl
  · intro hinf
    unfold settleSecond?
    cases hview : view s.d2 with
    | infinity r =>
      rw [hview] at hinf
      cases hinf
    | notANumber =>
      have habs : view (RealScalar.abs s.d2) = .notANumber := by
        rw [view_abs, hview]
        rfl
      have hnone := rescaleSecond?_eq_none_iff.mpr (not_le_of_notANumber habs)
      split_ifs
      · exact ⟨s, rfl⟩
      · exact ⟨s, settle?_eq_some_iff.mpr ⟨0, .done hnone⟩⟩
    | zero r => exact ⟨s, if_pos (beq_zero_iff.mpr ⟨r, hview⟩)⟩
    | finite r m e hm =>
      obtain ⟨k, t, ht⟩ := exists_settles_of_rescaled
        (fun _ _ h => (rescaled_of_rescaleSecond? h).1) (fun a _ _ _ h => by rw [view_abs, h]; rfl)
        hview
      split_ifs
      · exact ⟨s, rfl⟩
      · exact ⟨t, settle?_eq_some_iff.mpr ⟨k, ht⟩⟩

/-- What the second loop leaves. -/
theorem of_settleSecond? (h : settleSecond? s = some t) :
    InBounds (view t.d2) ∧ t.d1 = s.d1 := by
  unfold settleSecond? at h
  split_ifs at h with hzero
  · cases h
    obtain ⟨r, hr⟩ := beq_zero_iff.mp hzero
    rw [hr]
    exact ⟨trivial, rfl⟩
  · obtain ⟨k, hk⟩ := settle?_eq_some_iff.mp h
    obtain ⟨hlow, hhigh⟩ := rescaleSecond?_eq_none_iff.mp hk.stuck
    have hbounds := (inBounds_of_not_le hlow hhigh).1
    rw [view_abs] at hbounds
    refine ⟨inBounds_of_abs hbounds, ?_⟩
    exact hk.invariant (P := fun u : Weighted ρ => u.d1 = s.d1)
      (fun u v hu hstep => (rescaled_of_rescaleSecond? hstep).2.trans hu) rfl

end Second

/-! ### The weights before rescaling -/

/-- Zero, or not a number. -/
def Null : UnpackedFloat → Prop
  | .notANumber => True
  | .zero _ => True
  | _ => False

theorem null_mul_left {f : Format} {u : UnpackedFloat} (v : UnpackedFloat) (h : Null u) :
    Null (deliver f (UnpackedFloat.mul f u v)) := by
  cases u <;> cases v <;> simp_all [Null, UnpackedFloat.mul]

theorem null_mul_right {f : Format} (u : UnpackedFloat) {v : UnpackedFloat} (h : Null v) :
    Null (deliver f (UnpackedFloat.mul f u v)) := by
  cases u <;> cases v <;> simp_all [Null, UnpackedFloat.mul]

theorem ne_zero_of_not_null {u : UnpackedFloat} (h : ¬ Null u) (r : Sign) : u ≠ .zero r := by
  rintro rfl
  exact h trivial

theorem not_null_of_abs_lt {a b : ρ} (h : RealScalar.abs a < RealScalar.abs b) :
    ¬ Null (view b) := by
  rw [lt_iff, view_abs, view_abs] at h
  intro hnull
  cases hb : view b with
  | notANumber =>
    rw [hb] at h
    cases hu : view a <;> rw [hu] at h <;> cases h
  | zero r =>
    rw [hb] at h
    cases hu : view a <;> rw [hu] at h <;> cases h
  | infinity r =>
    rw [hb] at hnull
    exact hnull
  | finite r m e hm =>
    rw [hb] at hnull
    exact hnull

section Start
variable {d1 d2 x1 y1 : ρ}

theorem tame_div {d u : ρ} (hd : Tame (view d)) (hu : AtLeastOne (view u)) :
    Tame (view (d / u)) := by
  rw [view_div]
  exact ⟨isInf_div (stored d) hd.1 hu, signed_div (s := .positive) hd.2 hu.signed hu.ne_zero⟩

theorem tame_zero : Tame (view (0 : ρ)) := by
  rw [view_zero]
  exact ⟨rfl, trivial⟩

/-- The entries of the matrix have opposite signs, so their product adds to the divisor. -/
theorem atLeastOne_diagonalDivisor (h1 : Signed .positive (view d1))
    (h2 : Signed .positive (view d2))
    (hlt : RealScalar.abs (d2 * y1 * y1) < RealScalar.abs (d1 * x1 * x1)) :
    AtLeastOne (view (diagonalDivisor d1 d2 x1 y1)) := by
  have hq := not_null_of_abs_lt hlt
  rw [view_mul] at hq
  have hp1 : ¬ Null (view (d1 * x1)) := fun h => hq (null_mul_left _ h)
  have hx1 : ¬ Null (view x1) := fun h => hq (null_mul_right _ h)
  obtain ⟨sx, hsx⟩ := exists_signed (view x1)
  obtain ⟨sy, hsy⟩ := exists_signed (view y1)
  have hsp1 : Signed (.positive * sx) (view (d1 * x1)) := by
    rw [view_mul]
    exact signed_mul (stored d1) (stored x1) h1 hsx
  have hsp2 : Signed (.positive * sy) (view (d2 * y1)) := by
    rw [view_mul]
    exact signed_mul (stored d2) (stored y1) h2 hsy
  have hh12 : Signed (.positive * sy / (.positive * sx)) (view (d2 * y1 / (d1 * x1))) := by
    rw [view_div]
    exact signed_div hsp2 hsp1 (ne_zero_of_not_null hp1)
  have hh21 : Signed (-sy / sx) (view (-y1 / x1)) := by
    rw [view_div, view_neg]
    exact signed_div (signed_neg hsy) hsx (ne_zero_of_not_null hx1)
  have hsign : Sign.positive * sy / (.positive * sx) * (-sy / sx) = .negative := by
    cases sx <;> cases sy <;> rfl
  rw [diagonalDivisor, view_sub, view_one, view_mul]
  refine atLeastOne_sub (stored_power_of_le (by norm_num) (by norm_num)) ?_
  rw [← hsign]
  exact signed_mul (stored _) (stored _) hh12 hh21

/-- The entries of the matrix have the same sign, so their product adds to the divisor. -/
theorem atLeastOne_antidiagonalDivisor (x1 : ρ) (h1 : Signed .positive (view d1))
    (h2 : Signed .positive (view d2)) (hp2 : ∀ r, view (d2 * y1) ≠ .zero r)
    (hy1 : ∀ r, view y1 ≠ .zero r) :
    AtLeastOne (view (antidiagonalDivisor d1 d2 x1 y1)) := by
  obtain ⟨sx, hsx⟩ := exists_signed (view x1)
  obtain ⟨sy, hsy⟩ := exists_signed (view y1)
  have hsp1 : Signed (.positive * sx) (view (d1 * x1)) := by
    rw [view_mul]
    exact signed_mul (stored d1) (stored x1) h1 hsx
  have hsp2 : Signed (.positive * sy) (view (d2 * y1)) := by
    rw [view_mul]
    exact signed_mul (stored d2) (stored y1) h2 hsy
  have hh11 : Signed (.positive * sx / (.positive * sy)) (view (d1 * x1 / (d2 * y1))) := by
    rw [view_div]
    exact signed_div hsp1 hsp2 hp2
  have hh22 : Signed (sx / sy) (view (x1 / y1)) := by
    rw [view_div]
    exact signed_div hsx hsy hy1
  have hsign : Sign.positive * sx / (.positive * sy) * (sx / sy) = .positive := by
    cases sx <;> cases sy <;> rfl
  rw [antidiagonalDivisor, view_add, view_one, view_mul]
  refine atLeastOne_add (stored_power_of_le (by norm_num) (by norm_num)) ?_
  rw [← hsign]
  exact signed_mul (stored _) (stored _) hh11 hh22

/-- **Weights that are finite and not negative stay so**, whatever the pair is. -/
theorem tame_start (x1 : ρ) (h1 : Tame (view d1)) (h2 : Tame (view d2))
    (hp2 : ∀ r, view (d2 * y1) ≠ .zero r) (hy1 : ∀ r, view y1 ≠ .zero r) :
    Tame (view (start d1 d2 x1 y1).d1) ∧ Tame (view (start d1 d2 x1 y1).d2) := by
  by_cases hlt : RealScalar.abs (d2 * y1 * y1) < RealScalar.abs (d1 * x1 * x1)
  · have hu := atLeastOne_diagonalDivisor h1.2 h2.2 hlt
    rw [start_of_lt hlt]
    split_ifs
    · exact ⟨tame_div h1 hu, tame_div h2 hu⟩
    · exact ⟨tame_zero, tame_zero⟩
  · have hu := atLeastOne_antidiagonalDivisor x1 h1.2 h2.2 hp2 hy1
    rw [start_of_not_lt hlt]
    split_ifs
    · exact ⟨tame_zero, tame_zero⟩
    · exact ⟨tame_div h2 hu, tame_div h1 hu⟩

theorem ne_zero_of_mul_ne_zero (h2 : (view d2).isFinite = true)
    (hp2 : ∀ r, view (d2 * y1) ≠ .zero r) (r : Sign) : view y1 ≠ .zero r := by
  intro hy1
  rw [view_mul, hy1] at hp2
  cases hu : view d2 with
  | infinity s =>
    rw [hu] at h2
    cases h2
  | notANumber =>
    rw [hu] at h2
    cases h2
  | zero s =>
    rw [hu] at hp2
    exact hp2 _ (deliver_zero _)
  | finite s m e hm =>
    rw [hu] at hp2
    exact hp2 _ (deliver_zero _)

theorem tame_of_isFinite {d : ρ} (h : (view d).isFinite = true) (hd : ¬ d < 0) :
    Tame (view d) := by
  refine ⟨?_, signed_of_not_neg hd⟩
  cases hu : view d with
  | infinity s =>
    rw [hu] at h
    cases h
  | _ => rfl

theorem exists_make?_iff :
    (∃ t, make? d1 d2 x1 y1 = some t) ↔ d1 < 0 ∨ (d2 * y1 == 0) = true ∨
      Tame (view (start d1 d2 x1 y1).d1) ∧ (view (start d1 d2 x1 y1).d2).isInf = false := by
  unfold make?
  split_ifs with hd hp
  · exact iff_of_true ⟨_, rfl⟩ (Or.inl hd)
  · exact iff_of_true ⟨_, rfl⟩ (Or.inr (Or.inl hp))
  · simp only [hd, hp, Bool.false_eq_true, false_or, Option.bind_eq_some_iff]
    constructor
    · rintro ⟨t, s, hs, ht⟩
      refine ⟨exists_settleFirst?_iff.mp ⟨s, hs⟩, ?_⟩
      rw [← (of_settleFirst? hs).2]
      exact exists_settleSecond?_iff.mp ⟨t, ht⟩
    · rintro ⟨h1, h2⟩
      obtain ⟨s, hs⟩ := exists_settleFirst?_iff.mpr h1
      rw [← (of_settleFirst? hs).2] at h2
      obtain ⟨t, ht⟩ := exists_settleSecond?_iff.mpr h2
      exact ⟨t, s, hs, ht⟩

theorem inBounds_of_make? {t : Weighted ρ} (h : make? d1 d2 x1 y1 = some t) :
    d1 < 0 ∨ (d2 * y1 == 0) = true ∨ InBounds (view t.d1) ∧ InBounds (view t.d2) := by
  unfold make? at h
  split_ifs at h with hd hp
  · exact Or.inl hd
  · exact Or.inr (Or.inl hp)
  · obtain ⟨s, hs, ht⟩ := Option.bind_eq_some_iff.mp h
    obtain ⟨hfirst, -⟩ := of_settleFirst? hs
    obtain ⟨hsecond, hkept⟩ := of_settleSecond? ht
    rw [← hkept] at hfirst
    exact Or.inr (Or.inr ⟨hfirst, hsecond⟩)

end Start

end Weighted

open Weighted

/-- **Rescaling in binary arithmetic.** A modified rotation is made exactly if the loops are not
reached, or the first weight is finite and not negative before them and the second is finite, where
what is not a number counts as finite. The loops leave weights between the bounds, zeros, or what is
not a number. For finite weights that are not negative there is always a result. -/
theorem binary_rescaling (d1 d2 x1 y1 : ρ) :
    ((∃ t, make? d1 d2 x1 y1 = some t) ↔ d1 < 0 ∨ (d2 * y1 == 0) = true ∨
        Tame (view (start d1 d2 x1 y1).d1) ∧ (view (start d1 d2 x1 y1).d2).isInf = false) ∧
      (∀ t, make? d1 d2 x1 y1 = some t → d1 < 0 ∨ (d2 * y1 == 0) = true ∨
        InBounds (view t.d1) ∧ InBounds (view t.d2)) ∧
      ((view d1).isFinite = true → (view d2).isFinite = true → ¬ d2 < 0 →
        ∃ t, make? d1 d2 x1 y1 = some t) := by
  refine ⟨exists_make?_iff, fun t => inBounds_of_make?, fun h1 h2 hd2 => ?_⟩
  rw [exists_make?_iff]
  by_cases hd1 : d1 < 0
  · exact Or.inl hd1
  by_cases hp : (d2 * y1 == 0) = true
  · exact Or.inr (Or.inl hp)
  have hp2 : ∀ r, view (d2 * y1) ≠ .zero r := fun r hr => hp (beq_zero_iff.mpr ⟨r, hr⟩)
  obtain ⟨hfirst, hsecond⟩ := tame_start x1 (tame_of_isFinite h1 hd1)
    (tame_of_isFinite h2 hd2) hp2 (ne_zero_of_mul_ne_zero h2 hp2)
  exact Or.inr (Or.inr ⟨hfirst, hsecond.1⟩)

/-- The largest weight beside the smallest one. -/
theorem binary_rescaling_extreme_weights :
    ∃ t, make? (Float.ofBits 0x7fefffffffffffff) (Float.ofBits 1) (Float.ofBits 1)
        (Float.ofBits 0x7fefffffffffffff) = some t ∧ InBounds (view t.d1) ∧ InBounds (view t.d2) := by
  obtain ⟨-, hbounds, hmake⟩ := binary_rescaling (Float.ofBits 0x7fefffffffffffff) (Float.ofBits 1)
    (Float.ofBits 1) (Float.ofBits 0x7fefffffffffffff)
  obtain ⟨t, ht⟩ := hmake rfl rfl (by decide +kernel)
  refine ⟨t, ht, ((hbounds t ht).resolve_left (by decide +kernel)).resolve_left ?_⟩
  decide +kernel

/-- **Finite arguments for which there is no result.** A negative second weight is moved to the first
place when `d2 * y1 * y1` is rounded to zero, and a difference that nearly cancels divides the first
weight to infinity. -/
theorem make?_eq_none_of_finite :
    ((∀ a ∈ [0, -1, Float.ofBits 0x1a70000000000000], (view a).isFinite = true) ∧
      make? (0 : Float) (-1) 0 (Float.ofBits 0x1a70000000000000) = none) ∧
    ((∀ a ∈ [0, -1, Float32.ofBits 0x0d800000], (view a).isFinite = true) ∧
      make? (0 : Float32) (-1) 0 (Float32.ofBits 0x0d800000) = none) ∧
    ((∀ a ∈ [Float.ofBits 0x7fe1ccf385ebc8a0, -Float.ofBits 0x7fe1ccf385ebc89c, 1],
        (view a).isFinite = true) ∧
      make? (Float.ofBits 0x7fe1ccf385ebc8a0) (-Float.ofBits 0x7fe1ccf385ebc89c) 1 1 = none) := by
  refine ⟨⟨by decide +kernel, ?_⟩, ⟨by decide +kernel, ?_⟩, by decide +kernel, ?_⟩ <;>
    rw [Option.eq_none_iff_forall_ne_some, ← not_exists, exists_make?_iff] <;> decide +kernel

end Strided
