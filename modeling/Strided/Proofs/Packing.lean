import Mathlib
import Strided.Proofs.Rounding

/-! # Stored numbers

A result is stored in the bits of its format before it is used again. A number in canonical form
comes back as it was, unless its exponent is too large: then infinity comes back.

* `unpack_packComponents`: what bits stand for.
* `Stored`, `stored_unpack`: what can come back.
* `deliver_of_stored`, `deliver_finite`: what comes back. -/

namespace Strided

open Float.Model Float.Model.UnpackedFloat

/-- The largest exponent of a number of the format. -/
def maxExponent (f : Format) : ℤ := f.exponentBias - f.mantissaBitsWithoutImplicit

theorem minExponent_eq (f : Format) :
    f.minExponent = 1 - f.exponentBias - f.mantissaBitsWithoutImplicit := by
  have hpos : 1 ≤ 2 ^ (f.exponentBits - 1) := Nat.one_le_two_pow
  unfold Format.minExponent Format.exponentBias Format.mantissaBits
  push_cast [Nat.cast_sub hpos]
  ring

theorem two_pow_exponentBits (f : Format) : 2 ^ f.exponentBits = 2 * f.exponentBias + 2 := by
  obtain ⟨k, hk⟩ : ∃ k, f.exponentBits = k + 1 := ⟨f.exponentBits - 1, by have := f.he; omega⟩
  have hpos : 1 ≤ 2 ^ k := Nat.one_le_two_pow
  have hbias : f.exponentBias = 2 ^ k - 1 := by rw [Format.exponentBias, hk, Nat.add_sub_cancel]
  rw [hk, hbias, pow_succ]
  omega

/-- What bits stand for: all ones and all zeros in the exponent are special. -/
theorem unpack_packComponents (f : Format) (s : Sign) (e : BitVec f.exponentBits)
    (m : BitVec f.mantissaBitsWithoutImplicit) :
    UnpackedFloat.unpack f (packComponents f s e m) =
      if e = -1#_ then if m = 0#_ then .infinity s else .notANumber
      else if e = 0#_ then ofParts s m.toNat f.minExponent
      else ofParts s (2 ^ f.mantissaBitsWithoutImplicit + m.toNat)
        (e.toNat - (f.exponentBias + f.mantissaBitsWithoutImplicit)) := by
  have himplicit : (1#1 ++ m).toNat = 2 ^ f.mantissaBitsWithoutImplicit + m.toNat := by
    rw [BitVec.toNat_append, ← Nat.shiftLeft_add_eq_or_of_lt m.isLt]
    simp [Nat.shiftLeft_eq]
  unfold UnpackedFloat.unpack
  simp only [unpackMantissa_packComponents, unpackExponent_packComponents,
    unpackSign_packComponents, Sign.ofBitVec_toBitVec]
  split_ifs with hones hm hzeros hm
  · rfl
  · rfl
  · rw [hm]
    rfl
  · rw [finite_eq_ofParts, hzeros, minExponent_eq]
    congr 1
    simp only [BitVec.toNat_ofNat, Nat.zero_mod, Nat.cast_zero]
    ring
  · rw [finite_eq_ofParts, himplicit]

/-- An exponent that is neither all ones nor all zeros. -/
theorem toNat_exponent {f : Format} {e : BitVec f.exponentBits} :
    (e = -1#_ ↔ e.toNat = 2 * f.exponentBias + 1) ∧ (e = 0#_ ↔ e.toNat = 0) ∧
      e.toNat ≤ 2 * f.exponentBias + 1 := by
  have hlt := e.isLt
  have hpow := two_pow_exponentBits f
  refine ⟨?_, ?_, by omega⟩
  · rw [BitVec.neg_one_eq_allOnes, ← BitVec.toNat_inj, BitVec.toNat_allOnes, hpow]
    omega
  · rw [← BitVec.toNat_inj, BitVec.toNat_ofNat, Nat.zero_mod]

/-! ### What comes back -/

/-- A value that can come back from its bits. -/
def Stored (f : Format) : UnpackedFloat → Prop
  | .finite _ m e _ => Canonical f m e ∧ e ≤ maxExponent f
  | _ => True

theorem stored_ofParts {f : Format} {s : Sign} {m : ℕ} {e : ℤ}
    (h : Canonical f m e ∧ e ≤ maxExponent f) : Stored f (ofParts s m e) := by
  unfold ofParts
  split_ifs
  · trivial
  · exact h

theorem stored_unpack {f : Format} (hf : 2 ≤ f.exponentBits) (b : BitVec f.numBits) :
    Stored f (UnpackedFloat.unpack f b) := by
  have hbias : 4 ≤ 2 * f.exponentBias + 2 := by
    rw [← two_pow_exponentBits]
    exact Nat.pow_le_pow_right two_pos hf
  have hmin := minExponent_eq f
  have hpow := two_pow_mantissaBits f
  have hm := (unpackMantissa b).isLt
  obtain ⟨hones, hzeros, hle⟩ := toNat_exponent (e := unpackExponent b)
  rw [← packComponents_unpackSign_unpackExponent_unpackMantissa b, unpack_packComponents]
  split_ifs with h1 h2 h3
  · trivial
  · trivial
  · refine stored_ofParts ⟨⟨⟨by omega, le_rfl⟩, Or.inl rfl⟩, ?_⟩
    unfold maxExponent
    omega
  · rw [hones] at h1
    rw [hzeros] at h3
    refine stored_ofParts ⟨⟨⟨by omega, by omega⟩, Or.inr (Nat.le_add_right _ _)⟩, ?_⟩
    unfold maxExponent
    omega

/-- A value that is stored and read again. -/
def deliver (f : Format) (u : UnpackedFloat) : UnpackedFloat :=
  UnpackedFloat.unpack f (UnpackedFloat.pack f u)

/-- **A number comes back as it was**, or as infinity if its exponent is too large. -/
theorem deliver_finite {f : Format} {s : Sign} {m : ℕ} {e : ℤ} (h : Canonical f m e)
    (hm : 0 < m) :
    deliver f (.finite s m e hm) =
      if e ≤ maxExponent f then .finite s m e hm else .infinity s := by
  have hmin := minExponent_eq f
  have hmax : maxExponent f = f.exponentBias - f.mantissaBitsWithoutImplicit := rfl
  have hpow := two_pow_exponentBits f
  have hbits := two_pow_mantissaBits f
  have hle := h.le
  have hlt := h.lt
  obtain ⟨b, hb, hb1⟩ : ∃ b : ℕ,
      (e + f.exponentBias + f.mantissaBitsWithoutImplicit).toNat = b ∧
        (b : ℤ) = e + f.exponentBias + f.mantissaBitsWithoutImplicit :=
    ⟨_, rfl, Int.toNat_of_nonneg (by omega)⟩
  unfold deliver UnpackedFloat.pack
  simp only [hb]
  split_ifs with hover hmaxe hnormal hmaxe hmaxe
  · omega
  · rw [packedInfinity, unpack_packComponents, if_pos rfl]
    exact if_pos rfl
  · have hmb : 2 ^ f.mantissaBitsWithoutImplicit ≤ m := by
      rw [← Nat.le_log2 hm.ne']
      have : f.mantissaBits = 1 + f.mantissaBitsWithoutImplicit := rfl
      omega
    have hexp : (BitVec.ofNat f.exponentBits b).toNat = b := by
      rw [BitVec.toNat_ofNat, Nat.mod_eq_of_lt (by omega)]
    have hman : (BitVec.ofNat f.mantissaBitsWithoutImplicit m).toNat =
        m - 2 ^ f.mantissaBitsWithoutImplicit := by
      rw [BitVec.toNat_ofNat, Nat.mod_eq_sub_mod hmb, Nat.mod_eq_of_lt (by omega)]
    obtain ⟨hones, hzeros, -⟩ := toNat_exponent (e := BitVec.ofNat f.exponentBits b)
    rw [unpack_packComponents, if_neg (by rw [hones, hexp]; omega),
      if_neg (by rw [hzeros, hexp]; omega), hexp, hman, finite_eq_ofParts]
    congr 1
    · omega
    · omega
  · omega
  · have hmb : m < 2 ^ f.mantissaBitsWithoutImplicit := by
      rw [← Nat.log2_lt hm.ne']
      have hlog := (Nat.log2_lt hm.ne').mpr hlt
      have : f.mantissaBits = 1 + f.mantissaBitsWithoutImplicit := rfl
      omega
    have hman : (BitVec.ofNat f.mantissaBitsWithoutImplicit m).toNat = m := by
      rw [BitVec.toNat_ofNat, Nat.mod_eq_of_lt hmb]
    have he : e = f.minExponent := h.normal.resolve_right (not_le.mpr hmb)
    obtain ⟨hones, -, -⟩ := toNat_exponent (e := 0#f.exponentBits)
    rw [unpack_packComponents, if_neg (by rw [hones]; simp), if_pos rfl, hman, finite_eq_ofParts,
      he]
  · omega

/-- **What came back once comes back again.** -/
theorem deliver_of_stored {f : Format} {u : UnpackedFloat} (h : Stored f u) : deliver f u = u := by
  cases u with
  | notANumber => exact unpack_packedNaN
  | infinity s =>
    unfold deliver UnpackedFloat.pack
    rw [packedInfinity, unpack_packComponents, if_pos rfl]
    exact if_pos rfl
  | zero s => exact unpack_packedZero
  | finite s m e hm => rw [deliver_finite h.1 hm, if_pos h.2]

end Strided
