import Strided.Kernel.ModifiedGivens
import Strided.Proofs.BinaryArithmetic
import Strided.Scalar.Binary

/-! # Scalars in a binary format

`Float32` and `Float` are real scalars whose operations are those of a binary format: what the bits
stand for is combined exactly, and the result is rounded and stored. The proofs about them use only
this, so they are about both at once.

* `Ieee`: real scalars with the operations of a binary format.
* `view_gamSq`, `view_rgamSq`: the bounds of the weights of a modified rotation.
* `beq_zero_iff`, `signed_of_not_neg`: comparisons with zero. -/

namespace Strided

open Float.Model Float.Model.UnpackedFloat

/-- Real scalars that are stored in a binary format. An operation is done exactly, and its result is
rounded and stored. -/
class Ieee (ρ : Type) [RealScalar ρ] where
  format : Format
  /-- The factor of a rescaling and its reciprocal are numbers of the format. -/
  wide : 25 ≤ format.exponentBias
  /-- What the stored bits stand for. -/
  view : ρ → UnpackedFloat
  stored (a : ρ) : Stored format (view a)
  view_zero : view 0 = .zero .positive
  view_one : view 1 = power format 0
  view_neg (a : ρ) : view (-a) = (view a).neg
  view_abs (a : ρ) : view (RealScalar.abs a) = (view a).abs
  view_add (a b : ρ) : view (a + b) = deliver format (UnpackedFloat.add format (view a) (view b))
  view_sub (a b : ρ) : view (a - b) = deliver format (UnpackedFloat.sub format (view a) (view b))
  view_mul (a b : ρ) : view (a * b) = deliver format (UnpackedFloat.mul format (view a) (view b))
  view_div (a b : ρ) : view (a / b) = deliver format (UnpackedFloat.div format (view a) (view b))
  lt_iff (a b : ρ) : a < b ↔ UnpackedFloat.lt (view a) (view b) = true
  le_iff (a b : ρ) : a ≤ b ↔ UnpackedFloat.le (view a) (view b) = true
  beq_eq (a b : ρ) : (a == b) = UnpackedFloat.beq (view a) (view b)

theorem stored_neg {f : Format} {u : UnpackedFloat} (h : Stored f u) : Stored f u.neg := by
  cases u <;> exact h

theorem stored_abs {f : Format} {u : UnpackedFloat} (h : Stored f u) : Stored f u.abs := by
  cases u <;> exact h

instance : Ieee Float32 where
  format := .binary32
  wide := by decide
  view a := a.toModel.unpack
  stored _ := stored_unpack (by decide) _
  view_zero := rfl
  view_one := rfl
  view_neg _ := deliver_of_stored (stored_neg (stored_unpack (by decide) _))
  view_abs _ := deliver_of_stored (stored_abs (stored_unpack (by decide) _))
  view_add _ _ := rfl
  view_sub _ _ := rfl
  view_mul _ _ := rfl
  view_div _ _ := rfl
  lt_iff _ _ := decide_eq_true_iff
  le_iff _ _ := decide_eq_true_iff
  beq_eq _ _ := rfl

instance : Ieee Float where
  format := .binary64
  wide := by decide
  view a := a.toModel.unpack
  stored _ := stored_unpack (by decide) _
  view_zero := rfl
  view_one := rfl
  view_neg _ := deliver_of_stored (stored_neg (stored_unpack (by decide) _))
  view_abs _ := deliver_of_stored (stored_abs (stored_unpack (by decide) _))
  view_add _ _ := rfl
  view_sub _ _ := rfl
  view_mul _ _ := rfl
  view_div _ _ := rfl
  lt_iff _ _ := decide_eq_true_iff
  le_iff _ _ := decide_eq_true_iff
  beq_eq _ _ := rfl

open Ieee

variable {ρ : Type} [RealScalar ρ] [Ieee ρ]

theorem stored_power_of_le {j : ℤ} (hlow : -24 ≤ j) (hhigh : j ≤ 24) :
    Stored (format ρ) (power (format ρ) j) := by
  have hwide := wide (ρ := ρ)
  exact stored_power (by omega) (by omega)

theorem view_twoPow {k : ℕ} (hk : k ≤ 24) :
    view (RealScalar.twoPow k : ρ) = power (format ρ) k := by
  induction k with
  | zero => exact view_one
  | succ k ih =>
    have hview : view (RealScalar.twoPow (k + 1) : ρ) = deliver (format ρ)
        (UnpackedFloat.add (format ρ) (power (format ρ) k) (power (format ρ) k)) := by
      rw [← ih (by omega)]
      exact view_add _ _
    have hrounds := rounds_add (f := format ρ) (e := k - (format ρ).mantissaBitsWithoutImplicit)
      (k := k - (format ρ).mantissaBitsWithoutImplicit)
      (Nat.two_pow_pos (format ρ).mantissaBitsWithoutImplicit)
      (Nat.two_pow_pos (format ρ).mantissaBitsWithoutImplicit)
    have hdouble : (2 : ℚ) ^ (k : ℤ) + 2 ^ (k : ℤ) = 2 ^ ((k + 1 : ℕ) : ℤ) := by
      push_cast
      rw [zpow_add_one₀ two_ne_zero]
      ring
    rw [power_value, hdouble] at hrounds
    change Rounds _ _ _ (deliver (format ρ)
      (UnpackedFloat.add (format ρ) (power (format ρ) k) (power (format ρ) k))) at hrounds
    rw [← hview] at hrounds
    exact hrounds.eq_power (stored _) (stored_power_of_le (by omega) (by omega))

theorem view_gamSq : view (Weighted.gamSq : ρ) = power (format ρ) 24 := view_twoPow le_rfl

theorem view_rgamSq : view (Weighted.rgamSq : ρ) = power (format ρ) (-24) := by
  have hview : view (Weighted.rgamSq : ρ) = deliver (format ρ)
      (UnpackedFloat.div (format ρ) (power (format ρ) 0) (power (format ρ) 24)) := by
    rw [← view_gamSq, ← view_one]
    exact view_div _ _
  have hrounds := rounds_div (f := format ρ) (s := .positive) (t := .positive)
    (e := 0 - (format ρ).mantissaBitsWithoutImplicit)
    (k := 24 - (format ρ).mantissaBitsWithoutImplicit)
    (Nat.two_pow_pos (format ρ).mantissaBitsWithoutImplicit)
    (Nat.two_pow_pos (format ρ).mantissaBitsWithoutImplicit)
  have hinv : (2 : ℚ) ^ (0 : ℤ) / 2 ^ (24 : ℤ) = 2 ^ (-24 : ℤ) := by norm_num
  rw [power_value, power_value, hinv] at hrounds
  change Rounds _ .positive _ (deliver (format ρ)
    (UnpackedFloat.div (format ρ) (power (format ρ) 0) (power (format ρ) 24))) at hrounds
  rw [← hview] at hrounds
  exact hrounds.eq_power (stored _) (stored_power_of_le le_rfl (by norm_num))

theorem beq_zero_iff {a : ρ} : (a == 0) = true ↔ ∃ r, view a = .zero r := by
  rw [beq_eq, view_zero]
  cases view a with
  | infinity s => cases s <;> simp [UnpackedFloat.beq, UnpackedFloat.compare]
  | notANumber => simp [UnpackedFloat.beq, UnpackedFloat.compare]
  | zero s => simp [UnpackedFloat.beq, UnpackedFloat.compare]
  | finite s m e hm => cases s <;> simp [UnpackedFloat.beq, UnpackedFloat.compare]

theorem signed_of_not_neg {a : ρ} (h : ¬ a < 0) : Signed .positive (view a) := by
  rw [lt_iff, view_zero] at h
  cases hu : view a with
  | infinity s =>
    cases s with
    | negative => exact absurd (by rw [hu]; rfl) h
    | positive => rfl
  | notANumber => trivial
  | zero s => trivial
  | finite s m e hm =>
    cases s with
    | negative => exact absurd (by rw [hu]; rfl) h
    | positive => rfl

end Strided
