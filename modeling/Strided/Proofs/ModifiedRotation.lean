import Mathlib.Algebra.Order.Archimedean.Basic
import Mathlib.Tactic.FieldSimp
import Mathlib.Tactic.Linarith
import Strided.Proofs.Exact
import Strided.Proofs.Rescaling

/-! # Modified rotations in exact arithmetic

In an ordered field the modified rotation that zeroes `y1` does what it is for: it sends `(x1, y1)`
to `(x1', 0)`, and with the changed weights it keeps the sum `d1 w² + d2 z²` of every pair. The
rescalings keep both, since a weight gains the square of the factor that its row loses.

* `Rank`: how far a weight is from its bounds, in steps.
* `Weighted.Rotates`: weights and a matrix that zero `y1` and keep the weighted sums.
* `Weighted.startQuotients`: by which numbers the matrix before rescaling divides.
* `Weighted.rotates_of_lt`, `Weighted.rotates_of_not_lt`: this matrix.
* `Weighted.Rotates.settlesFirst`, `Weighted.Rotates.settlesSecond`: the loops.
* `modified_rotation`: the result. -/

namespace Strided

/-! ### Fields -/

section Field
variable {F : Type} [Field F] [LinearOrder F] [IsStrictOrderedRing F]

/-- A weight `m` comes between `g⁻¹` and `g` in at most `n` steps by a factor of `g`. -/
def Rank (g : F) (n : ℕ) (m : F) : Prop :=
  0 < m ∧ (m < g ∧ g⁻¹ < m * g ^ n ∨ g⁻¹ < m ∧ m < g * g ^ n)

theorem exists_rank [Archimedean F] {g m : F} (hg : 1 < g) (hm : 0 < m) : ∃ n, Rank g n m := by
  have hg0 : 0 < g := zero_lt_one.trans hg
  rcases lt_or_ge m g with h | h
  · obtain ⟨n, hn⟩ := pow_unbounded_of_one_lt (g⁻¹ / m) hg
    exact ⟨n, hm, Or.inl ⟨h, (div_lt_iff₀' hm).mp hn⟩⟩
  · obtain ⟨n, hn⟩ := pow_unbounded_of_one_lt (m / g) hg
    have hinv : g⁻¹ < m := (inv_lt_one_of_one_lt₀ hg).trans (hg.trans_le h)
    exact ⟨n, hm, Or.inr ⟨hinv, (div_lt_iff₀' hg0).mp hn⟩⟩

theorem Rank.mul {g m : F} {n : ℕ} (hg : 1 < g) (h : Rank g n m) (hm : m ≤ g⁻¹) :
    ∃ j < n, Rank g j (m * g) := by
  have hg0 : 0 < g := zero_lt_one.trans hg
  obtain ⟨hpos, ⟨-, hn⟩ | ⟨hlt, -⟩⟩ := h
  · cases n with
    | zero =>
      rw [pow_zero, mul_one] at hn
      exact absurd hn hm.not_gt
    | succ j =>
      have hone : m * g ≤ 1 := (le_div_iff₀ hg0).mp (by rwa [one_div])
      refine ⟨j, j.lt_succ_self, mul_pos hpos hg0, Or.inl ⟨hone.trans_lt hg, ?_⟩⟩
      rw [mul_assoc, ← pow_succ']
      exact hn
  · exact absurd hlt hm.not_gt

theorem Rank.div {g m : F} {n : ℕ} (hg : 1 < g) (h : Rank g n m) (hm : g ≤ m) :
    ∃ j < n, Rank g j (m * g⁻¹) := by
  have hg0 : 0 < g := zero_lt_one.trans hg
  obtain ⟨hpos, ⟨hlt, -⟩ | ⟨-, hn⟩⟩ := h
  · exact absurd hlt hm.not_gt
  · cases n with
    | zero =>
      rw [pow_zero, mul_one] at hn
      exact absurd hn hm.not_gt
    | succ j =>
      have hone : 1 ≤ m * g⁻¹ := (le_mul_inv_iff₀ hg0).mpr (by simpa using hm)
      refine ⟨j, j.lt_succ_self, mul_pos hpos (inv_pos.mpr hg0),
        Or.inr ⟨(inv_lt_one_of_one_lt₀ hg).trans_le hone, ?_⟩⟩
      rw [mul_inv_lt_iff₀ hg0, mul_assoc, ← pow_succ]
      exact hn

/-- **A loop ends** if each of its steps, from where an invariant holds, changes a positive weight by
a factor of `g` toward the bounds. -/
theorem exists_settles_of_invariant [Archimedean F] {σ : Type} {step : σ → Option σ} {m : σ → F}
    {g : F} {P : σ → Prop} (hg : 1 < g) (hstep : ∀ s t, P s → step s = some t →
      P t ∧ (m s ≤ g⁻¹ ∧ m t = m s * g ∨ g ≤ m s ∧ m t = m s * g⁻¹))
    {s : σ} (hP : P s) (hs : 0 < m s) : ∃ k t, Settles step s k t := by
  obtain ⟨n, hn⟩ := exists_rank hg hs
  refine Settles.exists_of_rank (P := fun n u => P u ∧ Rank g n (m u)) (fun n u hu => ?_) n s
    ⟨hP, hn⟩
  cases h : step u with
  | none => exact Or.inl rfl
  | some v =>
    refine Or.inr ⟨v, rfl, ?_⟩
    obtain ⟨hv, ⟨hle, hm⟩ | ⟨hle, hm⟩⟩ := hstep u v hu.1 h
    · obtain ⟨j, hj, hrank⟩ := hu.2.mul hg hle
      exact ⟨j, hj, hv, hm ▸ hrank⟩
    · obtain ⟨j, hj, hrank⟩ := hu.2.div hg hle
      exact ⟨j, hj, hv, hm ▸ hrank⟩

theorem exists_settles [Archimedean F] {σ : Type} {step : σ → Option σ} {m : σ → F} {g : F}
    (hg : 1 < g) (hstep : ∀ s t, step s = some t →
      m s ≤ g⁻¹ ∧ m t = m s * g ∨ g ≤ m s ∧ m t = m s * g⁻¹)
    {s : σ} (hs : 0 < m s) : ∃ k t, Settles step s k t :=
  exists_settles_of_invariant (P := fun _ => True) hg (fun s t _ h => ⟨trivial, hstep s t h⟩)
    trivial hs

theorem flags_ne : (-1 : F) ≠ -(1 + 1) ∧ (0 : F) ≠ -(1 + 1) ∧ (1 : F) ≠ -(1 + 1) := by
  refine ⟨?_, ?_, ?_⟩ <;> norm_num

variable {d1 d2 x1 y1 : F}

theorem dominant (hd : 0 ≤ d1) (h : |d2 * y1 * y1| < |d1 * x1 * x1|) :
    0 < d1 ∧ x1 ≠ 0 ∧ |d2 * y1 * y1| < d1 * x1 * x1 := by
  have hq : 0 ≤ d1 * x1 * x1 := by
    rw [mul_assoc]
    exact mul_nonneg hd (mul_self_nonneg x1)
  have hq0 : d1 * x1 * x1 ≠ 0 := by
    intro h0
    rw [h0, abs_zero] at h
    exact absurd h (abs_nonneg _).not_gt
  rw [abs_of_nonneg hq] at h
  refine ⟨lt_of_le_of_ne hd ?_, ?_, h⟩
  · rintro rfl
    simp at hq0
  · rintro rfl
    simp at hq0

theorem diagonal_divisor (hd : 0 < d1) (hx : x1 ≠ 0) (h : |d2 * y1 * y1| < d1 * x1 * x1) :
    0 < 1 - d2 * y1 * (d1 * x1)⁻¹ * (-y1 * x1⁻¹) := by
  have hq : 0 < d1 * x1 * x1 := (abs_nonneg _).trans_lt h
  have hsum : 0 < d1 * x1 * x1 + d2 * y1 * y1 := by linarith [neg_abs_le (d2 * y1 * y1)]
  have he : 1 - d2 * y1 * (d1 * x1)⁻¹ * (-y1 * x1⁻¹) =
      (d1 * x1 * x1 + d2 * y1 * y1) * (d1 * x1 * x1)⁻¹ := by
    field_simp
    ring
  rw [he]
  exact mul_pos hsum (inv_pos.mpr hq)

theorem diagonal_kept (hd : d1 ≠ 0) (hx : x1 ≠ 0) {h12 h21 u : F}
    (h12_eq : h12 = d2 * y1 * (d1 * x1)⁻¹) (h21_eq : h21 = -y1 * x1⁻¹) (hu_eq : u = 1 - h12 * h21)
    (hu : u ≠ 0) (w z : F) :
    d1 * u⁻¹ * (1 * w + h12 * z) ^ 2 + d2 * u⁻¹ * (h21 * w + 1 * z) ^ 2 = d1 * w ^ 2 + d2 * z ^ 2 := by
  have key : d1 * (w + h12 * z) ^ 2 + d2 * (h21 * w + z) ^ 2 = u * (d1 * w ^ 2 + d2 * z ^ 2) := by
    rw [hu_eq, h12_eq, h21_eq]
    field_simp
    ring
  calc d1 * u⁻¹ * (1 * w + h12 * z) ^ 2 + d2 * u⁻¹ * (h21 * w + 1 * z) ^ 2
      = u⁻¹ * (d1 * (w + h12 * z) ^ 2 + d2 * (h21 * w + z) ^ 2) := by ring
    _ = d1 * w ^ 2 + d2 * z ^ 2 := by rw [key, inv_mul_cancel_left₀ hu]

theorem antidiagonal_divisor (hd : 0 ≤ d1) (hq : 0 < d2 * y1 * y1) (x1 : F) :
    0 < d2 ∧ y1 ≠ 0 ∧ 0 < 1 + d1 * x1 * (d2 * y1)⁻¹ * (x1 * y1⁻¹) := by
  have hy : y1 ≠ 0 := by
    rintro rfl
    simp at hq
  have hsq : 0 < y1 * y1 := mul_self_pos.mpr hy
  have hd2 : 0 < d2 := by
    rw [mul_assoc] at hq
    exact (pos_iff_pos_of_mul_pos hq).mpr hsq
  have he : d1 * x1 * (d2 * y1)⁻¹ * (x1 * y1⁻¹) = d1 * (x1 * x1) * (d2 * y1 * y1)⁻¹ := by
    field_simp
  refine ⟨hd2, hy, ?_⟩
  rw [he]
  have : 0 ≤ d1 * (x1 * x1) * (d2 * y1 * y1)⁻¹ :=
    mul_nonneg (mul_nonneg hd (mul_self_nonneg x1)) (inv_pos.mpr hq).le
  linarith

theorem refused_iff (hd : 0 ≤ d1) (hp : d2 * y1 ≠ 0) :
    d2 < 0 ∧ d1 * x1 ^ 2 ≤ |d2| * y1 ^ 2 ↔
      ¬ |d2 * y1 * y1| < |d1 * x1 * x1| ∧ d2 * y1 * y1 < 0 := by
  have hy : 0 < y1 ^ 2 := sq_pos_of_ne_zero (right_ne_zero_of_mul hp)
  have h1 : |d1 * x1 * x1| = d1 * x1 ^ 2 := by
    rw [mul_assoc, ← sq, abs_of_nonneg (mul_nonneg hd (sq_nonneg x1))]
  have h2 : |d2 * y1 * y1| = |d2| * y1 ^ 2 := by
    rw [mul_assoc, ← sq, abs_mul, abs_of_pos hy]
  have h3 : d2 * y1 * y1 < 0 ↔ d2 < 0 := by
    rw [mul_assoc, ← sq, mul_neg_iff, and_iff_left hy, or_iff_right fun h => hy.not_gt h.2]
  rw [h1, h2, h3, not_lt, and_comm]

theorem antidiagonal_kept (hd : d2 ≠ 0) (hy : y1 ≠ 0) {h11 h22 u : F}
    (h11_eq : h11 = d1 * x1 * (d2 * y1)⁻¹) (h22_eq : h22 = x1 * y1⁻¹) (hu_eq : u = 1 + h11 * h22)
    (hu : u ≠ 0) (w z : F) :
    d2 * u⁻¹ * (h11 * w + 1 * z) ^ 2 + d1 * u⁻¹ * (-1 * w + h22 * z) ^ 2 = d1 * w ^ 2 + d2 * z ^ 2 := by
  have key : d2 * (h11 * w + z) ^ 2 + d1 * (h22 * z - w) ^ 2 = u * (d1 * w ^ 2 + d2 * z ^ 2) := by
    rw [hu_eq, h11_eq, h22_eq]
    field_simp
    ring
  calc d2 * u⁻¹ * (h11 * w + 1 * z) ^ 2 + d1 * u⁻¹ * (-1 * w + h22 * z) ^ 2
      = u⁻¹ * (d2 * (h11 * w + z) ^ 2 + d1 * (h22 * z - w) ^ 2) := by ring
    _ = d1 * w ^ 2 + d2 * z ^ 2 := by rw [key, inv_mul_cancel_left₀ hu]
end Field

namespace Weighted

variable {K : Type} [ExactReal K]

/-! ### Rescaling -/

theorem gam_eq : (gam : K) = 2 ^ 12 := ExactReal.twoPow_eq 12

theorem gamSq_eq : (gamSq : K) = 2 ^ 24 := ExactReal.twoPow_eq 24

theorem rgamSq_eq : (rgamSq : K) = (2 ^ 24)⁻¹ := by
  unfold rgamSq
  rw [ExactReal.twoPow_eq, ExactReal.div_eq _ (pow_ne_zero 24 two_ne_zero)]
  exact one_mul _

/-- The first component of the image of a pair. -/
def first (s : Weighted K) (w z : K) : K := s.expand.h11 * w + s.expand.h12 * z

/-- The second component of the image of a pair. -/
def second (s : Weighted K) (w z : K) : K := s.expand.h21 * w + s.expand.h22 * z

/-- The first row divided by `c`, and its weight multiplied by the square. -/
def scaleFirst (s : Weighted K) (c : K) : Weighted K :=
  { s.expand with d1 := s.d1 * c ^ 2, h11 := s.expand.h11 * c⁻¹, h12 := s.expand.h12 * c⁻¹ }

/-- The second row divided by `c`, and its weight multiplied by the square. -/
def scaleSecond (s : Weighted K) (c : K) : Weighted K :=
  { s.expand with d2 := s.d2 * c ^ 2, h21 := s.expand.h21 * c⁻¹, h22 := s.expand.h22 * c⁻¹ }

theorem rescaleFirst?_eq (s : Weighted K) : rescaleFirst? s =
    if s.d1 ≤ (2 ^ 24)⁻¹ then some (s.scaleFirst (2 ^ 12))
    else if 2 ^ 24 ≤ s.d1 then some (s.scaleFirst (2 ^ 12)⁻¹) else none := by
  have h12 : (2 ^ 12 : K) ≠ 0 := pow_ne_zero 12 two_ne_zero
  have h24 : (2 ^ 24 : K) ≠ 0 := pow_ne_zero 24 two_ne_zero
  unfold rescaleFirst? scaleFirst
  rw [gamSq_eq, rgamSq_eq, gam_eq, inv_pow, inv_inv, ← pow_mul]
  simp only [ExactReal.div_eq _ h12, ExactReal.div_eq _ h24]

theorem rescaleSecond?_eq (s : Weighted K) : rescaleSecond? s =
    if |s.d2| ≤ (2 ^ 24)⁻¹ then some (s.scaleSecond (2 ^ 12))
    else if 2 ^ 24 ≤ |s.d2| then some (s.scaleSecond (2 ^ 12)⁻¹) else none := by
  have h12 : (2 ^ 12 : K) ≠ 0 := pow_ne_zero 12 two_ne_zero
  have h24 : (2 ^ 24 : K) ≠ 0 := pow_ne_zero 24 two_ne_zero
  unfold rescaleSecond? scaleSecond
  rw [gamSq_eq, rgamSq_eq, gam_eq, inv_pow, inv_inv, ← pow_mul]
  simp only [ExactReal.div_eq _ h12, ExactReal.div_eq _ h24]
  rfl

theorem first_scaleFirst (s : Weighted K) (c w z : K) :
    (s.scaleFirst c).first w z = s.first w z * c⁻¹ := by
  unfold first
  rw [expand_of_full (s := s.scaleFirst c) s.form_expand, scaleFirst]
  ring

theorem second_scaleFirst (s : Weighted K) (c w z : K) :
    (s.scaleFirst c).second w z = s.second w z := by
  unfold second
  rw [expand_of_full (s := s.scaleFirst c) s.form_expand, scaleFirst]

theorem first_scaleSecond (s : Weighted K) (c w z : K) :
    (s.scaleSecond c).first w z = s.first w z := by
  unfold first
  rw [expand_of_full (s := s.scaleSecond c) s.form_expand, scaleSecond]

theorem second_scaleSecond (s : Weighted K) (c w z : K) :
    (s.scaleSecond c).second w z = s.second w z * c⁻¹ := by
  unfold second
  rw [expand_of_full (s := s.scaleSecond c) s.form_expand, scaleSecond]
  ring

/-! ### The invariant -/

/-- The matrix sends `(x1, y1)` to `(x1', 0)`, and with the weights it keeps the sum
`d1 w² + d2 z²` of every pair. -/
structure Rotates (s : Weighted K) (d1 d2 x1 y1 : K) : Prop where
  proper : s.form ≠ .identity
  kept : ∀ w z, s.d1 * s.first w z ^ 2 + s.d2 * s.second w z ^ 2 = d1 * w ^ 2 + d2 * z ^ 2
  zeroed : s.second x1 y1 = 0

section Rotates
variable {s t : Weighted K} {d1 d2 x1 y1 : K}

theorem Rotates.scaleFirst (h : s.Rotates d1 d2 x1 y1) {c : K} (hc : c ≠ 0) :
    (s.scaleFirst c).Rotates d1 d2 x1 y1 where
  proper := by
    have hfull : (s.scaleFirst c).form = .full := s.form_expand
    rw [hfull]
    decide
  kept w z := by
    have hd2 : (s.scaleFirst c).d2 = s.d2 := s.d2_expand
    rw [first_scaleFirst, second_scaleFirst, hd2, ← h.kept w z]
    have hsq : s.d1 * c ^ 2 * (s.first w z * c⁻¹) ^ 2 = s.d1 * s.first w z ^ 2 := by
      field_simp
    exact congrArg (· + s.d2 * s.second w z ^ 2) hsq
  zeroed := by rw [second_scaleFirst, h.zeroed]

theorem Rotates.scaleSecond (h : s.Rotates d1 d2 x1 y1) {c : K} (hc : c ≠ 0) :
    (s.scaleSecond c).Rotates d1 d2 x1 y1 where
  proper := by
    have hfull : (s.scaleSecond c).form = .full := s.form_expand
    rw [hfull]
    decide
  kept w z := by
    have hd1 : (s.scaleSecond c).d1 = s.d1 := s.d1_expand
    rw [first_scaleSecond, second_scaleSecond, hd1, ← h.kept w z]
    have hsq : s.d2 * c ^ 2 * (s.second w z * c⁻¹) ^ 2 = s.d2 * s.second w z ^ 2 := by
      field_simp
    exact congrArg (s.d1 * s.first w z ^ 2 + ·) hsq
  zeroed := by
    rw [second_scaleSecond, h.zeroed]
    exact zero_mul _

/-! ### The loops -/

theorem one_lt_bound : (1 : K) < 2 ^ 24 := one_lt_pow₀ one_lt_two (by decide)

/-- What a rescaling of the first weight does. -/
theorem rescaleFirst?_cases (h : rescaleFirst? s = some t) :
    ∃ c : K, c ≠ 0 ∧ t = s.scaleFirst c ∧ (s.d1 ≤ (2 ^ 24)⁻¹ ∧ t.d1 = s.d1 * 2 ^ 24 ∨
      2 ^ 24 ≤ s.d1 ∧ t.d1 = s.d1 * (2 ^ 24)⁻¹) := by
  have h12 : (2 ^ 12 : K) ≠ 0 := pow_ne_zero 12 two_ne_zero
  rw [rescaleFirst?_eq] at h
  split_ifs at h with hlow hhigh
  · cases h
    exact ⟨_, h12, rfl, Or.inl ⟨hlow, by rw [scaleFirst, ← pow_mul]⟩⟩
  · cases h
    exact ⟨_, inv_ne_zero h12, rfl, Or.inr ⟨hhigh, by rw [scaleFirst, inv_pow, ← pow_mul]⟩⟩

/-- What a rescaling of the second weight does. -/
theorem rescaleSecond?_cases (h : rescaleSecond? s = some t) :
    ∃ c : K, c ≠ 0 ∧ t = s.scaleSecond c ∧ (|s.d2| ≤ (2 ^ 24)⁻¹ ∧ |t.d2| = |s.d2| * 2 ^ 24 ∨
      2 ^ 24 ≤ |s.d2| ∧ |t.d2| = |s.d2| * (2 ^ 24)⁻¹) := by
  have h12 : (2 ^ 12 : K) ≠ 0 := pow_ne_zero 12 two_ne_zero
  have habs : ∀ c : K, |(s.scaleSecond c).d2| = |s.d2| * c ^ 2 := by
    intro c
    change |s.d2 * c ^ 2| = _
    rw [abs_mul, abs_of_nonneg (sq_nonneg c)]
  rw [rescaleSecond?_eq] at h
  split_ifs at h with hlow hhigh
  · cases h
    exact ⟨_, h12, rfl, Or.inl ⟨hlow, by rw [habs, ← pow_mul]⟩⟩
  · cases h
    exact ⟨_, inv_ne_zero h12, rfl, Or.inr ⟨hhigh, by rw [habs, inv_pow, ← pow_mul]⟩⟩

/-- **The first loop** brings the first weight between the bounds. -/
theorem Rotates.settlesFirst [Archimedean K] (h : s.Rotates d1 d2 x1 y1) (hpos : 0 < s.d1) :
    ∃ k t, s.SettlesFirst k t ∧ t.Rotates d1 d2 x1 y1 ∧ ((2 ^ 24)⁻¹ < t.d1 ∧ t.d1 < 2 ^ 24) ∧
      Counted s k t := by
  have hne : ¬ (s.d1 == 0) = true := fun h => hpos.ne' (ExactReal.beq_iff.mp h)
  obtain ⟨k, t, hk⟩ : ∃ k t, Settles rescaleFirst? s k t := by
    refine exists_settles one_lt_bound (fun u v hstep => ?_) hpos
    obtain ⟨c, -, -, hcase⟩ := rescaleFirst?_cases hstep
    exact hcase
  have hrot : t.Rotates d1 d2 x1 y1 := by
    refine hk.invariant (P := fun u => u.Rotates d1 d2 x1 y1) (fun u v hu hstep => ?_) h
    obtain ⟨c, hc, rfl, -⟩ := rescaleFirst?_cases hstep
    exact hu.scaleFirst hc
  have hcounted : Counted s k t := by
    refine counted_of_settles (fun u v hstep => ?_) hk
    obtain ⟨c, -, rfl, -⟩ := rescaleFirst?_cases hstep
    exact u.form_expand
  have hend := hk.stuck
  rw [rescaleFirst?_eq] at hend
  split_ifs at hend with hlow hhigh
  exact ⟨k, t, by rw [SettlesFirst, if_neg hne]; exact hk, hrot, ⟨not_le.mp hlow, not_le.mp hhigh⟩,
    hcounted⟩

/-- **The second loop** brings the second weight between the bounds, unless it is zero. -/
theorem Rotates.settlesSecond [Archimedean K] (h : s.Rotates d1 d2 x1 y1) :
    ∃ k t, s.SettlesSecond k t ∧ t.Rotates d1 d2 x1 y1 ∧ t.d1 = s.d1 ∧
      (t.d2 = 0 ∨ (2 ^ 24)⁻¹ < |t.d2| ∧ |t.d2| < 2 ^ 24) ∧ Counted s k t := by
  by_cases hzero : s.d2 = 0
  · have hbeq : (s.d2 == 0) = true := ExactReal.beq_iff.mpr hzero
    exact ⟨0, s, by rw [SettlesSecond, if_pos hbeq]; exact ⟨rfl, rfl⟩, h, rfl, Or.inl hzero,
      Or.inl ⟨rfl, rfl⟩⟩
  have hne : ¬ (s.d2 == 0) = true := fun h => hzero (ExactReal.beq_iff.mp h)
  obtain ⟨k, t, hk⟩ : ∃ k t, Settles rescaleSecond? s k t := by
    refine exists_settles (m := fun u => |u.d2|) one_lt_bound (fun u v hstep => ?_)
      (abs_pos.mpr hzero)
    obtain ⟨c, -, -, hcase⟩ := rescaleSecond?_cases hstep
    exact hcase
  obtain ⟨hrot, hd1⟩ : t.Rotates d1 d2 x1 y1 ∧ t.d1 = s.d1 := by
    refine hk.invariant (P := fun u => u.Rotates d1 d2 x1 y1 ∧ u.d1 = s.d1) (fun u v hu hstep => ?_)
      ⟨h, rfl⟩
    obtain ⟨c, hc, rfl, -⟩ := rescaleSecond?_cases hstep
    exact ⟨hu.1.scaleSecond hc, u.d1_expand.trans hu.2⟩
  have hcounted : Counted s k t := by
    refine counted_of_settles (fun u v hstep => ?_) hk
    obtain ⟨c, -, rfl, -⟩ := rescaleSecond?_cases hstep
    exact u.form_expand
  have hend := hk.stuck
  rw [rescaleSecond?_eq] at hend
  split_ifs at hend with hlow hhigh
  exact ⟨k, t, by rw [SettlesSecond, if_neg hne]; exact hk, hrot, hd1,
    Or.inr ⟨not_le.mp hlow, not_le.mp hhigh⟩, hcounted⟩

/-! ### The matrix before rescaling -/

/-- The divisors that come up before rescaling. -/
def divisors (d1 d2 x1 y1 : K) : List K :=
  if |d2 * y1 * y1| < |d1 * x1 * x1| then [x1, d1 * x1, diagonalDivisor d1 d2 x1 y1]
  else if d2 * y1 * y1 < 0 then []
  else [d2 * y1, y1, antidiagonalDivisor d1 d2 x1 y1]

/-- How the matrix and the weights before rescaling are formed: there is nothing to divide by, or
each quotient has one of the divisors. -/
inductive StartQuotients (d1 d2 x1 y1 : K) (s : Weighted K) : Prop
  | refused (divisors_eq : divisors d1 d2 x1 y1 = []) (start_eq : s = blank 0 0 .full)
  | diagonal (u : K) (divisors_eq : divisors d1 d2 x1 y1 = [x1, d1 * x1, u])
      (u_eq : u = 1 - d2 * y1 / (d1 * x1) * (-y1 / x1))
      (start_eq : s = if 0 < u then
        ⟨d1 / u, d2 / u, .unitDiagonal, 0, -y1 / x1, d2 * y1 / (d1 * x1), 0⟩ else blank 0 0 .full)
  | antidiagonal (u : K) (divisors_eq : divisors d1 d2 x1 y1 = [d2 * y1, y1, u])
      (u_eq : u = 1 + d1 * x1 / (d2 * y1) * (x1 / y1))
      (start_eq : s = ⟨d2 / u, d1 / u, .unitAntidiagonal, d1 * x1 / (d2 * y1), 0, 0, x1 / y1⟩)

theorem startQuotients (d1 d2 x1 y1 : K) :
    StartQuotients d1 d2 x1 y1 (start d1 d2 x1 y1) := by
  by_cases h : |d2 * y1 * y1| < |d1 * x1 * x1|
  · exact .diagonal _ (if_pos h) rfl (start_of_lt h)
  by_cases hq : d2 * y1 * y1 < 0
  · exact .refused ((if_neg h).trans (if_pos hq)) ((start_of_not_lt h).trans (if_pos hq))
  · exact .antidiagonal _ ((if_neg h).trans (if_neg hq)) rfl
      ((start_of_not_lt h).trans (if_neg hq))

/-- A matrix with a unit diagonal. -/
theorem rotates_of_lt (hd : 0 ≤ d1) (h : |d2 * y1 * y1| < |d1 * x1 * x1|) :
    0 < diagonalDivisor d1 d2 x1 y1 ∧ (∀ v ∈ divisors d1 d2 x1 y1, v ≠ 0) ∧
      (start d1 d2 x1 y1).Rotates d1 d2 x1 y1 ∧ 0 < (start d1 d2 x1 y1).d1 ∧
      (start d1 d2 x1 y1).form ≠ .full := by
  obtain ⟨hd1, hx, hlt⟩ := dominant hd h
  have hp1 : d1 * x1 ≠ 0 := mul_ne_zero hd1.ne' hx
  have hu : 0 < diagonalDivisor d1 d2 x1 y1 := by
    unfold diagonalDivisor
    rw [ExactReal.div_eq _ hx, ExactReal.div_eq _ hp1]
    exact diagonal_divisor hd1 hx hlt
  have hstart := start_of_lt h
  rw [if_pos hu, ExactReal.div_eq _ hu.ne', ExactReal.div_eq _ hu.ne', ExactReal.div_eq _ hx,
    ExactReal.div_eq _ hp1] at hstart
  refine ⟨hu, ?_, ?_⟩
  · rw [divisors, if_pos h]
    simp [hx, hp1, hu.ne']
  · rw [hstart]
    refine ⟨⟨by simp, fun w z => ?_, ?_⟩, mul_pos hd1 (inv_pos.mpr hu), by simp⟩
    · refine diagonal_kept hd1.ne' hx rfl rfl ?_ hu.ne' w z
      unfold diagonalDivisor
      rw [ExactReal.div_eq _ hx, ExactReal.div_eq _ hp1]
    · have hz : -y1 * x1⁻¹ * x1 + 1 * y1 = 0 := by
        rw [inv_mul_cancel_right₀ hx]
        ring
      exact hz

/-- A matrix with a unit antidiagonal. -/
theorem rotates_of_not_lt (hd : 0 ≤ d1) (hp : d2 * y1 ≠ 0)
    (h : ¬ |d2 * y1 * y1| < |d1 * x1 * x1|) (hq : ¬ d2 * y1 * y1 < 0) :
    (∀ v ∈ divisors d1 d2 x1 y1, v ≠ 0) ∧
      (start d1 d2 x1 y1).Rotates d1 d2 x1 y1 ∧ 0 < (start d1 d2 x1 y1).d1 ∧
      (start d1 d2 x1 y1).form ≠ .full := by
  have hq0 : d2 * y1 * y1 ≠ 0 := mul_ne_zero hp (right_ne_zero_of_mul hp)
  have hqpos : 0 < d2 * y1 * y1 := lt_of_le_of_ne (not_lt.mp hq) hq0.symm
  obtain ⟨hd2, hy, hu'⟩ := antidiagonal_divisor hd hqpos x1
  have hu : 0 < antidiagonalDivisor d1 d2 x1 y1 := by
    unfold antidiagonalDivisor
    rw [ExactReal.div_eq _ hp, ExactReal.div_eq _ hy]
    exact hu'
  have hstart := start_of_not_lt h
  rw [if_neg hq, ExactReal.div_eq _ hu.ne', ExactReal.div_eq _ hu.ne', ExactReal.div_eq _ hp,
    ExactReal.div_eq _ hy] at hstart
  refine ⟨?_, ?_⟩
  · rw [divisors, if_neg h, if_neg hq]
    simp [hp, hy, hu.ne']
  · rw [hstart]
    refine ⟨⟨by simp, fun w z => ?_, ?_⟩, mul_pos hd2 (inv_pos.mpr hu), by simp⟩
    · refine antidiagonal_kept hd2.ne' hy rfl rfl ?_ hu.ne' w z
      unfold antidiagonalDivisor
      rw [ExactReal.div_eq _ hp, ExactReal.div_eq _ hy]
    · have hz : -1 * x1 + x1 * y1⁻¹ * y1 = 0 := by
        rw [inv_mul_cancel_right₀ hy]
        ring
      exact hz

end Rotates

/-! ### Flags -/

/-- **The flag tells the form.** -/
theorem ofFlag_flag (f : Form) : Form.ofFlag (f.flag : K) = f := by
  obtain ⟨hfull, hzero, hone⟩ := flags_ne (F := K)
  unfold Form.ofFlag
  cases f with
  | identity => exact if_pos (ExactReal.beq_iff.mpr rfl)
  | full =>
    exact (if_neg fun h => hfull (ExactReal.beq_iff.mp h)).trans (if_pos neg_one_lt_zero)
  | unitDiagonal =>
    exact (if_neg fun h => hzero (ExactReal.beq_iff.mp h)).trans
      ((if_neg (lt_irrefl (0 : K))).trans (if_pos (ExactReal.beq_iff.mpr rfl)))
  | unitAntidiagonal =>
    have hpos : ¬ (1 : K) < 0 := not_lt.mpr zero_le_one
    exact (if_neg fun h => hone (ExactReal.beq_iff.mp h)).trans
      ((if_neg hpos).trans (if_neg fun h => one_ne_zero (ExactReal.beq_iff.mp h)))

theorem flag_inj {f g : Form} (h : (f.flag : K) = g.flag) : f = g := by
  rw [← ofFlag_flag (K := K) f, h, ofFlag_flag]

theorem flag_params (s : Weighted K) : s.params.flag = s.form.flag := by
  unfold params
  cases s.form <;> rfl

theorem flag_params_eq_neg_one_iff (s : Weighted K) : s.params.flag = -1 ↔ s.form = .full := by
  rw [flag_params]
  exact ⟨fun h => flag_inj (g := .full) h, fun h => congrArg Form.flag h⟩

/-- The entries that the flag implies are written as zero. -/
theorem implied_params (s : Weighted K) :
    (s.params.flag = 0 → s.params.h11 = 0 ∧ s.params.h22 = 0) ∧
      (s.params.flag = 1 → s.params.h21 = 0 ∧ s.params.h12 = 0) := by
  constructor
  · intro h
    rw [flag_params] at h
    have hform : s.form = .unitDiagonal := flag_inj (g := .unitDiagonal) h
    simp [params, hform]
  · intro h
    rw [flag_params] at h
    have hform : s.form = .unitAntidiagonal := flag_inj (g := .unitAntidiagonal) h
    simp [params, hform]

theorem apply_params {s : Weighted K} (h : s.form ≠ .identity) (w z : K) :
    s.params.apply w z = (s.first w z, s.second w z) := by
  have hform : s.params.form = s.form := by
    rw [Params.form, flag_params, ofFlag_flag]
  unfold Params.apply
  rw [hform]
  unfold params first second expand
  cases hs : s.form with
  | identity => exact absurd hs h
  | full =>
    have h1 : w * s.h11 + z * s.h12 = s.h11 * w + s.h12 * z := by ring
    have h2 : w * s.h21 + z * s.h22 = s.h21 * w + s.h22 * z := by ring
    exact Prod.ext h1 h2
  | unitDiagonal =>
    have h1 : w + z * s.h12 = 1 * w + s.h12 * z := by ring
    have h2 : w * s.h21 + z = s.h21 * w + 1 * z := by ring
    exact Prod.ext h1 h2
  | unitAntidiagonal =>
    have h1 : w * s.h11 + z = s.h11 * w + 1 * z := by ring
    have h2 : -w + s.h22 * z = -1 * w + s.h22 * z := by ring
    exact Prod.ext h1 h2

/-! ### Making the rotation -/

theorem divisors_ne_zero {d1 d2 x1 y1 : K} (hd : 0 ≤ d1) (hp : d2 * y1 ≠ 0) :
    ∀ v ∈ divisors d1 d2 x1 y1, v ≠ 0 := by
  by_cases hlt : |d2 * y1 * y1| < |d1 * x1 * x1|
  · exact (rotates_of_lt hd hlt).2.1
  by_cases hq : d2 * y1 * y1 < 0
  · rw [divisors, if_neg hlt, if_pos hq]
    exact fun v hv => absurd hv List.not_mem_nil
  · exact (rotates_of_not_lt hd hp hlt hq).1

section Makes
variable {d1 d2 x1 y1 : K}

/-- There is no modified rotation with a positive first weight. -/
def Refused (d1 d2 x1 y1 : K) : Prop :=
  d1 < 0 ∨ d2 * y1 ≠ 0 ∧ d2 < 0 ∧ d1 * x1 ^ 2 ≤ |d2| * y1 ^ 2

theorem makes_of_refused (h : Refused d1 d2 x1 y1) :
    ∃ t, Makes d1 d2 x1 y1 0 t ∧ t.params = ⟨-1, 0, 0, 0, 0⟩ := by
  by_cases hd : d1 < 0
  · exact ⟨_, .negative hd, rfl⟩
  obtain ⟨hp, hneg⟩ := h.resolve_left hd
  obtain ⟨hlt, hq⟩ := (refused_iff (not_lt.mp hd) hp).mp hneg
  have hstart : start d1 d2 x1 y1 = blank 0 0 .full := (start_of_not_lt hlt).trans (if_pos hq)
  have hbeq : ((0 : K) == 0) = true := ExactReal.beq_iff.mpr rfl
  have hfirst : (start d1 d2 x1 y1).SettlesFirst 0 (blank 0 0 .full) := by
    rw [hstart, SettlesFirst, blank, if_pos hbeq]
    exact ⟨rfl, rfl⟩
  have hsecond : (blank (0 : K) 0 .full).SettlesSecond 0 (blank 0 0 .full) := by
    rw [SettlesSecond, blank, if_pos hbeq]
    exact ⟨rfl, rfl⟩
  exact ⟨_, .rescaled hd (Bool.eq_false_iff.mpr fun h => hp (ExactReal.beq_iff.mp h)) hfirst hsecond,
    rfl⟩

/-- **The rotation before and after the loops.** -/
theorem makes_of_not_refused [Archimedean K] (hd : 0 ≤ d1) (hp : d2 * y1 ≠ 0)
    (h : ¬ Refused d1 d2 x1 y1) :
    ∃ k t, Makes d1 d2 x1 y1 k t ∧ t.Rotates d1 d2 x1 y1 ∧
      ((2 ^ 24)⁻¹ < t.d1 ∧ t.d1 < 2 ^ 24) ∧
      (t.d2 = 0 ∨ (2 ^ 24)⁻¹ < |t.d2| ∧ |t.d2| < 2 ^ 24) ∧ (t.form = .full ↔ 0 < k) := by
  obtain ⟨hrot, hpos, hform⟩ : (start d1 d2 x1 y1).Rotates d1 d2 x1 y1 ∧
      0 < (start d1 d2 x1 y1).d1 ∧ (start d1 d2 x1 y1).form ≠ .full := by
    by_cases hlt : |d2 * y1 * y1| < |d1 * x1 * x1|
    · exact (rotates_of_lt hd hlt).2.2
    · refine (rotates_of_not_lt hd hp hlt fun hq => h (Or.inr ⟨hp, ?_⟩)).2
      exact (refused_iff hd hp).mpr ⟨hlt, hq⟩
  obtain ⟨j, s, hs, hrot, hd1, hj⟩ := hrot.settlesFirst hpos
  obtain ⟨k, t, ht, hrot, hsame, hd2, hk⟩ := hrot.settlesSecond
  rw [← hsame] at hd1
  refine ⟨j + k, t, .rescaled (not_lt.mpr hd)
    (Bool.eq_false_iff.mpr fun h => hp (ExactReal.beq_iff.mp h)) hs ht, hrot, hd1, hd2, ?_⟩
  obtain ⟨rfl, rfl⟩ | ⟨hj, hfull⟩ := hj
  · obtain ⟨rfl, rfl⟩ | ⟨hk, hfull⟩ := hk
    · simpa using hform
    · simpa [hfull] using hk
  · obtain ⟨rfl, rfl⟩ | ⟨hk, hfull'⟩ := hk
    · simpa [hfull] using hj
    · simpa [hfull'] using Or.inr hk

end Makes

end Weighted

open Weighted

variable {K : Type} [ExactReal K]

/-- **A modified rotation zeroes `y1` and keeps weighted sums.** In exact arithmetic the loops end.
The result is the identity if `d2 y1` is zero, and the zero matrix if there is no rotation with a
positive first weight. Otherwise the weights lie between the bounds, the pair `(x1, y1)` goes to
`(x1', 0)`, and the weighted sum of squares of every pair is kept. Each quotient has a divisor from a
list, no divisor there is zero, the test for a positive one always passes, and the flag says whether
there was a rescaling. -/
theorem modified_rotation [Archimedean K] (d1 d2 x1 y1 : K) :
    ∃ k t, Makes d1 d2 x1 y1 k t ∧ Params.setup? d1 d2 x1 y1 = some t.params ∧
      (0 ≤ d1 ∧ d2 * y1 = 0 → t.params = ⟨-2, 0, 0, 0, 0⟩) ∧
      (Refused d1 d2 x1 y1 → t.params = ⟨-1, 0, 0, 0, 0⟩) ∧
      (¬ (0 ≤ d1 ∧ d2 * y1 = 0) → ¬ Refused d1 d2 x1 y1 →
        ((2 ^ 24)⁻¹ < t.d1 ∧ t.d1 < 2 ^ 24) ∧
        (t.d2 = 0 ∨ (2 ^ 24)⁻¹ < |t.d2| ∧ |t.d2| < 2 ^ 24) ∧
        (∃ x1', t.params.apply x1 y1 = (x1', 0)) ∧
        ∀ w z w' z', t.params.apply w z = (w', z') →
          t.d1 * w' ^ 2 + t.d2 * z' ^ 2 = d1 * w ^ 2 + d2 * z ^ 2) ∧
      (t.params.flag = -1 ↔ 0 < k ∨ Refused d1 d2 x1 y1) ∧
      (t.params.flag = 0 → t.params.h11 = 0 ∧ t.params.h22 = 0) ∧
      (t.params.flag = 1 → t.params.h21 = 0 ∧ t.params.h12 = 0) ∧
      (0 ≤ d1 → |d2 * y1 * y1| < |d1 * x1 * x1| → 0 < diagonalDivisor d1 d2 x1 y1) ∧
      StartQuotients d1 d2 x1 y1 (start d1 d2 x1 y1) ∧
      (0 ≤ d1 → d2 * y1 ≠ 0 → ∀ v ∈ divisors d1 d2 x1 y1, v ≠ 0) ∧
      (gam : K) ≠ 0 ∧ (gamSq : K) ≠ 0 := by
  obtain ⟨k, t, hmakes, hidle, hrefused, hrot, hfull⟩ : ∃ k t, Makes d1 d2 x1 y1 k t ∧
      (0 ≤ d1 ∧ d2 * y1 = 0 → t.params = ⟨-2, 0, 0, 0, 0⟩) ∧
      (Refused d1 d2 x1 y1 → t.params = ⟨-1, 0, 0, 0, 0⟩) ∧
      (¬ (0 ≤ d1 ∧ d2 * y1 = 0) → ¬ Refused d1 d2 x1 y1 → t.Rotates d1 d2 x1 y1 ∧
        ((2 ^ 24)⁻¹ < t.d1 ∧ t.d1 < 2 ^ 24) ∧
        (t.d2 = 0 ∨ (2 ^ 24)⁻¹ < |t.d2| ∧ |t.d2| < 2 ^ 24)) ∧
      (t.params.flag = -1 ↔ 0 < k ∨ Refused d1 d2 x1 y1) := by
    by_cases hrefused : Refused d1 d2 x1 y1
    · obtain ⟨t, ht, hparams⟩ := makes_of_refused hrefused
      refine ⟨0, t, ht, ?_, fun _ => hparams, fun _ h => absurd hrefused h, ?_⟩
      · rintro ⟨hd, hp⟩
        exact absurd hp (hrefused.resolve_left (not_lt.mpr hd)).1
      · rw [hparams]
        exact iff_of_true rfl (Or.inr hrefused)
    have hd : 0 ≤ d1 := not_lt.mp fun h => hrefused (Or.inl h)
    by_cases hp : d2 * y1 = 0
    · refine ⟨0, _, .idle (not_lt.mpr hd) (ExactReal.beq_iff.mpr hp), fun _ => ?_,
        fun h => absurd h hrefused, fun h => absurd ⟨hd, hp⟩ h, ?_⟩
      · exact congrArg (Params.mk · 0 0 0 0) (congrArg Neg.neg one_add_one_eq_two)
      · rw [flag_params_eq_neg_one_iff]
        simp [blank, hrefused]
    · obtain ⟨k, t, ht, hrot, hd1, hd2, hfull⟩ := makes_of_not_refused hd hp hrefused
      refine ⟨k, t, ht, fun h => absurd h.2 hp, fun h => absurd h hrefused,
        fun _ _ => ⟨hrot, hd1, hd2⟩, ?_⟩
      rw [flag_params_eq_neg_one_iff, hfull, or_iff_left hrefused]
  refine ⟨k, t, hmakes, ?_, hidle, hrefused, fun ha hb => ?_, hfull, (implied_params t).1,
    (implied_params t).2, fun hd hlt => (rotates_of_lt hd hlt).1, startQuotients d1 d2 x1 y1,
    divisors_ne_zero, ?_, ?_⟩
  · rw [Params.setup?, make?_eq_some_iff.mpr ⟨k, hmakes⟩, Option.map_some]
  · obtain ⟨hrot, hd1, hd2⟩ := hrot ha hb
    refine ⟨hd1, hd2, ⟨t.first x1 y1, ?_⟩, ?_⟩
    · rw [apply_params hrot.proper, hrot.zeroed]
    · intro w z w' z' h
      rw [apply_params hrot.proper] at h
      cases h
      exact hrot.kept w z
  · rw [gam_eq]
    exact pow_ne_zero 12 two_ne_zero
  · rw [gamSq_eq]
    exact pow_ne_zero 24 two_ne_zero

/-- Rational weights of both signs, the first above its bound. -/
theorem modified_rotation_of_large_weight :
    let _ : ExactReal ℚ := .rational
    ∃ t : Weighted ℚ, Params.setup? (2 ^ 30 : ℚ) (-3) 1 2 = some t.params ∧
      ¬ Refused (2 ^ 30 : ℚ) (-3) 1 2 ∧ ((2 ^ 24)⁻¹ < t.d1 ∧ t.d1 < 2 ^ 24) ∧
      (∃ x1', t.params.apply (1 : ℚ) 2 = (x1', 0)) ∧
      ∀ w z w' z' : ℚ, t.params.apply w z = (w', z') →
        t.d1 * w' ^ 2 + t.d2 * z' ^ 2 = 2 ^ 30 * w ^ 2 + -3 * z ^ 2 := by
  let _ : ExactReal ℚ := .rational
  obtain ⟨k, t, -, hsetup, -, -, hc, -⟩ := modified_rotation (K := ℚ) (2 ^ 30) (-3) 1 2
  have hp : (-3 * 2 : ℚ) ≠ 0 := by norm_num
  have hd : ¬ (2 ^ 30 : ℚ) < 0 := by norm_num
  have hle : ¬ (2 ^ 30 * 1 ^ 2 : ℚ) ≤ |-3| * 2 ^ 2 := by norm_num
  have hrefused : ¬ Refused (2 ^ 30 : ℚ) (-3) 1 2 := fun h => hle (h.resolve_left hd).2.2
  obtain ⟨hd1, -, hzero, hkept⟩ := hc (fun h => hp h.2) hrefused
  exact ⟨t, hsetup, hrefused, hd1, hzero, hkept⟩

end Strided
