import Mathlib.Data.Nat.Notation
import Mathlib.Tactic.Common
import Strided.Kernel.ModifiedGivens

/-! # Rescaling loops

The weights of a modified rotation are rescaled until they lie between the bounds. A loop that comes
to its end does so after some number of steps, and `Settles` counts them. Nothing here depends on
the arithmetic.

* `settle?_eq_some_iff`: the loop has a result exactly if it comes to its end.
* `Settles.invariant`, `Settles.exists_of_rank`, `settle?_eq_none`: what holds at the end, a loop that
  ends, and a loop that does not.
* `Weighted.Makes`, `Weighted.make?_eq_some_iff`: how a modified rotation is made, with the number of
  rescalings. -/

namespace Strided

section Settles
variable {σ : Type} {step : σ → Option σ}

/-- From `s` the step can be done `k` times, and then has nothing to do at `t`. -/
inductive Settles (step : σ → Option σ) : σ → ℕ → σ → Prop
  | done {s : σ} (h : step s = none) : Settles step s 0 s
  | next {s s' t : σ} {k : ℕ} (h : step s = some s') (ht : Settles step s' k t) :
      Settles step s (k + 1) t

/-- **A loop with a result** has done finitely many steps. -/
theorem settle?_eq_some_iff {s t : σ} : settle? step s = some t ↔ ∃ k, Settles step s k t := by
  constructor
  · intro h
    refine settle?.partial_correctness (fun step s t => ∃ k, Settles step s k t) ?_ step s t h
    intro settle ih step s t h
    split at h
    · rename_i hs
      cases h
      exact ⟨0, .done hs⟩
    · rename_i s' hs
      obtain ⟨k, hk⟩ := ih step s' t h
      exact ⟨k + 1, .next hs hk⟩
  · rintro ⟨k, h⟩
    induction h with
    | done h => rw [settle?, h]
    | next h _ ih =>
      rw [settle?, h]
      exact ih

/-- A loop that always finds something to do has no result. -/
theorem settle?_eq_none {P : σ → Prop} (h : ∀ s, P s → ∃ s', step s = some s' ∧ P s') {s : σ}
    (hs : P s) : settle? step s = none := by
  rw [Option.eq_none_iff_forall_ne_some]
  intro t ht
  obtain ⟨k, hk⟩ := settle?_eq_some_iff.mp ht
  induction hk with
  | done hnone =>
    obtain ⟨s', hs', -⟩ := h _ hs
    rw [hnone] at hs'
    cases hs'
  | next hsome hrest ih =>
    obtain ⟨s', hs', hP⟩ := h _ hs
    cases hsome.symm.trans hs'
    exact ih hP (settle?_eq_some_iff.mpr ⟨_, hrest⟩)

namespace Settles

theorem stuck {s t : σ} {k : ℕ} (h : Settles step s k t) : step t = none := by
  induction h with
  | done h => exact h
  | next _ _ ih => exact ih

/-- **What a step keeps, the loop keeps.** -/
theorem invariant {P : σ → Prop} (hP : ∀ s s', P s → step s = some s' → P s') {s t : σ} {k : ℕ}
    (h : Settles step s k t) (hs : P s) : P t := by
  induction h with
  | done _ => exact hs
  | next h _ ih => exact ih (hP _ _ hs h)

theorem eq_of_zero {s t : σ} (h : Settles step s 0 t) : t = s := by
  cases h
  rfl

/-- What every step brings about holds after a loop that has done one. -/
theorem of_pos {P : σ → Prop} (hP : ∀ s s', step s = some s' → P s') {s t : σ} {k : ℕ}
    (h : Settles step s k t) (hk : 0 < k) : P t := by
  cases h with
  | done _ => exact absurd hk (Nat.lt_irrefl 0)
  | next h ht => exact ht.invariant (fun s s' _ => hP s s') (hP _ _ h)

/-- **A loop ends** if every step lowers a rank. -/
theorem exists_of_rank {P : ℕ → σ → Prop}
    (h : ∀ n s, P n s → step s = none ∨ ∃ s', step s = some s' ∧ ∃ m < n, P m s') :
    ∀ n s, P n s → ∃ k t, Settles step s k t := by
  intro n
  induction n using Nat.strongRecOn with
  | ind n ih =>
    intro s hs
    obtain hnone | ⟨s', hsome, m, hm, hs'⟩ := h n s hs
    · exact ⟨0, s, .done hnone⟩
    · obtain ⟨k, t, hk⟩ := ih m hm s' hs'
      exact ⟨k + 1, t, .next hsome hk⟩

end Settles

end Settles

/-! ### Making a modified rotation -/

namespace Weighted

variable {ρ : Type}

/-- After `k` rescalings either nothing has happened, or the matrix has all its entries. -/
def Counted (s : Weighted ρ) (k : ℕ) (t : Weighted ρ) : Prop :=
  k = 0 ∧ t = s ∨ 0 < k ∧ t.form = .full

theorem counted_of_settles {step : Weighted ρ → Option (Weighted ρ)} {s t : Weighted ρ} {k : ℕ}
    (hstep : ∀ u v, step u = some v → v.form = .full) (h : Settles step s k t) :
    Counted s k t := by
  rcases Nat.eq_zero_or_pos k with rfl | hk
  · exact Or.inl ⟨rfl, h.eq_of_zero⟩
  · exact Or.inr ⟨hk, h.of_pos hstep hk⟩

variable [RealScalar ρ]

theorem form_expand (s : Weighted ρ) : s.expand.form = .full := by
  unfold expand
  split <;> rfl

theorem d1_expand (s : Weighted ρ) : s.expand.d1 = s.d1 := by
  unfold expand
  split <;> rfl

theorem d2_expand (s : Weighted ρ) : s.expand.d2 = s.d2 := by
  unfold expand
  split <;> rfl

theorem expand_of_full {s : Weighted ρ} (h : s.form = .full) : s.expand = s := by
  unfold expand
  rw [h]
  cases s
  cases h
  rfl

/-- A weight `a` of size `c` is rescaled to `b`. -/
def Rescaled (c a b : ρ) : Prop :=
  c ≤ rgamSq ∧ b = a * gamSq ∨ ¬ c ≤ rgamSq ∧ gamSq ≤ c ∧ b = a / gamSq

theorem rescaled_of_rescaleFirst? {s t : Weighted ρ} (h : rescaleFirst? s = some t) :
    Rescaled s.d1 s.d1 t.d1 ∧ t.d2 = s.d2 := by
  unfold rescaleFirst? at h
  split_ifs at h with hlow hhigh
  · cases h
    exact ⟨Or.inl ⟨hlow, rfl⟩, d2_expand s⟩
  · cases h
    exact ⟨Or.inr ⟨hlow, hhigh, rfl⟩, d2_expand s⟩

theorem rescaled_of_rescaleSecond? {s t : Weighted ρ} (h : rescaleSecond? s = some t) :
    Rescaled (RealScalar.abs s.d2) s.d2 t.d2 ∧ t.d1 = s.d1 := by
  unfold rescaleSecond? at h
  split_ifs at h with hlow hhigh
  · cases h
    exact ⟨Or.inl ⟨hlow, rfl⟩, d1_expand s⟩
  · cases h
    exact ⟨Or.inr ⟨hlow, hhigh, rfl⟩, d1_expand s⟩

theorem rescaleFirst?_eq_none_iff {s : Weighted ρ} :
    rescaleFirst? s = none ↔ ¬ s.d1 ≤ rgamSq ∧ ¬ gamSq ≤ s.d1 := by
  unfold rescaleFirst?
  split_ifs <;> simp [*]

theorem rescaleSecond?_eq_none_iff {s : Weighted ρ} :
    rescaleSecond? s = none ↔
      ¬ RealScalar.abs s.d2 ≤ rgamSq ∧ ¬ gamSq ≤ RealScalar.abs s.d2 := by
  unfold rescaleSecond?
  split_ifs <;> simp [*]

section Start
variable {d1 d2 x1 y1 : ρ}

/-- The divisor of the weights when the matrix has a unit diagonal. -/
def diagonalDivisor (d1 d2 x1 y1 : ρ) : ρ := 1 - d2 * y1 / (d1 * x1) * (-y1 / x1)

/-- The divisor of the weights when the matrix has a unit antidiagonal. -/
def antidiagonalDivisor (d1 d2 x1 y1 : ρ) : ρ := 1 + d1 * x1 / (d2 * y1) * (x1 / y1)

/-- The larger of `d1 x1²` and `d2 y1²` in size decides about the diagonal. -/
theorem start_of_lt (h : RealScalar.abs (d2 * y1 * y1) < RealScalar.abs (d1 * x1 * x1)) :
    start d1 d2 x1 y1 = if 0 < diagonalDivisor d1 d2 x1 y1 then
      ⟨d1 / diagonalDivisor d1 d2 x1 y1, d2 / diagonalDivisor d1 d2 x1 y1, .unitDiagonal, 0,
        -y1 / x1, d2 * y1 / (d1 * x1), 0⟩
      else blank 0 0 .full :=
  if_pos h

theorem start_of_not_lt (h : ¬ RealScalar.abs (d2 * y1 * y1) < RealScalar.abs (d1 * x1 * x1)) :
    start d1 d2 x1 y1 = if d2 * y1 * y1 < 0 then blank 0 0 .full
      else ⟨d2 / antidiagonalDivisor d1 d2 x1 y1, d1 / antidiagonalDivisor d1 d2 x1 y1,
        .unitAntidiagonal, d1 * x1 / (d2 * y1), 0, 0, x1 / y1⟩ :=
  if_neg h

end Start

/-- The loop over the first weight does `k` rescalings and leaves `t`. -/
def SettlesFirst (s : Weighted ρ) (k : ℕ) (t : Weighted ρ) : Prop :=
  if s.d1 == 0 then k = 0 ∧ t = s else Settles rescaleFirst? s k t

/-- The loop over the second weight does `k` rescalings and leaves `t`. -/
def SettlesSecond (s : Weighted ρ) (k : ℕ) (t : Weighted ρ) : Prop :=
  if s.d2 == 0 then k = 0 ∧ t = s else Settles rescaleSecond? s k t

theorem settleFirst?_eq_some_iff {s t : Weighted ρ} :
    settleFirst? s = some t ↔ ∃ k, s.SettlesFirst k t := by
  unfold settleFirst? SettlesFirst
  split_ifs
  · simp [eq_comm]
  · exact settle?_eq_some_iff

theorem settleSecond?_eq_some_iff {s t : Weighted ρ} :
    settleSecond? s = some t ↔ ∃ k, s.SettlesSecond k t := by
  unfold settleSecond? SettlesSecond
  split_ifs
  · simp [eq_comm]
  · exact settle?_eq_some_iff

/-- The modified rotation that zeroes `y1` is made by a number of rescalings in all. -/
inductive Makes (d1 d2 x1 y1 : ρ) : ℕ → Weighted ρ → Prop
  | negative (h : d1 < 0) : Makes d1 d2 x1 y1 0 (blank d1 d2 .full)
  | idle (h : ¬ d1 < 0) (hp : (d2 * y1 == 0) = true) :
      Makes d1 d2 x1 y1 0 (blank d1 d2 .identity)
  | rescaled {j k : ℕ} {s t : Weighted ρ} (h : ¬ d1 < 0) (hp : (d2 * y1 == 0) = false)
      (hs : (start d1 d2 x1 y1).SettlesFirst j s) (ht : s.SettlesSecond k t) :
      Makes d1 d2 x1 y1 (j + k) t

/-- **A modified rotation with a result** is made by finitely many rescalings. -/
theorem make?_eq_some_iff {d1 d2 x1 y1 : ρ} {t : Weighted ρ} :
    make? d1 d2 x1 y1 = some t ↔ ∃ k, Makes d1 d2 x1 y1 k t := by
  unfold make?
  constructor
  · intro h
    split_ifs at h with hd hp
    · cases h
      exact ⟨0, .negative hd⟩
    · cases h
      exact ⟨0, .idle hd hp⟩
    · obtain ⟨s, hs, ht⟩ := Option.bind_eq_some_iff.mp h
      obtain ⟨j, hj⟩ := settleFirst?_eq_some_iff.mp hs
      obtain ⟨k, hk⟩ := settleSecond?_eq_some_iff.mp ht
      exact ⟨j + k, .rescaled hd (Bool.eq_false_iff.mpr hp) hj hk⟩
  · rintro ⟨_, h⟩
    cases h with
    | negative hd => rw [if_pos hd]
    | idle hd hp => rw [if_neg hd, if_pos hp]
    | rescaled hd hp hs ht =>
      rw [if_neg hd, hp, if_neg Bool.false_ne_true, settleFirst?_eq_some_iff.mpr ⟨_, hs⟩]
      exact settleSecond?_eq_some_iff.mpr ⟨_, ht⟩

end Weighted

end Strided
