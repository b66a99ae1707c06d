import Mathlib.Data.List.Basic
import Mathlib.Data.List.Induction
import Mathlib.Data.Nat.Basic
import Mathlib.Order.Basic
import Strided.View

/-! # Places of elements

`Window.place w n i` is the cell of element `i` of `n` in a window, counted in natural numbers. If
the window lies `Inside` a buffer, the words that the views compute with never overflow, and
`cell?` gives exactly this cell.

* `reach_le`, `reach_inj`: the `n` elements lie within `(n - 1) * |inc|` cells, no two in the same.
* `position?_eq_some_iff`, `position?_eq`: the position in words is the one in natural numbers.
* `View.cell?_eq`: the cell of an element of a view inside its buffer. -/

namespace Strided

/-- How far after the offset element `i` of `n` lies, as a natural number. -/
def reach (n : ℕ) (inc : Int64) (i : ℕ) : ℕ :=
  if 0 < inc then i * inc.toInt.natAbs else (n - 1 - i) * inc.toInt.natAbs

theorem natAbs_pos {inc : Int64} (h : inc ≠ 0) : 0 < inc.toInt.natAbs := by
  rw [ne_eq, ← Int64.toInt_inj] at h
  have h0 : (0 : Int64).toInt = 0 := rfl
  omega

theorem reach_le {n i : ℕ} (inc : Int64) (hi : i < n) :
    reach n inc i ≤ (n - 1) * inc.toInt.natAbs := by
  unfold reach
  split_ifs
  · exact Nat.mul_le_mul_right _ (by omega)
  · exact Nat.mul_le_mul_right _ (by omega)

/-- Elements before the first cell apart, no two have the same position. -/
theorem reach_inj {n i j : ℕ} {inc : Int64} (hinc : inc ≠ 0) (hi : 0 < inc ∨ i < n)
    (hj : 0 < inc ∨ j < n) (h : reach n inc i = reach n inc j) : i = j := by
  have hstep := natAbs_pos hinc
  unfold reach at h
  split_ifs at h with hpos
  · exact Nat.eq_of_mul_eq_mul_right hstep h
  · have hback := Nat.eq_of_mul_eq_mul_right hstep h
    have hi' := hi.resolve_left hpos
    have hj' := hj.resolve_left hpos
    omega

/-- **Positions in words.** An element has a position unless it lies before the first cell or no
word holds the distance. The number of an element is compared with `n` only if the increment is
negative. -/
theorem position?_eq_some_iff {i n p : UInt64} {inc : Int64} :
    position? i n inc = some p ↔
      (0 < inc ∨ i.toNat < n.toNat) ∧ p.toNat = reach n.toNat inc i.toNat := by
  have h1 : (1 : UInt64).toNat = 1 := rfl
  unfold position? reach
  split_ifs with hinc
  · simp [Word.mul?_eq_some_iff, hinc]
  · simp only [Option.bind_eq_bind, Option.bind_eq_some_iff, Word.sub?_eq_some_iff,
      Word.mul?_eq_some_iff, Word.toNat_magnitude, h1, hinc, false_or]
    constructor
    · rintro ⟨last, hlast, back, hback, hp⟩
      have e : back.toNat = n.toNat - 1 - i.toNat := by omega
      exact ⟨by omega, by rw [hp, e]⟩
    · rintro ⟨hi, hp⟩
      have hn := n.toNat_lt_size
      have hof : ∀ {k : ℕ}, k ≤ n.toNat → (UInt64.ofNat k).toNat = k := fun hk =>
        UInt64.toNat_ofNat_of_lt' (by omega)
      refine ⟨UInt64.ofNat (n.toNat - 1), ?_, UInt64.ofNat (n.toNat - 1 - i.toNat), ?_, ?_⟩
      · rw [hof (by omega)]; omega
      · rw [hof (by omega), hof (by omega)]; omega
      · rw [hof (by omega), hp]

/-- As long as the last position is a word, every element has its position. -/
theorem position?_eq {n : UInt64} {inc : Int64} {i : ℕ} (hi : i < n.toNat)
    (hlast : (n.toNat - 1) * inc.toInt.natAbs < UInt64.size) :
    position? (UInt64.ofNat i) n inc = some (UInt64.ofNat (reach n.toNat inc i)) := by
  have hn := n.toNat_lt_size
  have hr := reach_le inc hi
  have ei : (UInt64.ofNat i).toNat = i := UInt64.toNat_ofNat_of_lt' (by omega)
  rw [position?_eq_some_iff, ei, UInt64.toNat_ofNat_of_lt' (by omega)]
  exact ⟨Or.inr hi, rfl⟩

namespace Window

/-- The cell of element `i` of `n`. -/
def place (w : Window) (n i : ℕ) : ℕ := w.offset.toNat + reach n w.inc i

/-- The last of the cells that `n` elements span. -/
def last (w : Window) (n : ℕ) : ℕ := w.offset.toNat + (n - 1) * w.inc.toInt.natAbs

/-- A window of `n` elements lies inside a buffer of `len` cells. -/
structure Inside (w : Window) (n len : ℕ) : Prop where
  inc_ne : w.inc ≠ 0
  offset_lt : w.offset.toNat < len
  last_lt : n ≠ 0 → w.last n < len

theorem offset_le_place (w : Window) (n i : ℕ) : w.offset.toNat ≤ w.place n i :=
  Nat.le_add_right _ _

theorem place_le_last (w : Window) {n i : ℕ} (hi : i < n) : w.place n i ≤ w.last n :=
  Nat.add_le_add_left (reach_le w.inc hi) _

theorem place_inj {w : Window} {n i j : ℕ} (hinc : w.inc ≠ 0) (hi : i < n) (hj : j < n)
    (h : w.place n i = w.place n j) : i = j :=
  reach_inj hinc (Or.inr hi) (Or.inr hj) (Nat.add_left_cancel h)

theorem Inside.place_lt {w : Window} {n len i : ℕ} (h : w.Inside n len) (hi : i < n) :
    w.place n i < len :=
  Nat.lt_of_le_of_lt (w.place_le_last hi) (h.last_lt (by omega))

end Window

namespace View

variable {α : Type}

/-- The window of a view. -/
def window (v : View α) : Window := ⟨v.offset, v.inc⟩

/-- The cell of element `i`. -/
def place (v : View α) (i : ℕ) : ℕ := v.window.place v.n.toNat i

/-- The window of a view lies inside its buffer. -/
def Inside (v : View α) : Prop := v.window.Inside v.n.toNat v.buffer.cells.size

theorem Inside.place_lt {v : View α} (h : v.Inside) {i : ℕ} (hi : i < v.n.toNat) :
    v.place i < v.buffer.cells.size :=
  Window.Inside.place_lt h hi

theorem Inside.place_inj {v : View α} (h : v.Inside) {i j : ℕ} (hi : i < v.n.toNat)
    (hj : j < v.n.toNat) (e : v.place i = v.place j) : i = j :=
  Window.place_inj h.inc_ne hi hj e

/-- **The cell of an element.** -/
theorem cell?_eq {v : View α} (h : v.Inside) {i : ℕ} (hi : i < v.n.toNat) :
    v.cell? (UInt64.ofNat i) = some (v.place i) := by
  have hlast := h.last_lt (by omega)
  have hsize := v.buffer.size_lt
  have hspan : (v.n.toNat - 1) * v.inc.toInt.natAbs < UInt64.size := by
    unfold Window.last window at hlast
    simp only at hlast
    omega
  have hr := reach_le v.inc hi
  unfold cell?
  rw [position?_eq hi hspan, Option.map_some, UInt64.toNat_ofNat_of_lt' (by omega)]
  rfl

end View

end Strided
