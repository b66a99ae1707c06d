import Mathlib.Data.Set.Function
import Strided.Proofs.Reversal

/-! # The extent of a window

A window of `n` elements spans `(n - 1) * |inc|` cells after its offset. The resolver checks in words
that it ends inside its buffer, and the check is the inequality of the integers. In a window that
does, the positions of the elements are the multiples of the step up to the last one, each of them
once. With the opposite increment the elements stand in the opposite order; and they are a block of
cells if the increment is `1`, and only then.

* `extent_check_exact`: what the check accepts, and how it refuses.
* `bijOn_position?`: the elements and their positions.
* `position?_neg`, `View.gather_reversed`: the opposite increment.
* `positions_fill_window`: all of this for one view. -/

namespace Strided

/-! ### The check -/

theorem Window.checkExtent_eq_error_iff {w : Window} {arg : String} {n len : UInt64} {e : Error} :
    w.checkExtent arg n len = .error e ↔
      ¬ w.fits n len ∧ e = .vectorTooShort arg n w.offset w.inc len := by
  unfold checkExtent
  split_ifs with hf
  · simp [hf]
  · simp [hf, eq_comm]

theorem Window.fits_iff_int {w : Window} {n len : UInt64} :
    w.fits n len ↔
      n = 0 ∨ (w.offset.toNat : ℤ) + ((n.toNat : ℤ) - 1) * |w.inc.toInt| < len.toNat := by
  have h0 : (0 : UInt64).toNat = 0 := rfl
  rw [fits_iff, ← UInt64.toNat_inj, h0]
  rcases Nat.eq_zero_or_pos n.toNat with hn | hn
  · simp [hn]
  · rw [← w.natCast_last hn.ne']
    omega

/-- **The check of the extent is exact**, whatever the numbers are: the offset may lie past the end
of the buffer, and the increment may be zero or the least one. It accepts a window without elements
and one whose last cell is inside the buffer, counted in the integers; and otherwise it refuses with
the error that says just what was checked. -/
theorem extent_check_exact (arg : String) (len offset n : UInt64) (inc : Int64) :
    ((⟨offset, inc⟩ : Window).checkExtent arg n len = .ok () ↔
      n = 0 ∨ (offset.toNat : ℤ) + ((n.toNat : ℤ) - 1) * |inc.toInt| < len.toNat) ∧
    ∀ e, (⟨offset, inc⟩ : Window).checkExtent arg n len = .error e ↔
      ¬ (n = 0 ∨ (offset.toNat : ℤ) + ((n.toNat : ℤ) - 1) * |inc.toInt| < len.toNat) ∧
        e = .vectorTooShort arg n offset inc len := by
  refine ⟨?_, fun e => ?_⟩
  · rw [Window.checkExtent_eq_ok_iff, Window.fits_iff_int]
  · rw [Window.checkExtent_eq_error_iff, Window.fits_iff_int]

/-! ### The positions of the elements -/

/-- The multiples of the step from zero to the last position. -/
def stops (n : UInt64) (inc : Int64) : Set ℕ :=
  {q | inc.toInt.natAbs ∣ q ∧ q ≤ (n.toNat - 1) * inc.toInt.natAbs}

theorem dvd_reach (n : ℕ) (inc : Int64) (i : ℕ) : inc.toInt.natAbs ∣ reach n inc i := by
  unfold reach
  split_ifs
  · exact Nat.dvd_mul_left _ _
  · exact Nat.dvd_mul_left _ _

theorem exists_reach_eq {n q : ℕ} {inc : Int64} (hn : 1 ≤ n) (hinc : inc ≠ 0)
    (hdvd : inc.toInt.natAbs ∣ q) (hle : q ≤ (n - 1) * inc.toInt.natAbs) :
    ∃ i < n, reach n inc i = q := by
  obtain ⟨k, rfl⟩ := hdvd
  rw [Nat.mul_comm] at hle ⊢
  have hk : k ≤ n - 1 := Nat.le_of_mul_le_mul_right hle (natAbs_pos hinc)
  unfold reach
  split_ifs
  · exact ⟨k, by omega, rfl⟩
  · exact ⟨n - 1 - k, by omega, by congr 1; omega⟩

section Positions
variable {n : UInt64} {inc : Int64}

theorem position?_of_lt {i : UInt64} (hi : i < n)
    (hspan : (n.toNat - 1) * inc.toInt.natAbs < UInt64.size) :
    (position? i n inc).map UInt64.toNat = some (reach n.toNat inc i.toNat) := by
  have hlt := UInt64.lt_iff_toNat_lt.mp hi
  have hr := reach_le inc hlt
  rw [Option.map_eq_some_iff]
  have hword : (UInt64.ofNat (reach n.toNat inc i.toNat)).toNat = reach n.toNat inc i.toNat :=
    UInt64.toNat_ofNat_of_lt' (by omega)
  exact ⟨_, position?_eq_some_iff.mpr ⟨Or.inr hlt, hword⟩, hword⟩

/-- **The positions of a window** are the multiples of the step, each of them once. -/
theorem bijOn_position? (hn : 1 ≤ n.toNat) (hinc : inc ≠ 0)
    (hspan : (n.toNat - 1) * inc.toInt.natAbs < UInt64.size) :
    Set.BijOn (fun i => (position? i n inc).map UInt64.toNat) {i | i < n}
      (some '' stops n inc) := by
  refine ⟨fun i hi => ?_, fun i hi j hj h => ?_, ?_⟩
  · have hlt := UInt64.lt_iff_toNat_lt.mp hi
    exact ⟨_, ⟨dvd_reach _ _ _, reach_le inc hlt⟩, (position?_of_lt hi hspan).symm⟩
  · simp only [position?_of_lt hi hspan, position?_of_lt hj hspan, Option.some.injEq] at h
    exact UInt64.toNat_inj.mp (reach_inj hinc (Or.inr (UInt64.lt_iff_toNat_lt.mp hi))
      (Or.inr (UInt64.lt_iff_toNat_lt.mp hj)) h)
  · rintro _ ⟨q, ⟨hdvd, hle⟩, rfl⟩
    obtain ⟨i, hi, rfl⟩ := exists_reach_eq hn hinc hdvd hle
    have hn' := n.toNat_lt_size
    have ei : (UInt64.ofNat i).toNat = i := UInt64.toNat_ofNat_of_lt' (by omega)
    have hlt : UInt64.ofNat i < n := UInt64.lt_iff_toNat_lt.mpr (by omega)
    refine ⟨UInt64.ofNat i, hlt, ?_⟩
    simp only [position?_of_lt hlt hspan, ei]

/-- **The positions with the opposite increment**, in words. -/
theorem position?_neg (hinc : inc ≠ 0) (hmin : inc ≠ Int64.minValue) {i : UInt64} (hi : i < n) :
    position? i n (-inc) = position? (n - 1 - i) n inc := by
  have hlt := UInt64.lt_iff_toNat_lt.mp hi
  have h1 : (1 : UInt64).toNat = 1 := rfl
  have e1 : (n - 1).toNat = n.toNat - 1 := by
    rw [UInt64.toNat_sub_of_le _ _ (UInt64.le_iff_toNat_le.mpr (by omega)), h1]
  have e2 : (n - 1 - i).toNat = n.toNat - 1 - i.toNat := by
    rw [UInt64.toNat_sub_of_le _ _ (UInt64.le_iff_toNat_le.mpr (by omega)), e1]
  refine Option.ext fun p => ?_
  rw [position?_eq_some_iff, position?_eq_some_iff, e2, reach_neg hinc hmin hlt]
  -- both elements are among the `n`, so their numbers count for either sign
  have hback : n.toNat - 1 - i.toNat < n.toNat := by omega
  simp only [hlt, hback, or_true]

end Positions

/-! ### The elements in the opposite order, and as a block -/

namespace View

variable {α : Type}

/-- The same cells in the opposite order. -/
def reversed (v : View α) : View α := { v with inc := -v.inc }

theorem Inside.reversed {v : View α} (hv : v.Inside) : v.reversed.Inside :=
  Window.Inside.reversed hv

theorem elem?_reversed {v : View α} (hv : v.Inside) (hmin : v.inc ≠ Int64.minValue) {i : ℕ}
    (hi : i < v.n.toNat) : v.reversed.elem? i = v.elem? (v.n.toNat - 1 - i) :=
  congrArg v.buffer.get? (Window.place_reversed hv.inc_ne hmin hi)

theorem gather_reversed {v : View α} (hv : v.Inside) (hmin : v.inc ≠ Int64.minValue) :
    v.reversed.gather = v.gather.reverse := by
  have hl := length_gather hv
  have hl' : v.reversed.gather.length = v.n.toNat := length_gather hv.reversed
  refine List.ext_getElem? fun i => ?_
  rcases Nat.lt_or_ge i v.n.toNat with hi | hi
  · rw [List.getElem?_reverse (by omega), hl, getElem?_gather hv (by omega),
      getElem?_gather hv.reversed hi, elem?_reversed hv hmin hi]
  · rw [List.getElem?_eq_none (by omega), List.getElem?_eq_none (by rw [List.length_reverse]; omega)]

end View

/-- **The positions of a window fill it, and the opposite increment turns it round.** If the last of
the `n ≥ 1` elements of a view lies inside its buffer, the elements have the multiples of the step
as positions, up to the last one, each of them once. With the opposite increment element `i` has the
position of element `n - 1 - i`, so that the elements are read in the opposite order. The view is a
block of cells exactly if its increment is `1`, and the block then holds its elements in order. -/
theorem positions_fill_window {α : Type} (v : View α) (hn : 1 ≤ v.n.toNat) (hinc : v.inc ≠ 0)
    (hdata : (v.n.toNat - 1) * v.inc.toInt.natAbs < v.buffer.cells.size - v.offset.toNat) :
    Set.BijOn (fun i => (position? i v.n v.inc).map UInt64.toNat) {i | i < v.n}
      (some '' stops v.n v.inc) ∧
    (v.inc ≠ Int64.minValue →
      ∀ i < v.n, position? i v.n (-v.inc) = position? (v.n - 1 - i) v.n v.inc) ∧
    ∃ xs, v.elements? = some xs ∧ xs.length = v.n.toNat ∧ (∀ i < v.n, xs[i.toNat]? = v.get? i) ∧
      (v.inc ≠ Int64.minValue → v.reversed.elements? = some xs.reverse) ∧
      v.contiguous? = some (if v.inc = 1 then some xs.toArray else none) := by
  have hsize := v.buffer.size_lt
  have hv : v.Inside := ⟨hinc, show v.offset.toNat < _ by omega, fun _ =>
    show v.offset.toNat + (v.n.toNat - 1) * v.inc.toInt.natAbs < _ by omega⟩
  refine ⟨bijOn_position? hn hinc (by omega), fun hmin i hi => position?_neg hinc hmin hi,
    v.gather, View.elements?_eq hv, View.length_gather hv, fun i hi => ?_, fun hmin => ?_,
    by simpa [View.isContiguous] using View.contiguous?_eq_ite hv⟩
  · have hlt := UInt64.lt_iff_toNat_lt.mp hi
    rw [View.getElem?_gather hv hlt, ← View.get?_eq hv hlt, UInt64.ofNat_toNat]
  · rw [View.elements?_eq hv.reversed, View.gather_reversed hv hmin]

/-- Three elements, every second cell from the second one on, read from the far end and then from the
near one. -/
theorem positions_fill_window_backwards : ∃ v : View ℕ,
    v.buffer.cells = #[0, 1, 2, 3, 4, 5, 6] ∧ v.offset = 1 ∧ v.n = 3 ∧ v.inc = -2 ∧
      v.elements? = some [5, 3, 1] ∧ v.reversed.elements? = some [1, 3, 5] ∧
      v.contiguous? = some none ∧ ∃ i < v.n,
        (position? i v.n v.inc).map UInt64.toNat = some 2 := by
  let v : View ℕ := ⟨⟨#[0, 1, 2, 3, 4, 5, 6], by decide⟩, 1, 3, -2⟩
  obtain ⟨hbij, -, xs, hxs, -, -, hreversed, hblock⟩ :=
    positions_fill_window v (by decide) (by decide) (by decide)
  have hlist : v.elements? = some [5, 3, 1] := by decide
  cases hxs.symm.trans hlist
  obtain ⟨i, hi, hpos⟩ := hbij.surjOn (show some 2 ∈ some '' stops v.n v.inc from
    ⟨2, ⟨by decide, by decide⟩, rfl⟩)
  exact ⟨v, rfl, rfl, rfl, rfl, hlist, hreversed (by decide), hblock, i, hi, hpos⟩

end Strided
