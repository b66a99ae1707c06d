import Mathlib.Data.Prod.Lex
import Strided.Proofs.Ieee
import Strided.Proofs.Outcome
import Strided.Proofs.Refusal

/-! # The first maximum

The search for the largest magnitude keeps the first entry, and goes over to a later one only if
that is larger. A comparison with an undefined value always fails: an undefined first entry stays,
and any other is passed over. So the entry kept is the first of the largest ones.

* `Ranked`: what the comparison of magnitudes is assumed to satisfy.
* `FirstMaximum`: the entry kept, among those seen so far.
* `FirstMaximum.keep`, `FirstMaximum.replace`: one entry more.
* `firstMaximum_scan`: the loop.
* `ranked_ieee`: binary formats compare by sign, then by exponent, then by mantissa.
* `first_maximum`: the calls. -/

namespace Strided

section Order
variable {ρ : Type} [RealScalar ρ]

/-- The order is total on the members of `M` that are defined, up to values neither of which is the
smaller one; nothing compares with an undefined value. -/
structure Ranked (undefined : ρ → Prop) (M : Set ρ) : Prop where
  irrefl : ∀ a ∈ M, ¬ undefined a → ¬ a < a
  trans : ∀ a ∈ M, ∀ b ∈ M, ∀ c ∈ M, ¬ undefined a → ¬ undefined b → ¬ undefined c →
    a < b → b < c → a < c
  total : ∀ a ∈ M, ∀ b ∈ M, ∀ c ∈ M, ¬ undefined a → ¬ undefined b → ¬ undefined c →
    a < b → a < c ∨ c < b
  not_lt : ∀ a ∈ M, ∀ b ∈ M, undefined a ∨ undefined b → ¬ a < b

/-- Entry `k` is the first maximum of the first `n` entries. -/
structure FirstMaximum (undefined : ρ → Prop) (m : ℕ → ρ) (n k : ℕ) : Prop where
  lt : k < n
  largest : ∀ j < n, ¬ m k < m j
  first : ∀ j < k, m j < m k ∨ undefined (m j)
  eq_zero_of_undefined : undefined (m k) → k = 0
  eq_zero_of_undefined_zero : undefined (m 0) → k = 0

namespace Ranked

variable {undefined : ρ → Prop} {M : Set ρ} (h : Ranked undefined M) {a b : ρ} (ha : a ∈ M)
include h ha

theorem not_lt_self : ¬ a < a := by
  by_cases hu : undefined a
  · exact h.not_lt a ha a ha (Or.inl hu)
  · exact h.irrefl a ha hu

theorem defined_of_lt (hb : b ∈ M) (hlt : a < b) : ¬ undefined a ∧ ¬ undefined b :=
  ⟨fun hu => h.not_lt a ha b hb (Or.inl hu) hlt, fun hu => h.not_lt a ha b hb (Or.inr hu) hlt⟩

theorem asymm (hb : b ∈ M) (hlt : a < b) : ¬ b < a := by
  intro hgt
  obtain ⟨hua, hub⟩ := h.defined_of_lt ha hb hlt
  exact h.irrefl a ha hua (h.trans a ha b hb a ha hua hub hua hlt hgt)

end Ranked

/-! ### The loop -/

namespace FirstMaximum

variable {undefined : ρ → Prop} {M : Set ρ} {m : ℕ → ρ} {n k : ℕ}

theorem one (h : Ranked undefined M) (hm : m 0 ∈ M) : FirstMaximum undefined m 1 0 where
  lt := Nat.one_pos
  largest j hj := by
    obtain rfl : j = 0 := by omega
    exact h.not_lt_self hm
  first j hj := by omega
  eq_zero_of_undefined _ := rfl
  eq_zero_of_undefined_zero _ := rfl

theorem keep (hk : FirstMaximum undefined m n k) (hn : ¬ m k < m n) :
    FirstMaximum undefined m (n + 1) k where
  lt := Nat.lt_succ_of_lt hk.lt
  largest j hj := by
    rcases Nat.lt_succ_iff_lt_or_eq.mp hj with hj | rfl
    · exact hk.largest j hj
    · exact hn
  first := hk.first
  eq_zero_of_undefined := hk.eq_zero_of_undefined
  eq_zero_of_undefined_zero := hk.eq_zero_of_undefined_zero

/-- A larger entry is above all the others too, since none of them is above the one kept. -/
theorem lt_of_lt (h : Ranked undefined M) (hm : ∀ i ≤ n, m i ∈ M)
    (hk : FirstMaximum undefined m n k) (hn : m k < m n) {j : ℕ} (hj : j < n) :
    m j < m n ∨ undefined (m j) := by
  have hkM := hm k hk.lt.le
  obtain ⟨huk, hun⟩ := h.defined_of_lt hkM (hm n le_rfl) hn
  by_cases hu : undefined (m j)
  · exact Or.inr hu
  · rcases h.total _ hkM _ (hm n le_rfl) _ (hm j hj.le) huk hun hu hn with hlt | hlt
    · exact absurd hlt (hk.largest j hj)
    · exact Or.inl hlt

theorem replace (h : Ranked undefined M) (hm : ∀ i ≤ n, m i ∈ M)
    (hk : FirstMaximum undefined m n k) (hn : m k < m n) :
    FirstMaximum undefined m (n + 1) n where
  lt := Nat.lt_succ_self n
  largest j hj := by
    rcases Nat.lt_succ_iff_lt_or_eq.mp hj with hj | rfl
    · rcases lt_of_lt h hm hk hn hj with hlt | hu
      · exact h.asymm (hm j hj.le) (hm n le_rfl) hlt
      · exact h.not_lt _ (hm n le_rfl) _ (hm j hj.le) (Or.inr hu)
    · exact h.not_lt_self (hm j le_rfl)
  first j hj := lt_of_lt h hm hk hn hj
  eq_zero_of_undefined hu :=
    absurd hu (h.defined_of_lt (hm k hk.lt.le) (hm n le_rfl) hn).2
  eq_zero_of_undefined_zero hu := by
    -- an undefined first entry would still be the one kept
    rw [hk.eq_zero_of_undefined_zero hu] at hn
    exact absurd hu (h.defined_of_lt (hm 0 (Nat.zero_le n)) (hm n le_rfl) hn).1

end FirstMaximum

open Kernel

variable {undefined : ρ → Prop} {M : Set ρ} {m : ℕ → ρ}

/-- The state of the loop after the first `n` entries. -/
def scan (m : ℕ → ρ) (n : ℕ) : Peak ρ :=
  ((List.range n).map fun i => (m i, i)).foldl Peak.add Peak.zero

theorem scan_succ (m : ℕ → ρ) (n : ℕ) : scan m (n + 1) = (scan m n).add (m n, n) := by
  simp [scan, List.range_succ]

/-- **The loop** keeps the first maximum, and its position counted from one. -/
theorem firstMaximum_scan (h : Ranked undefined M) {n : ℕ} (hm : ∀ i ≤ n, m i ∈ M) :
    ∃ k, scan m (n + 1) = ⟨k + 1, m k⟩ ∧ FirstMaximum undefined m (n + 1) k := by
  induction n with
  | zero => exact ⟨0, rfl, .one h (hm 0 le_rfl)⟩
  | succ n ih =>
    obtain ⟨k, hscan, hk⟩ := ih fun i hi => hm i (by omega)
    rw [scan_succ, hscan]
    unfold Peak.add
    by_cases hlt : m k < m (n + 1)
    · exact ⟨n + 1, if_pos (Or.inr hlt), .replace h hm hk hlt⟩
    · exact ⟨k, if_neg (by simpa using hlt), hk.keep hlt⟩

theorem firstPeak_eq_scan {ms : List ρ} (hm : ∀ i < ms.length, ms[i]? = some (m i)) :
    firstPeak ms = (scan m ms.length).position := by
  have hzip : ms.zipIdx = (List.range ms.length).map fun i => (m i, i) := by
    refine List.ext_getElem (by simp) fun i hi _ => ?_
    have hi' : i < ms.length := by simpa using hi
    have hmi := hm i hi'
    rw [List.getElem?_eq_getElem hi', Option.some.injEq] at hmi
    simp [hmi]
  unfold firstPeak scan
  rw [hzip]

/-- **A list** that is not empty has a first maximum; its position is found, counted from zero. -/
theorem exists_firstMaximum (h : Ranked undefined M) {ms : List ρ} (hne : 0 < ms.length)
    (hm : ∀ i < ms.length, ms[i]? = some (m i) ∧ m i ∈ M) :
    ∃ k, zeroBased (firstPeak ms) = some k ∧ FirstMaximum undefined m ms.length k := by
  obtain ⟨n, hn⟩ : ∃ n, ms.length = n + 1 := ⟨ms.length - 1, by omega⟩
  rw [firstPeak_eq_scan fun i hi => (hm i hi).1, hn]
  obtain ⟨k, hscan, hk⟩ := firstMaximum_scan h fun i (hi : i ≤ n) => (hm i (by omega)).2
  exact ⟨k, by rw [hscan]; rfl, hk⟩

end Order

/-! ### Binary formats -/

section Ieee

open Float.Model Float.Model.UnpackedFloat Ieee

/-- A number with a sign. -/
def withSign : Sign → ℤ → ℤ
  | .positive, z => z
  | .negative, z => -z

/-- Defined values compare by size class, then by exponent, then by mantissa, all with the sign. -/
def orderKey? : UnpackedFloat → Option (ℤ ×ₗ ℤ ×ₗ ℤ)
  | .infinity s => some (toLex (withSign s 2, toLex (0, 0)))
  | .finite s m e _ => some (toLex (withSign s 1, toLex (withSign s e, withSign s m)))
  | .zero _ => some (toLex (0, toLex (0, 0)))
  | .notANumber => none

theorem exists_orderKey? {u : UnpackedFloat} (h : u ≠ .notANumber) : ∃ a, a ∈ orderKey? u := by
  cases u with
  | notANumber => exact absurd rfl h
  | infinity s => exact ⟨_, rfl⟩
  | zero s => exact ⟨_, rfl⟩
  | finite s m e hm => exact ⟨_, rfl⟩

section Compare
variable {e e' : ℤ} {m m' : ℕ}

theorem compare_then_eq_lt :
    (compare e e').then (compare m m') = .lt ↔ e < e' ∨ e = e' ∧ m < m' := by
  simp [Ordering.then_eq_lt, compare_lt_iff_lt]

theorem compare_then_eq_gt :
    (compare e e').then (compare m m') = .gt ↔ e' < e ∨ e = e' ∧ m' < m := by
  simp [Ordering.then_eq_gt, compare_gt_iff_gt]

theorem compare_sign : compare Sign.negative Sign.positive = .lt := rfl

end Compare

theorem lt_iff_orderKey? {u v : UnpackedFloat} :
    UnpackedFloat.lt u v = true ↔ ∃ a ∈ orderKey? u, ∃ b ∈ orderKey? v, a < b := by
  unfold UnpackedFloat.lt
  rw [beq_iff_eq]
  cases u with
  | notANumber => simp [UnpackedFloat.compare, orderKey?]
  | infinity s =>
    cases s <;> rcases v with ⟨_ | _⟩ | _ | _ | ⟨_ | _, m, e, hm⟩ <;>
      simp [UnpackedFloat.compare, compare_sign, orderKey?, withSign, Prod.Lex.toLex_lt_toLex]
  | zero s =>
    rcases v with ⟨_ | _⟩ | _ | _ | ⟨_ | _, m, e, hm⟩ <;>
      simp [UnpackedFloat.compare, orderKey?, withSign, Prod.Lex.toLex_lt_toLex]
  | finite s m e hm =>
    cases s <;> rcases v with ⟨_ | _⟩ | _ | _ | ⟨_ | _, m', e', hm'⟩ <;>
      simp [UnpackedFloat.compare, compare_then_eq_lt, compare_then_eq_gt, orderKey?, withSign,
        Prod.Lex.toLex_lt_toLex]

/-- **Binary formats.** -/
theorem ranked_ieee {ρ : Type} [RealScalar ρ] [Ieee ρ] (M : Set ρ) :
    Ranked (fun a : ρ => view a = .notANumber) M where
  irrefl a _ _ hlt := by
    obtain ⟨s, hs, t, ht, hst⟩ := lt_iff_orderKey?.mp ((lt_iff a a).mp hlt)
    rw [Option.mem_unique hs ht] at hst
    exact lt_irrefl t hst
  trans a _ b _ c _ _ _ _ hab hbc := by
    obtain ⟨s, hs, t, ht, hst⟩ := lt_iff_orderKey?.mp ((lt_iff a b).mp hab)
    obtain ⟨t', ht', r, hr, htr⟩ := lt_iff_orderKey?.mp ((lt_iff b c).mp hbc)
    rw [Option.mem_unique ht' ht] at htr
    exact (lt_iff a c).mpr (lt_iff_orderKey?.mpr ⟨s, hs, r, hr, hst.trans htr⟩)
  total a _ b _ c _ _ _ huc hab := by
    obtain ⟨s, hs, t, ht, hst⟩ := lt_iff_orderKey?.mp ((lt_iff a b).mp hab)
    obtain ⟨r, hr⟩ := exists_orderKey? huc
    rcases lt_or_ge s r with hsr | hrs
    · exact Or.inl ((lt_iff a c).mpr (lt_iff_orderKey?.mpr ⟨s, hs, r, hr, hsr⟩))
    · exact Or.inr ((lt_iff c b).mpr (lt_iff_orderKey?.mpr ⟨r, hr, t, ht, hrs.trans_lt hst⟩))
  not_lt a _ b _ hu hlt := by
    obtain ⟨s, hs, t, ht, -⟩ := lt_iff_orderKey?.mp ((lt_iff a b).mp hlt)
    rcases hu with hu | hu
    · rw [hu] at hs
      cases hs
    · rw [hu] at ht
      cases ht

end Ieee

/-! ### Calls -/

section Calls
variable {α ρ : Type}

/-- The magnitudes of the elements of a window, one by one. -/
theorem exists_magnitudes [Scalar α ρ] {n : UInt64} {w : Window} {x : Buffer α}
    (h : w.Inside n.toNat x.cells.size) :
    ∃ m : ℕ → ρ, ∀ i < n.toNat, (x.get? (w.place n.toNat i)).map Scalar.abs1 = some (m i) ∧
      ((w.view n x).gather.map Scalar.abs1)[i]? = some (m i) := by
  have helem : ∀ i < n.toNat, ∃ a, x.get? (w.place n.toNat i) = some a := fun i hi =>
    Buffer.isSome_get? (h.place_lt hi)
  choose! f hf using helem
  refine ⟨fun i => Scalar.abs1 (f i), fun i hi => ⟨?_, ?_⟩⟩
  · rw [hf i hi, Option.map_some]
  · rw [List.getElem?_map, View.getElem?_gather (v := w.view n x) h hi]
    exact congrArg (Option.map Scalar.abs1) (hf i hi)

variable [RealScalar ρ] [Element α ρ]

/-- If there is an element, the position of the first maximum is found. -/
theorem UnaryOp.reply_iamax (plan : Schedule) {n : UInt64} {w : Window} {x : Buffer α}
    (h : w.Inside n.toNat x.cells.size) (hn : n ≠ 0) {undefined : ρ → Prop} {m : ℕ → ρ}
    (hr : Ranked undefined {a | ∃ i < n.toNat, m i = a})
    (hm : ∀ i < n.toNat, ((w.view n x).gather.map Scalar.abs1)[i]? = some (m i)) :
    ∃ k, UnaryOp.iamax.reply plan n w x = .index (some k) ∧
      FirstMaximum undefined m n.toNat k := by
  have hlength : ((w.view n x).gather.map Scalar.abs1 : List ρ).length = n.toNat := by
    rw [List.length_map]
    exact View.length_gather (v := w.view n x) h
  have hpos : 0 < n.toNat := Nat.pos_of_ne_zero fun h0 => hn (UInt64.toNat_inj.mp h0)
  rw [← hlength] at hpos hr hm
  obtain ⟨k, hk, hmax⟩ := exists_firstMaximum hr hpos fun i hi => ⟨hm i hi, i, hi, rfl⟩
  rw [hlength] at hmax
  refine ⟨k, ?_, hmax⟩
  unfold reply
  rw [if_neg hn]
  exact congrArg Answer.index hk

/-- **The position of the first maximum.** The call fails exactly with the errors of the resolver.
Otherwise it finds no position exactly if there is no element. If it finds one, no magnitude is
above that of the element there, and all before it are below or undefined. It is the first element
if its magnitude is undefined, or that of the first element is. -/
theorem first_maximum (plan : Schedule) (x : Buffer α) (opts : UnaryOptions) :
    ∃ o, UnaryOp.iamax.run plan x opts = some o ∧
      (∀ e, o.answer = .error e ↔ resolveUnary .inclusive x.len opts = some (.error e)) ∧
      ∀ n w, resolveUnary .inclusive x.len opts = some (.ok ⟨n, [w]⟩) →
        ∃ m : ℕ → ρ, (∀ i < n.toNat, (x.get? (w.place n.toNat i)).map Scalar.abs1 = some (m i)) ∧
          ∀ undefined, Ranked undefined {a | ∃ i < n.toNat, m i = a} →
            (o.answer = .ok (.index none) ↔ n = 0) ∧
            (n ≠ 0 → ∃ k, o.answer = .ok (.index (some k)) ∧
              FirstMaximum undefined m n.toNat k) := by
  have hs : Operation.iamax.row.supported.supports (Element.precision α) := by
    cases Element.precision α <;> decide
  obtain ⟨sel, hsel⟩ := exists_select hs
  obtain ⟨res, hres⟩ : ∃ res, resolveUnary .inclusive x.len opts = some res :=
    exists_resolve _ _ _
  cases res with
  | error e =>
    refine ⟨_, UnaryOp.run_of_refused plan hsel hres, fun e' => ?_, fun n w hres' => ?_⟩
    · simp [hres]
    · cases hres.symm.trans hres'
  | ok r =>
    obtain ⟨w, hr, hin⟩ := window_of_resolveUnary hres
    rw [hr] at hres
    refine ⟨_, UnaryOp.run_of_resolved plan hsel hres, fun e' => ?_, fun n w' hres' => ?_⟩
    · simp [hres, UnaryOp.outcome]
    cases hres.symm.trans hres'
    obtain ⟨m, hm⟩ := exists_magnitudes hin
    refine ⟨m, fun i hi => (hm i hi).1, fun undefined hranked => ?_⟩
    have hanswer : (UnaryOp.iamax.outcome plan sel r.n w x).answer =
        .ok (UnaryOp.iamax.reply plan r.n w x) := rfl
    rw [hanswer]
    by_cases h0 : r.n = 0
    · have hnone : UnaryOp.iamax.reply plan r.n w x = .index none := if_pos h0
      rw [hnone]
      exact ⟨iff_of_true rfl h0, fun hne => absurd h0 hne⟩
    · obtain ⟨k, hsome, hmax⟩ :=
        UnaryOp.reply_iamax plan hin h0 hranked fun i hi => (hm i hi).2
      rw [hsome]
      exact ⟨iff_of_false (by simp) h0, fun _ => ⟨k, rfl, hmax⟩⟩

/-- Read backwards, the numbers `1, NaN, 3, -3, 2` have their first maximum at element `1`. -/
theorem first_maximum_backwards :
    let _ : Element Float Float := Element.real .w64
    ∃ (x : Buffer Float) (o : Outcome (Buffer Float) Float Float),
      x.cells = #[Float.ofBits 0x3ff0000000000000, Float.ofBits 0x7ff8000000000000,
        Float.ofBits 0x4008000000000000, Float.ofBits 0xc008000000000000,
        Float.ofBits 0x4000000000000000] ∧
      UnaryOp.iamax.run .sequential x ⟨none, none, some (-1)⟩ = some o ∧
      o.answer = .ok (.index (some 1)) := by
  let _ : Element Float Float := Element.real .w64
  let x : Buffer Float := ⟨#[Float.ofBits 0x3ff0000000000000, Float.ofBits 0x7ff8000000000000,
    Float.ofBits 0x4008000000000000, Float.ofBits 0xc008000000000000,
    Float.ofBits 0x4000000000000000], by decide⟩
  obtain ⟨o, ho, -, hmax⟩ := first_maximum .sequential x ⟨none, none, some (-1)⟩
  refine ⟨x, o, rfl, ho, ?_⟩
  obtain ⟨m, hm, hfound⟩ := hmax 5 ⟨0, -1⟩ (by decide)
  obtain ⟨k, hk, hfirst⟩ := (hfound _ (ranked_ieee _)).2 (by decide)
  have h0 : Float.abs (Float.ofBits 0x4000000000000000) = m 0 := Option.some.inj (hm 0 (by decide))
  have h1 : Float.abs (Float.ofBits 0xc008000000000000) = m 1 := Option.some.inj (hm 1 (by decide))
  have h2 : Float.abs (Float.ofBits 0x4008000000000000) = m 2 := Option.some.inj (hm 2 (by decide))
  have h3 : Float.abs (Float.ofBits 0x7ff8000000000000) = m 3 := Option.some.inj (hm 3 (by decide))
  have h4 : Float.abs (Float.ofBits 0x3ff0000000000000) = m 4 := Option.some.inj (hm 4 (by decide))
  have hlt : k < 5 := hfirst.lt
  have hlargest := hfirst.largest 1 (by decide)
  obtain rfl | rfl | rfl | rfl | rfl : k = 0 ∨ k = 1 ∨ k = 2 ∨ k = 3 ∨ k = 4 := by omega
  · rw [← h0, ← h1] at hlargest
    exact absurd (by decide) hlargest
  · exact hk
  · have hfirst := hfirst.first 1 (by decide)
    rw [← h1, ← h2] at hfirst
    rcases hfirst with hlt | hu
    · exact absurd hlt (by decide)
    · cases hu
  · have hu : Ieee.view (m 3) = .notANumber := by
      rw [← h3]
      rfl
    exact absurd (hfirst.eq_zero_of_undefined hu) (by decide)
  · rw [← h4, ← h1] at hlargest
    exact absurd (by decide) hlargest

end Calls

end Strided
