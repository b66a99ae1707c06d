import Strided.Proofs.Outcome

/-! # Which error is reported

Several operands of a call may be wrong at once, and each in several ways, but one error is
reported. An operand with a zero increment or an offset outside its buffer comes before every window
that is too long; among operands of one kind the first in order comes first; and of one operand the
increment comes before the offset.

* `First`: the first entry of a list with a property.
* `Operand.window_eq_error_iff`, `Operand.fits_iff_not_short`: the checks of one operand.
* `mapM_window_eq_error_iff`, `checkExtents_eq_error_iff`: the two passes over the operands.
* `resolve_eq_error_iff`: the resolver reports exactly the error that is `Due`.
* `error_priority`: so does every operation that has a kernel. -/

namespace Strided

/-! ### The first entry with a property -/

/-- The entry `b` is the first one of a list that satisfies `P`. -/
def First {β : Type} (P : β → Prop) (l : List β) (b : β) : Prop :=
  ∃ before after, l = before ++ b :: after ∧ (∀ c ∈ before, ¬ P c) ∧ P b

section First
variable {β : Type} {P : β → Prop} {l : List β} {a b : β}

theorem not_first_nil : ¬ First P [] b := by
  rintro ⟨before, after, h, -⟩
  simp at h

theorem first_cons_of_pos (ha : P a) : First P (a :: l) b ↔ b = a := by
  constructor
  · rintro ⟨before, after, h, hbefore, -⟩
    rcases before with _ | ⟨c, before⟩
    · simp only [List.nil_append, List.cons.injEq] at h
      exact h.1.symm
    · simp only [List.cons_append, List.cons.injEq] at h
      exact absurd (h.1 ▸ ha) (hbefore c (by simp))
  · rintro rfl
    exact ⟨[], l, rfl, by simp, ha⟩

theorem first_cons_of_neg (ha : ¬ P a) : First P (a :: l) b ↔ First P l b := by
  constructor
  · rintro ⟨before, after, h, hbefore, hb⟩
    rcases before with _ | ⟨c, before⟩
    · simp only [List.nil_append, List.cons.injEq] at h
      exact absurd (h.1 ▸ hb) ha
    · simp only [List.cons_append, List.cons.injEq] at h
      exact ⟨before, after, h.2, fun d hd => hbefore d (by simp [hd]), hb⟩
  · rintro ⟨before, after, rfl, hbefore, hb⟩
    refine ⟨a :: before, after, rfl, ?_, hb⟩
    intro c hc
    rcases List.mem_cons.mp hc with rfl | hc
    · exact ha
    · exact hbefore c hc

end First

/-! ### One operand -/

theorem checkIncrement_eq_error_iff {arg : String} {inc : Option Int64} {e : Error} :
    checkIncrement arg inc = .error e ↔ inc.getD 1 = 0 ∧ e = .invalidStride arg := by
  unfold checkIncrement
  split_ifs with h
  · simp [h, eq_comm]
  · simp [h]

theorem checkOffset_eq_error {arg : String} {offset : Option Int64} {len : UInt64} {e : Error}
    (h : checkOffset arg offset len = .error e) :
    e = .invalidOffset arg (offset.getD 0) len := by
  unfold checkOffset at h
  split at h
  · cases h
  · cases h
    rfl

theorem bind_eq_error_iff {ε β γ : Type} {x : Except ε β} {f : β → Except ε γ} {e : ε} :
    x >>= f = .error e ↔ x = .error e ∨ ∃ b, x = .ok b ∧ f b = .error e := by
  cases x <;> simp [bind, Except.bind]

namespace Operand

/-- The error of an operand that is not valid. -/
def defect (o : Operand) : Error :=
  if o.increment = 0 then .invalidStride o.name
  else .invalidOffset o.name (o.opts.offset.getD 0) o.len

/-- The last of `n` elements would lie past the end of the buffer. -/
def Short (n : ℤ) (o : Operand) : Prop := o.len.toNat ≤ o.start + (n - 1) * |o.increment|

theorem exists_window_iff {o : Operand} : (∃ w, o.window = .ok w) ↔ o.Valid :=
  ⟨fun ⟨_, h⟩ => (window_eq_ok_iff.mp h).1, Valid.exists_window⟩

theorem eq_defect_of_window {o : Operand} {e : Error} (h : o.window = .error e) : e = o.defect := by
  unfold window at h
  unfold defect increment
  rcases bind_eq_error_iff.mp h with h | ⟨i, hi, h⟩
  · obtain ⟨hinc, rfl⟩ := checkIncrement_eq_error_iff.mp h
    rw [if_pos (toInt_eq_zero_iff.mpr hinc)]
  · have hinc := (checkIncrement_eq_ok_iff.mp hi).1
    rw [if_neg fun h0 => hinc (toInt_eq_zero_iff.mp h0)]
    rcases bind_eq_error_iff.mp h with h | ⟨c, -, h⟩
    · exact checkOffset_eq_error h
    · cases h

/-- **The error of one operand.** -/
theorem window_eq_error_iff {o : Operand} {e : Error} :
    o.window = .error e ↔ ¬ o.Valid ∧ e = o.defect := by
  constructor
  · intro h
    refine ⟨fun hv => ?_, eq_defect_of_window h⟩
    obtain ⟨w, hw⟩ := hv.exists_window
    rw [hw] at h
    cases h
  · rintro ⟨hv, rfl⟩
    cases h : o.window with
    | error e => rw [eq_defect_of_window h]
    | ok w => exact absurd (exists_window_iff.mp ⟨w, h⟩) hv

theorem Asks.unique {o : Operand} {w w' : Window} (h : o.Asks w) (h' : o.Asks w') : w = w' := by
  obtain ⟨offset, inc⟩ := w
  obtain ⟨offset', inc'⟩ := w'
  have hoff := h.offset.trans h'.offset.symm
  have hinc := h.inc.trans h'.inc.symm
  simp only at hoff hinc
  rw [Window.mk.injEq, ← UInt64.toNat_inj, ← Int64.toInt_inj]
  exact ⟨by omega, hinc⟩

/-- The check of the extent, in the integers. No element fits every valid operand, for its offset
alone lies inside the buffer. -/
theorem fits_iff_not_short {o : Operand} {w : Window} (hv : o.Valid) (ha : o.Asks w) (n : UInt64) :
    w.fits n o.len ↔ ¬ o.Short n.toNat := by
  rw [Window.fits_iff]
  unfold Short
  have hlt := hv.start_lt
  have habs := abs_nonneg o.increment
  rcases Nat.eq_zero_or_pos n.toNat with h0 | hpos
  · have hspan : ((n.toNat : ℤ) - 1) * |o.increment| = -|o.increment| := by simp [h0]
    omega
  · have hlast := ha.last_eq hpos.ne'
    omega

end Operand

/-! ### The two passes -/

theorem mapM_window_eq_error_iff {e : Error} : ∀ {operands : List Operand},
    operands.mapM Operand.window = .error e ↔
      ∃ o, First (fun p => ¬ p.Valid) operands o ∧ e = o.defect
  | [] => by simp [not_first_nil, pure, Except.pure]
  | o :: operands => by
    have ih := @mapM_window_eq_error_iff e operands
    rw [List.mapM_cons, bind_eq_error_iff]
    by_cases hv : o.Valid
    · obtain ⟨w, hw⟩ := hv.exists_window
      simp only [first_cons_of_neg (P := fun p : Operand => ¬ p.Valid) (not_not.mpr hv)]
      rw [← ih, hw]
      constructor
      · rintro (h | ⟨_, -, h⟩)
        · cases h
        · rcases bind_eq_error_iff.mp h with h | ⟨_, -, h⟩
          · exact h
          · cases h
      · intro h
        exact Or.inr ⟨w, rfl, bind_eq_error_iff.mpr (Or.inl h)⟩
    · simp only [first_cons_of_pos (P := fun p : Operand => ¬ p.Valid) hv, exists_eq_left]
      constructor
      · rintro (h | ⟨w, hw, -⟩)
        · exact Operand.eq_defect_of_window h
        · exact absurd (Operand.exists_window_iff.mp ⟨w, hw⟩) hv
      · intro h
        exact Or.inl (Operand.window_eq_error_iff.mpr ⟨hv, h⟩)

theorem checkExtents_eq_error_iff {n : UInt64} {e : Error} {operands : List Operand}
    {windows : List Window}
    (h : List.Forall₂ (fun o w => o.Valid ∧ o.Asks w) operands windows) :
    checkExtents n operands windows = .error e ↔
      ∃ o w, First (Operand.Short n.toNat) operands o ∧ o.Asks w ∧
        e = .vectorTooShort o.name n w.offset w.inc o.len := by
  induction h with
  | nil => simp [not_first_nil, checkExtents, pure, Except.pure]
  | @cons o w operands windows how _ ih =>
    obtain ⟨hv, ha⟩ := how
    have hcons : checkExtents n (o :: operands) (w :: windows) =
        w.checkExtent o.name n o.len >>= fun _ => checkExtents n operands windows := rfl
    have hfits := Operand.fits_iff_not_short hv ha n
    rw [hcons]
    unfold Window.checkExtent
    by_cases hs : o.Short n.toNat
    · rw [if_neg fun hf => hfits.mp hf hs]
      simp only [first_cons_of_pos hs, exists_and_left, exists_eq_left]
      constructor
      · intro he
        cases he
        exact ⟨w, ha, rfl⟩
      · rintro ⟨w', ha', rfl⟩
        rw [ha'.unique ha]
        rfl
    · rw [if_pos (hfits.mpr hs)]
      simp only [first_cons_of_neg hs]
      exact ih

/-! ### The resolver -/

/-- The error that is due for a list of operands. -/
inductive Due (rule : LengthRule) (n : Option UInt64) (operands : List Operand) : Error → Prop
  /-- The first operand that is not valid, however long the windows of the operands are. -/
  | invalid {o : Operand} (first : First (fun p => ¬ p.Valid) operands o) :
      Due rule n operands o.defect
  /-- If all operands are valid, the first one that is too short for the common length. -/
  | short {o : Operand} {m : UInt64} {w : Window} (valid : ∀ p ∈ operands, p.Valid)
      (first : First (Operand.Short (exactLength rule n operands)) operands o)
      (length : (m.toNat : ℤ) = exactLength rule n operands) (asks : o.Asks w) :
      Due rule n operands (.vectorTooShort o.name m w.offset w.inc o.len)

theorem valid_of_forall₂ {operands : List Operand} {windows : List Window}
    (h : List.Forall₂ (fun o w => o.Valid ∧ o.Asks w) operands windows) :
    ∀ p ∈ operands, p.Valid := by
  induction h with
  | nil => simp
  | cons how _ ih =>
    intro p hp
    rcases List.mem_cons.mp hp with rfl | hp
    · exact how.1
    · exact ih p hp

/-- **The resolver reports the error that is due**, and fails only if one is. -/
theorem resolve_eq_error_iff {rule : LengthRule} {n : Option UInt64} {operands : List Operand}
    {e : Error} : resolve rule n operands = some (.error e) ↔ Due rule n operands e := by
  unfold resolve
  constructor
  · intro h
    split at h
    next e' hw =>
      cases h
      obtain ⟨o, hfirst, rfl⟩ := mapM_window_eq_error_iff.mp hw
      exact .invalid hfirst
    next windows hw =>
      have hws := mapM_window_eq_ok_iff.mp hw
      obtain ⟨m, hm, hexact⟩ := commonLength?_eq rule n hws
      rw [hm] at h
      simp only at h
      split at h
      next e' he =>
        cases h
        obtain ⟨o, w, hfirst, ha, rfl⟩ := (checkExtents_eq_error_iff hws).mp he
        rw [hexact] at hfirst
        exact .short (valid_of_forall₂ hws) hfirst hexact ha
      next => cases h
  · rintro (⟨hfirst⟩ | ⟨hvalid, hfirst, hm, ha⟩)
    · rw [mapM_window_eq_error_iff.mpr ⟨_, hfirst, rfl⟩]
    · obtain ⟨windows, hws⟩ := exists_windows hvalid
      obtain ⟨m', hm', hexact⟩ := commonLength?_eq rule n hws
      obtain rfl := UInt64.toNat_inj.mp (Int.ofNat.inj (hm.trans hexact.symm))
      rw [← hm] at hfirst
      rw [mapM_window_eq_ok_iff.mpr hws]
      simp only [hm', (checkExtents_eq_error_iff hws).mpr ⟨_, _, hfirst, ha, rfl⟩]

/-! ### Operations -/

theorem exists_select {op : Operation} {p : Precision} (h : op.row.supported.supports p) :
    ∃ sel, select op p = .ok sel := by
  rw [Row.supported, PrecisionSet.supports_filter] at h
  obtain ⟨kernel, hk⟩ := Option.isSome_iff_exists.mp h
  unfold select
  rw [hk]
  exact ⟨_, rfl⟩

variable {α ρ : Type} [RealScalar ρ] [Element α ρ]

theorem UnaryOp.answer_eq_error_iff (plan : Schedule) {op : UnaryOp α ρ} (x : Buffer α)
    (opts : UnaryOptions) (h : op.operation.row.supported.supports (Element.precision α)) :
    ∃ o, op.run plan x opts = some o ∧ ∀ e, o.answer = .error e ↔
      resolveUnary op.operation.rule x.len opts = some (.error e) := by
  obtain ⟨sel, hsel⟩ := exists_select h
  obtain ⟨res, hres⟩ : ∃ res, resolveUnary op.operation.rule x.len opts = some res :=
    exists_resolve _ _ _
  cases res with
  | error e => exact ⟨_, run_of_refused plan hsel hres, fun e' => by simp [hres]⟩
  | ok r =>
    obtain ⟨w, hr, -⟩ := window_of_resolveUnary hres
    rw [hr] at hres
    exact ⟨_, run_of_resolved plan hsel hres, fun e' => by simp [hres, outcome]⟩

theorem BinaryOp.answer_eq_error_iff (plan : Schedule) {op : BinaryOp α ρ} (x y : Buffer α)
    (opts : BinaryOptions) (h : op.operation.row.supported.supports (Element.precision α)) :
    ∃ o, op.run plan x y opts = some o ∧ ∀ e, o.answer = .error e ↔
      resolveBinary op.operation.rule x.len y.len opts = some (.error e) := by
  obtain ⟨sel, hsel⟩ := exists_select h
  obtain ⟨res, hres⟩ : ∃ res, resolveBinary op.operation.rule x.len y.len opts = some res :=
    exists_resolve _ _ _
  cases res with
  | error e => exact ⟨_, run_of_refused plan hsel hres, fun e' => by simp [hres]⟩
  | ok r =>
    obtain ⟨wx, wy, hr, -⟩ := windows_of_resolveBinary hres
    rw [hr] at hres
    exact ⟨_, run_of_resolved plan hsel hres, fun e' => by simp [hres, outcome]⟩

/-- **Errors have a fixed priority.** The resolver reports the error that is due and no other, and
an operation with a kernel for the precision fails exactly with the error of its resolver. -/
theorem error_priority (plan : Schedule) :
    (∀ (rule : LengthRule) (n : Option UInt64) (operands : List Operand) (e : Error),
      resolve rule n operands = some (.error e) ↔ Due rule n operands e) ∧
    (∀ (op : UnaryOp α ρ) (x : Buffer α) (opts : UnaryOptions),
      op.operation.row.supported.supports (Element.precision α) →
        ∃ o, op.run plan x opts = some o ∧ ∀ e, o.answer = .error e ↔
          resolveUnary op.operation.rule x.len opts = some (.error e)) ∧
    ∀ (op : BinaryOp α ρ) (x y : Buffer α) (opts : BinaryOptions),
      op.operation.row.supported.supports (Element.precision α) →
        ∃ o, op.run plan x y opts = some o ∧ ∀ e, o.answer = .error e ↔
          resolveBinary op.operation.rule x.len y.len opts = some (.error e) :=
  ⟨fun _ _ _ _ => resolve_eq_error_iff, fun _ x opts h => UnaryOp.answer_eq_error_iff plan x opts h,
    fun _ x y opts h => BinaryOp.answer_eq_error_iff plan x y opts h⟩

/-- The vector `x` is too short, and `y` has a zero increment and an offset past its end: the zero
increment is reported. -/
theorem error_priority_of_three_defects :
    ∃ (x y : Buffer Float) (opts : BinaryOptions) (o : Outcome (Buffer Float × Buffer Float) _ _),
      x.cells = #[1, 2] ∧ y.cells = #[3] ∧ opts = ⟨some 9, {}, ⟨some 7, some 0⟩⟩ ∧
      BinaryOp.swap.run .sequential x y opts = some o ∧
      o.answer = .error (.invalidStride "y") ∧
      Due .inclusive opts.n (binaryOperands x.len y.len opts) (.invalidStride "y") := by
  obtain ⟨hresolve, -, hrun⟩ := error_priority (α := Float) .sequential
  obtain ⟨o, ho, hanswer⟩ := hrun .swap ⟨#[1, 2], by decide⟩ ⟨#[3], by decide⟩
    ⟨some 9, {}, ⟨some 7, some 0⟩⟩ (by decide)
  exact ⟨_, _, _, o, rfl, rfl, rfl, ho, (hanswer _).mpr rfl, (hresolve _ _ _ _).mp rfl⟩

end Strided
