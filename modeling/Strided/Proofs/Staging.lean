import Strided.Proofs.Refusal

/-! # Writing through staged storage

A kernel writes the cells of its staged storage one after the other. If the storage is the buffer of
the caller, every write reaches the caller at once; if it is a copy, none does. Which of the two it
is follows from the role that the table gives to the argument and from how the buffer was lent, and
no write changes it.

* `Buffer.written`: a buffer after writes in order; `get?_written`: the last write to a cell counts.
* `Staged.Holds`: what is true of staged storage after any writes.
* `Holds.write`, `Holds.writeAll`: one write keeps it, and so does every sequence.
* `isInPlace_ofBuffer`: where the storage is the buffer of the caller.
* `staged_as_declared`: every argument of the table. -/

namespace Strided

variable {α : Type}

/-! ### Writes in order -/

namespace Buffer

/-- The buffer after writes in order. -/
def written (b : Buffer α) (writes : List (ℕ × α)) : Buffer α :=
  writes.foldl (fun b w => b.write w.1 w.2) b

@[simp] theorem written_concat (b : Buffer α) (writes : List (ℕ × α)) (w : ℕ × α) :
    b.written (writes ++ [w]) = (b.written writes).write w.1 w.2 := by
  simp [written]

@[simp] theorem size_written (b : Buffer α) (writes : List (ℕ × α)) :
    (b.written writes).cells.size = b.cells.size := by
  induction writes using List.reverseRecOn with
  | nil => rfl
  | append_singleton writes w ih => simp [ih]

/-- **The last write to a cell counts**, and a cell that is not written keeps its content. -/
theorem get?_written (b : Buffer α) {writes : List (ℕ × α)}
    (h : ∀ w ∈ writes, w.1 < b.cells.size) (j : ℕ) :
    (b.written writes).get? j = (writes.reverse.lookup j).or (b.get? j) := by
  induction writes using List.reverseRecOn with
  | nil => rfl
  | append_singleton writes w ih =>
    have ih := ih fun v hv => h v (by simp [hv])
    have hw := h w (by simp)
    rw [written_concat, List.reverse_concat, List.lookup_cons]
    by_cases hj : j = w.1
    · subst hj
      rw [get?_write_self (by simpa using hw)]
      simp
    · rw [get?_write_of_ne _ (Ne.symm hj), ih, beq_eq_false_iff_ne.mpr hj]

end Buffer

/-! ### Staged storage after writes -/

namespace Staged

/-- Staged storage for a buffer that was lent, after writes in order: its values are the buffer with
the writes, and the buffer of the caller is the same as its values or is as it was lent. -/
structure Holds (lent : Buffer α) (inPlace : Bool) (writes : List (ℕ × α)) (s : Staged α) :
    Prop where
  values_eq : s.values = lent.written writes
  isInPlace_eq : s.isInPlace = inPlace
  caller_eq : s.caller = if inPlace then s.values else lent

section Holds
variable {lent : Buffer α} {inPlace : Bool} {writes : List (ℕ × α)} {s : Staged α}

theorem holds_ofBuffer (role : Role) (lending : Lending) (lent : Buffer α) :
    Holds lent (ofBuffer role lending lent).isInPlace [] (ofBuffer role lending lent) where
  values_eq := values_ofBuffer role lending lent
  isInPlace_eq := rfl
  caller_eq := by simp

theorem Holds.put (h : Holds lent inPlace writes s) {writes' : List (ℕ × α)} :
    Holds lent inPlace writes' (s.put (lent.written writes')) := by
  obtain ⟨-, hplace, hcaller⟩ := h
  refine ⟨values_put _ _, (isInPlace_put _ _).trans hplace, ?_⟩
  cases s with
  | inPlace b =>
    subst hplace
    rfl
  | copied b c =>
    subst hplace
    exact hcaller

/-- **One write** in range has a result and goes to the end of the sequence. -/
theorem Holds.write (h : Holds lent inPlace writes s) {i : ℕ} (hi : i < lent.cells.size) (a : α) :
    ∃ t, s.write? i a = some t ∧ Holds lent inPlace (writes ++ [(i, a)]) t := by
  refine ⟨s.put (lent.written (writes ++ [(i, a)])), ?_, h.put⟩
  unfold write?
  rw [h.values_eq, Buffer.set?_eq_write (by simpa using hi), Buffer.written_concat]
  rfl

/-- **Every sequence of writes** in range has a result. -/
theorem Holds.writeAll : ∀ {more writes : List (ℕ × α)} {s : Staged α},
    Holds lent inPlace writes s → (∀ w ∈ more, w.1 < lent.cells.size) →
      ∃ t, s.writeAll? more = some t ∧ Holds lent inPlace (writes ++ more) t
  | [], writes, s, h, _ => ⟨s, rfl, by rwa [List.append_nil]⟩
  | w :: more, writes, s, h, hw => by
    obtain ⟨t, ht, hone⟩ := h.write (hw w (by simp)) w.2
    have hmore : ∀ v ∈ more, v.1 < lent.cells.size := fun v hv => hw v (by simp [hv])
    obtain ⟨u, hu, hall⟩ := hone.writeAll hmore
    refine ⟨u, ?_, by simpa using hall⟩
    unfold writeAll? at hu ⊢
    rw [List.foldlM_cons, ht]
    exact hu

end Holds

/-- **Where storage is the buffer of the caller.** -/
theorem isInPlace_ofBuffer (role : Role) (lending : Lending) (b : Buffer α) :
    (ofBuffer role lending b).isInPlace ↔ lending = .exclusive ∧ role ≠ .copyThenReturn := by
  cases role <;> cases lending <;> simp [ofBuffer, isInPlace]

end Staged

/-! ### The arguments of the table -/

theorem Operation.exists_role {op : Operation} {k : ℕ} (hk : k < op.row.args.length) :
    ∃ role, op.role? k = some role :=
  ⟨_, by rw [role?, List.getElem?_eq_getElem hk, Option.map_some]⟩

/-- **Staged storage is the buffer of the caller or a copy, as the table says.** Every argument of
an operation with a kernel for the precision can be staged, however the buffer is lent, and every
sequence of writes in range succeeds. The staged values are then the buffer with the writes in
order, so that in each cell the last write counts. The storage is in place exactly if the buffer was
lent for writing and its argument is not one that is copied and returned, before the writes and
after them; and the buffer of the caller then is what the staged values are, and is otherwise as it
was. -/
theorem staged_as_declared {op : Operation} {p : Precision} (hp : op.row.supported.supports p)
    {k : ℕ} (hk : k < op.row.args.length) (lending : Lending) (buffer : Buffer α)
    {writes : List (ℕ × α)} (hw : ∀ w ∈ writes, w.1 < buffer.cells.size) :
    ∃ sel role s t, select op p = .ok sel ∧ op.role? k = some role ∧
      sel.stage? k lending buffer = some s ∧ s.writeAll? writes = some t ∧
      t.values = buffer.written writes ∧
      (∀ j, t.values.get? j = (writes.reverse.lookup j).or (buffer.get? j)) ∧
      (s.isInPlace ↔ lending = .exclusive ∧ role ≠ .copyThenReturn) ∧
      t.isInPlace = s.isInPlace ∧ t.caller = if t.isInPlace then t.values else buffer := by
  obtain ⟨sel, hsel⟩ := exists_select hp
  obtain ⟨role, hrole⟩ := op.exists_role hk
  have hstage : sel.stage? k lending buffer = some (Staged.ofBuffer role lending buffer) :=
    Selection.stage?_eq (by rw [operation_of_select hsel]; exact hrole) lending buffer
  obtain ⟨t, ht, hholds⟩ := (Staged.holds_ofBuffer role lending buffer).writeAll hw
  rw [List.nil_append] at hholds
  refine ⟨sel, role, _, t, hsel, hrole, hstage, ht, hholds.values_eq, fun j => ?_,
    Staged.isInPlace_ofBuffer role lending buffer, hholds.isInPlace_eq, ?_⟩
  · rw [hholds.values_eq, buffer.get?_written hw]
  · rw [hholds.isInPlace_eq]
    exact hholds.caller_eq

/-- Three writes, two of them to one cell: a rotation works on a copy also of a buffer that is lent
for writing, and a swap does not. -/
theorem staged_as_declared_of_two_operations :
    ∃ (b : Buffer Float) (writes : List (ℕ × Float)) (sel sel' : Selection)
        (s s' t t' : Staged Float),
      b.cells = #[1, 2] ∧ writes = [(0, 9), (1, 7), (0, 4)] ∧
      select .rot .real64 = .ok sel ∧ sel.stage? 0 .exclusive b = some s ∧
      s.writeAll? writes = some t ∧ t.values.cells = #[4, 7] ∧ t.caller.cells = #[1, 2] ∧
      select .swap .real32 = .ok sel' ∧ sel'.stage? 1 .exclusive b = some s' ∧
      s'.writeAll? writes = some t' ∧ t'.values.cells = #[4, 7] ∧ t'.caller.cells = #[4, 7] := by
  let b : Buffer Float := ⟨#[1, 2], by decide⟩
  let writes : List (ℕ × Float) := [(0, 9), (1, 7), (0, 4)]
  have hw : ∀ w ∈ writes, w.1 < b.cells.size := by
    simp [writes, b]
  have hrot : Operation.rot.row.supported.supports .real64 := by decide
  have hswap : Operation.swap.row.supported.supports .real32 := by decide
  obtain ⟨sel, role, s, t, hsel, hrole, hs, ht, hvalues, -, hplace, hkept, hcaller⟩ :=
    staged_as_declared hrot (show 0 < Operation.rot.row.args.length by decide) .exclusive b hw
  obtain ⟨sel', role', s', t', hsel', hrole', hs', ht', hvalues', -, hplace', hkept', hcaller'⟩ :=
    staged_as_declared hswap (show 1 < Operation.swap.row.args.length by decide) .exclusive b hw
  cases hrole
  cases hrole'
  have hcopy : t.isInPlace = false := by simpa [hkept] using hplace
  have hsame : t'.isInPlace = true := by simpa [hkept'] using hplace'
  refine ⟨b, writes, sel, sel', s, s', t, t', rfl, rfl, hsel, hs, ht, ?_, ?_, hsel', hs', ht', ?_,
    ?_⟩
  · rw [hvalues]; rfl
  · rw [hcaller, hcopy]; rfl
  · rw [hvalues']; rfl
  · rw [hcaller', hsame, if_pos rfl, hvalues']; rfl

end Strided
