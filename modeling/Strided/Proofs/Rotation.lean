import Strided.Proofs.Elementwise
import Strided.Proofs.Refusal

/-! # Rotating copies and rotating in place

A rotation and a modified rotation are each offered twice: one operation leaves the buffers of the
caller alone and returns rotated copies, the other one rotates the buffers. They have rows of their
own in the table, and their arguments are staged in different ways.

* `Paired`: two calls on the same buffers came out alike.
* `BinaryOp.Twins`: two operations with the same image of every pair and the same default length,
  the first of which copies.
* `BinaryOp.Twins.paired`: calls of twins come out alike.
* `rotation_variants`: the two rotations and the two modified rotations. -/

namespace Strided

variable {α ρ : Type}

/-- Two calls on the buffers `x` and `y` with the same options came out alike. The first leaves the
buffers as they are in any case. -/
inductive Paired (x y : Buffer α) (resolution : Option (Except Error Resolved))
    (copied inPlace : Outcome (Buffer α × Buffer α) α ρ) : Prop
  /-- Both fail with the error of the resolver, and nothing is changed. -/
  | refused (e : Error) (resolved : resolution = some (.error e))
      (answers : copied.answer = .error e ∧ inPlace.answer = .error e)
      (buffers : copied.buffers = (x, y) ∧ inPlace.buffers = (x, y))
  /-- Both succeed; what the first returns is what the second leaves in the buffers. -/
  | rotated (r : Resolved) (x' y' : Buffer α) (resolved : resolution = some (.ok r))
      (answers : copied.answer = .ok (.vectors [x', y']) ∧ inPlace.answer = .ok .done)
      (buffers : copied.buffers = (x, y) ∧ inPlace.buffers = (x', y'))

variable [RealScalar ρ] [Element α ρ]

namespace BinaryOp

/-- An operation that changes copies, and one that changes the buffers of the caller in the same
way. -/
structure Twins (op op' : BinaryOp α ρ) : Prop where
  copies : op.operation.copies = true
  inPlace : op'.operation.copies = false
  returns : op'.operation.row.returns = .unit
  rule : op'.operation.rule = op.operation.rule
  image : op'.image = op.image

theorem twins_rot (c s : ρ) : Twins (α := α) (rot c s) (rotInPlace c s) :=
  ⟨rfl, rfl, rfl, rfl, rfl⟩

theorem twins_rotm (p : Params ρ) : Twins (α := α) (rotm p) (rotmInPlace p) :=
  ⟨rfl, rfl, rfl, rfl, rfl⟩

theorem answer_of_unit (plan : Schedule) {op : BinaryOp α ρ} (sel : Selection) (n : UInt64)
    (wx wy : Window) (x y : Buffer α) (h : op.operation.row.returns = .unit) :
    (op.outcome plan sel n wx wy x y).answer = .ok .done := by
  refine congrArg Except.ok (Answer.eq_done_of_kind ?_)
  rw [← h]
  exact kind_answer plan op sel rfl

/-- The buffers after a kernel depend on the operation through the images of pairs alone. -/
theorem result_of_image {op op' : BinaryOp α ρ} (h : op'.image = op.image) (n : UInt64)
    (wx wy : Window) (x y : Buffer α) : op'.result n wx wy x y = op.result n wx wy x y := by
  unfold result
  rw [h]

/-- **Calls of twins come out alike.** -/
theorem Twins.paired {op op' : BinaryOp α ρ} (h : Twins op op') (plan : Schedule)
    (hs : op.operation.row.supported.supports (Element.precision α))
    (hs' : op'.operation.row.supported.supports (Element.precision α)) (x y : Buffer α)
    (opts : BinaryOptions) :
    ∃ o o', op.run plan x y opts = some o ∧ op'.run plan x y opts = some o' ∧
      Paired x y (resolveBinary op.operation.rule x.len y.len opts) o o' := by
  obtain ⟨sel, hsel⟩ := exists_select hs
  obtain ⟨sel', hsel'⟩ := exists_select hs'
  obtain ⟨res, hres⟩ : ∃ res, resolveBinary op.operation.rule x.len y.len opts = some res :=
    exists_resolve _ _ _
  have hres' := hres
  rw [← h.rule] at hres'
  cases res with
  | error e =>
    refine ⟨_, _, run_of_refused plan hsel hres, run_of_refused plan hsel' hres', ?_⟩
    exact .refused e hres ⟨rfl, rfl⟩ ⟨rfl, rfl⟩
  | ok r =>
    obtain ⟨wx, wy, hr, hx, hy⟩ := windows_of_resolveBinary hres
    have hbuffers := op.buffers_outcome plan sel hx hy
    have hbuffers' := op'.buffers_outcome plan sel' hx hy
    rw [h.copies] at hbuffers
    rw [h.inPlace, result_of_image h.image] at hbuffers'
    rw [hr] at hres hres'
    refine ⟨_, _, run_of_resolved plan hsel hres, run_of_resolved plan hsel' hres', ?_⟩
    refine .rotated _ _ _ hres ⟨?_, ?_⟩ ⟨hbuffers, hbuffers'⟩
    · exact answer_of_copies plan sel r.n wx wy x y h.copies
    · exact answer_of_unit plan sel' r.n wx wy x y h.returns

end BinaryOp

/-- **Rotating copies is rotating in place.** A rotation and its variant in place fail with the same
error or succeed together; what the one returns is what the other leaves in the buffers, cell by
cell, and the one leaves the buffers of the caller as they were. So do a modified rotation of real
vectors and its variant, which both use the exclusive default length. -/
theorem rotation_variants (plan : Schedule) (x y : Buffer α) (opts : BinaryOptions) :
    (∀ c s : ρ, ∃ o o', (BinaryOp.rot c s).run plan x y opts = some o ∧
      (BinaryOp.rotInPlace c s).run plan x y opts = some o' ∧
      Paired x y (resolveBinary .inclusive x.len y.len opts) o o') ∧
    ∀ w : Width, Element.precision α = w.real → ∀ p : Params ρ,
      ∃ o o', (BinaryOp.rotm p).run plan x y opts = some o ∧
        (BinaryOp.rotmInPlace p).run plan x y opts = some o' ∧
        Paired x y (resolveBinary .exclusive x.len y.len opts) o o' := by
  constructor
  · intro c s
    have hs : ∀ p : Precision, Operation.rot.row.supported.supports p ∧
        Operation.rotInPlace.row.supported.supports p := by
      intro p
      cases p <;> decide
    exact (BinaryOp.twins_rot c s).paired plan (hs _).1 (hs _).2 x y opts
  · intro w hw p
    have hs : Operation.rotm.row.supported.supports (Element.precision α) ∧
        Operation.rotmInPlace.row.supported.supports (Element.precision α) := by
      rw [hw]
      cases w <;> decide
    exact (BinaryOp.twins_rotm p).paired plan hs.1 hs.2 x y opts

/-- The default length of `x`, read backwards in steps of two from its second cell, is two for a
modified rotation, though a third element would fit. -/
theorem rotation_variants_exclusive :
    ∃ (x y : Buffer Float) (opts : BinaryOptions) (p : Params Float)
        (o o' : Outcome (Buffer Float × Buffer Float) _ _) (x' y' : Buffer Float),
      x.cells = #[1, 2, 3, 4, 5, 6] ∧ y.cells = #[7, 8, 9] ∧
      opts = ⟨none, ⟨some 1, some (-2)⟩, {}⟩ ∧ p = ⟨-1, 2, 3, 4, 5⟩ ∧
      resolveBinary .exclusive x.len y.len opts = some (.ok ⟨2, [⟨1, -2⟩, ⟨0, 1⟩]⟩) ∧
      (BinaryOp.rotm p).run .sequential x y opts = some o ∧
      (BinaryOp.rotmInPlace p).run .sequential x y opts = some o' ∧
      o.buffers = (x, y) ∧ o.answer = .ok (.vectors [x', y']) ∧ o'.buffers = (x', y') := by
  obtain ⟨o, o', ho, ho', hpair⟩ := (rotation_variants (α := Float) .sequential
    ⟨#[1, 2, 3, 4, 5, 6], by decide⟩ ⟨#[7, 8, 9], by decide⟩ ⟨none, ⟨some 1, some (-2)⟩, {}⟩).2
    .w64 rfl ⟨-1, 2, 3, 4, 5⟩
  cases hpair with
  | refused e hres => cases hres
  | rotated r x' y' hres ha hb =>
    exact ⟨_, _, _, _, o, o', x', y', rfl, rfl, rfl, rfl, rfl, ho, ho', hb.1, ha.1, hb.2⟩

end Strided
