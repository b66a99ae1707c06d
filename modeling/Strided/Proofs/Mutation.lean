import Strided.Proofs.Outcome
import Strided.Store

/-! # What calls change

The row of an operation gives each argument a role, and an operation lends an argument for writing
exactly if the role is to read and write. A call changes the buffer of an argument only if it has
this role, the call succeeds, and there is an element; it never changes the number of cells. So in a
program there are calls that might as well not be there: those that fail, those without elements, and
those whose row changes no buffer of the caller.

Each call of a program has a schedule of its own for its sums.

* `Kept`: what a call may have done to one argument.
* `UnaryOp.kept`, `BinaryOp.kept`: one call.
* `buffers_of_idle`: a call that might be left out gives the store back as it was.
* `runAll_of_thinned`: leaving out such calls changes nothing in the rest of a program.
* `runAll_reschedule`: other schedules of the same calls do not change the stores.
* `mutation_policy`: all together. -/

namespace Strided

variable {α ρ : Type}

/-! ### One argument -/

theorem Passing.role_eq_readWrite_iff {passing : Passing} :
    passing.role = .readWrite ↔ passing = .staged .exclusive := by
  obtain _ | _ | _ := passing <;> simp [Passing.role]

/-- A call of `op` that was resolved and answered in this way may have turned the buffer `b` of
argument `k` into `b'`. -/
structure Kept (op : Operation) (k : ℕ) (resolution : Option (Except Error Resolved))
    (answer : Except Error (Answer α ρ)) (b b' : Buffer α) : Prop where
  size : b'.cells.size = b.cells.size
  changed : b' ≠ b → op.role? k = some .readWrite ∧ (∃ a, answer = .ok a) ∧
    ∃ r, resolution = some (.ok r) ∧ 0 < r.n

theorem Kept.refl (op : Operation) (k : ℕ) (resolution : Option (Except Error Resolved))
    (answer : Except Error (Answer α ρ)) (b : Buffer α) : Kept op k resolution answer b b :=
  ⟨rfl, fun h => absurd rfl h⟩

theorem Kept.of_role (op : Operation) (k : ℕ) {r : Resolved} {a : Answer α ρ} {b c : Buffer α}
    (hsize : c.cells.size = b.cells.size) (hzero : r.n = 0 → c = b) :
    Kept op k (some (.ok r)) (.ok a) b (if op.role? k = some .readWrite then c else b) := by
  split_ifs with hrole
  · refine ⟨hsize, fun hne => ⟨hrole, ⟨a, rfl⟩, r, rfl, ?_⟩⟩
    exact UInt64.pos_iff_ne_zero.mpr fun h => hne (hzero h)
  · exact Kept.refl ..

/-- A row that is not in place has no argument to read and write. -/
theorem role?_ne_of_mutation {op : Operation} (h : op.row.mutation ≠ .inPlace) (k : ℕ) :
    op.role? k ≠ some .readWrite := by
  have hall : ∀ a ∈ op.row.args, a.role ≠ .readWrite := by
    revert h
    cases op <;> decide
  intro hk
  obtain ⟨a, ha, hrole⟩ := Option.map_eq_some_iff.mp hk
  exact hall a (List.mem_of_getElem? ha) hrole

/-- A call of `op` that was resolved and answered in this way failed, or had no element, or changes
no buffer of the caller by its row. -/
def Idle (op : Operation) (resolution : Option (Except Error Resolved))
    (answer : Except Error (Answer α ρ)) : Prop :=
  (∃ e, answer = .error e) ∨ (∃ r, resolution = some (.ok r) ∧ r.n = 0) ∨
    op.row.mutation = .untouched ∨ op.row.mutation = .copyThenReturn

theorem Kept.eq_of_idle {op : Operation} {k : ℕ} {resolution : Option (Except Error Resolved)}
    {answer : Except Error (Answer α ρ)} {b b' : Buffer α}
    (h : Kept op k resolution answer b b') (hidle : Idle op resolution answer) : b' = b := by
  by_contra hne
  obtain ⟨hrole, ⟨a, ha⟩, r, hr, hpos⟩ := h.changed hne
  obtain ⟨e, he⟩ | ⟨r', hr', hzero⟩ | hm | hm := hidle
  · rw [ha] at he
    cases he
  · rw [hr] at hr'
    cases hr'
    exact UInt64.pos_iff_ne_zero.mp hpos hzero
  · exact role?_ne_of_mutation (by rw [hm]; decide) k hrole
  · exact role?_ne_of_mutation (by rw [hm]; decide) k hrole

variable [RealScalar ρ] [Element α ρ]

/-! ### One call -/

namespace UnaryOp

omit [RealScalar ρ] in
theorem size_result (op : UnaryOp α ρ) (n : UInt64) (w : Window) (x : Buffer α) :
    (op.result n w x).cells.size = x.cells.size :=
  (View.alike_scatter (w.view n x) _).size

omit [RealScalar ρ] in
theorem result_zero (op : UnaryOp α ρ) (w : Window) (x : Buffer α) : op.result 0 w x = x :=
  congrArg View.buffer (View.mapElements_of_n_eq_zero rfl op.image)

theorem kept {plan : Schedule} {op : UnaryOp α ρ} {x : Buffer α} {opts : UnaryOptions}
    {o : Outcome (Buffer α) α ρ} (h : op.run plan x opts = some o) :
    Kept op.operation 0 (resolveUnary op.operation.rule x.len opts) o.answer x o.buffers := by
  obtain ⟨e, -, h'⟩ | ⟨sel, e, -, -, h'⟩ | ⟨sel, n, w, -, hres, -, h'⟩ := op.run_cases plan x opts
  · cases h.symm.trans h'
    exact Kept.refl ..
  · cases h.symm.trans h'
    exact Kept.refl ..
  · cases h.symm.trans h'
    rw [hres]
    refine Kept.of_role op.operation 0 (op.size_result n w x) ?_
    rintro rfl
    exact op.result_zero w x

end UnaryOp

namespace BinaryOp

theorem size_result (op : BinaryOp α ρ) (n : UInt64) (wx wy : Window) (x y : Buffer α) :
    (op.result n wx wy x y).1.cells.size = x.cells.size ∧
      (op.result n wx wy x y).2.cells.size = y.cells.size :=
  ⟨(View.alike_scatter (wx.view n x) _).size, (View.alike_scatter (wy.view n y) _).size⟩

theorem result_zero (op : BinaryOp α ρ) (wx wy : Window) (x y : Buffer α) :
    op.result 0 wx wy x y = (x, y) := by
  unfold result
  rw [View.mapPairs_of_n_eq_zero rfl]
  rfl

theorem kept {plan : Schedule} {op : BinaryOp α ρ} {x y : Buffer α} {opts : BinaryOptions}
    {o : Outcome (Buffer α × Buffer α) α ρ} (h : op.run plan x y opts = some o) :
    Kept op.operation 0 (resolveBinary op.operation.rule x.len y.len opts) o.answer x
        o.buffers.1 ∧
      Kept op.operation 1 (resolveBinary op.operation.rule x.len y.len opts) o.answer y
        o.buffers.2 := by
  obtain ⟨e, -, h'⟩ | ⟨sel, e, -, -, h'⟩ | ⟨sel, n, wx, wy, -, hres, -, -, h'⟩ :=
    op.run_cases plan x y opts
  · cases h.symm.trans h'
    exact ⟨Kept.refl .., Kept.refl ..⟩
  · cases h.symm.trans h'
    exact ⟨Kept.refl .., Kept.refl ..⟩
  · cases h.symm.trans h'
    obtain ⟨hx, hy⟩ := op.size_result n wx wy x y
    rw [hres]
    constructor
    · refine Kept.of_role op.operation 0 hx ?_
      rintro rfl
      rw [result_zero]
    · refine Kept.of_role op.operation 1 hy ?_
      rintro rfl
      rw [result_zero]

end BinaryOp

/-! ### Programs -/

/-- Putting back what is there changes nothing. -/
theorem put_of_get? : ∀ {s : Store α} {name : String} {b : Buffer α},
    s.get? name = some b → s.put name b = s
  | [], _, _, h => by cases h
  | (k, v) :: s, name, b, h => by
    unfold Store.get? at h
    rw [List.lookup_cons] at h
    unfold Store.put
    split_ifs with hk
    · subst hk
      simp only [beq_self_eq_true, Option.some.injEq] at h
      rw [h]
    · have hne : (name == k) = false := beq_eq_false_iff_ne.mpr (Ne.symm hk)
      rw [hne] at h
      rw [put_of_get? h]

/-- What the options of a call resolve to on a store. -/
def Call.resolution? (call : Call α ρ) (store : Store α) : Option (Except Error Resolved) :=
  match call with
  | scalars _ => none
  | unary op x opts => do
    resolveUnary op.operation.rule (← store.get? x).len opts
  | binary op x y opts => do
    resolveBinary op.operation.rule (← store.get? x).len (← store.get? y).len opts

namespace Call

section Run
variable {plan : Schedule} {s : Store α}

omit [RealScalar ρ] [Element α ρ] in
theorem resolution?_unary {op : UnaryOp α ρ} {x : String} {opts : UnaryOptions} {b : Buffer α}
    (hb : s.get? x = some b) :
    (unary op x opts).resolution? s = resolveUnary op.operation.rule b.len opts := by
  simp [resolution?, hb]

omit [RealScalar ρ] [Element α ρ] in
theorem resolution?_binary {op : BinaryOp α ρ} {x y : String} {opts : BinaryOptions}
    {b c : Buffer α} (hb : s.get? x = some b) (hc : s.get? y = some c) :
    (binary op x y opts).resolution? s = resolveBinary op.operation.rule b.len c.len opts := by
  simp [resolution?, hb, hc]

theorem run_unary_eq_some_iff {op : UnaryOp α ρ} {x : String} {opts : UnaryOptions}
    {o : Outcome (Store α) α ρ} : (unary op x opts).run plan s = some o ↔
      ∃ b p, s.get? x = some b ∧ op.run plan b opts = some p ∧
        o = ⟨s.put x p.buffers, p.answer, p.events⟩ := by
  simp only [run, Option.bind_eq_bind, Option.bind_eq_some_iff, Option.pure_def, Option.some.injEq]
  constructor
  · rintro ⟨b, hb, p, hp, rfl⟩
    exact ⟨b, p, hb, hp, rfl⟩
  · rintro ⟨b, p, hb, hp, rfl⟩
    exact ⟨b, hb, p, hp, rfl⟩

theorem run_binary_eq_some_iff {op : BinaryOp α ρ} {x y : String} {opts : BinaryOptions}
    {o : Outcome (Store α) α ρ} : (binary op x y opts).run plan s = some o ↔
      ∃ b c p, s.get? x = some b ∧ s.get? y = some c ∧ op.run plan b c opts = some p ∧
        o = ⟨(s.put x p.buffers.1).put y p.buffers.2, p.answer, p.events⟩ := by
  simp only [run, Option.bind_eq_bind, Option.bind_eq_some_iff, Option.pure_def, Option.some.injEq]
  constructor
  · rintro ⟨b, hb, c, hc, p, hp, rfl⟩
    exact ⟨b, c, p, hb, hc, hp, rfl⟩
  · rintro ⟨b, c, p, hb, hc, hp, rfl⟩
    exact ⟨b, hb, c, hc, p, hp, rfl⟩

end Run

end Call

/-- A call of a program: the schedule of its sums, the store before it and its outcome. -/
structure Performed (α ρ : Type) where
  plan : Schedule
  call : Call α ρ
  before : Store α
  outcome : Outcome (Store α) α ρ

/-- The call failed, or had no element, or changes no buffer of the caller by its row. -/
def Performed.Idle (p : Performed α ρ) : Prop :=
  Strided.Idle p.call.operation (p.call.resolution? p.before) p.outcome.answer

/-- The call with its schedule. -/
def Performed.planned (p : Performed α ρ) : Schedule × Call α ρ := (p.plan, p.call)

/-- Run calls one after the other, each under its own schedule: what was performed, and the store at
the end. -/
def runAll : List (Schedule × Call α ρ) → Store α → Option (List (Performed α ρ) × Store α)
  | [], s => some ([], s)
  | (plan, c) :: cs, s => (c.run plan s).bind fun o =>
    (runAll cs o.buffers).map fun (past, t) => (⟨plan, c, s, o⟩ :: past, t)

theorem runAll_cons_eq_some_iff {plan : Schedule} {c : Call α ρ} {cs : List (Schedule × Call α ρ)}
    {s t : Store α} {past : List (Performed α ρ)} :
    runAll ((plan, c) :: cs) s = some (past, t) ↔
      ∃ o rest, c.run plan s = some o ∧ runAll cs o.buffers = some (rest, t) ∧
        past = ⟨plan, c, s, o⟩ :: rest := by
  simp only [runAll, Option.bind_eq_some_iff, Option.map_eq_some_iff, Prod.exists, Prod.mk.injEq]
  constructor
  · rintro ⟨o, ho, rest, t', hrest, rfl, rfl⟩
    exact ⟨o, rest, ho, hrest, rfl⟩
  · rintro ⟨o, rest, ho, hrest, rfl⟩
    exact ⟨o, ho, rest, t, hrest, rfl, rfl⟩

/-- **One idle call** gives the store back as it was. -/
theorem buffers_of_idle {plan : Schedule} {c : Call α ρ} {s : Store α}
    {o : Outcome (Store α) α ρ} (h : c.run plan s = some o)
    (hidle : Performed.Idle ⟨plan, c, s, o⟩) : o.buffers = s := by
  cases c with
  | scalars op =>
    obtain ⟨o', -, rfl⟩ := Option.map_eq_some_iff.mp h
    rfl
  | unary op x opts =>
    obtain ⟨b, p, hb, hp, rfl⟩ := Call.run_unary_eq_some_iff.mp h
    unfold Performed.Idle at hidle
    rw [Call.resolution?_unary hb] at hidle
    change s.put x p.buffers = s
    rw [(UnaryOp.kept hp).eq_of_idle hidle, put_of_get? hb]
  | binary op x y opts =>
    obtain ⟨b, c, p, hb, hc, hp, rfl⟩ := Call.run_binary_eq_some_iff.mp h
    unfold Performed.Idle at hidle
    rw [Call.resolution?_binary hb hc] at hidle
    obtain ⟨hx, hy⟩ := BinaryOp.kept hp
    change (s.put x p.buffers.1).put y p.buffers.2 = s
    rw [hx.eq_of_idle hidle, hy.eq_of_idle hidle, put_of_get? hb, put_of_get? hc]

/-- The second list is the first one with some entries left out that satisfy `P`. -/
inductive Thinned {β : Type 1} (P : β → Prop) : List β → List β → Prop
  | nil : Thinned P [] []
  | keep (b : β) {l l' : List β} (h : Thinned P l l') : Thinned P (b :: l) (b :: l')
  | drop {b : β} {l l' : List β} (hb : P b) (h : Thinned P l l') : Thinned P (b :: l) l'

/-- **Leaving out idle calls.** The calls that are left are performed on the same stores with the
same outcomes, and the program ends with the same store. -/
theorem runAll_of_thinned {past kept : List (Performed α ρ)}
    (h : Thinned Performed.Idle past kept) :
    ∀ {calls : List (Schedule × Call α ρ)} {s t : Store α}, runAll calls s = some (past, t) →
      runAll (kept.map Performed.planned) s = some (kept, t) := by
  induction h with
  | nil =>
    intro calls s t hrun
    cases calls with
    | nil => exact hrun
    | cons c cs =>
      obtain ⟨_, _, -, -, h⟩ := runAll_cons_eq_some_iff.mp hrun
      cases h
  | keep p _ ih =>
    intro calls s t hrun
    cases calls with
    | nil => cases hrun
    | cons c cs =>
      obtain ⟨o, rest, ho, hrest, h⟩ := runAll_cons_eq_some_iff.mp hrun
      cases h
      exact runAll_cons_eq_some_iff.mpr ⟨o, _, ho, ih hrest, rfl⟩
  | drop hidle _ ih =>
    intro calls s t hrun
    cases calls with
    | nil => cases hrun
    | cons c cs =>
      obtain ⟨o, rest, ho, hrest, h⟩ := runAll_cons_eq_some_iff.mp hrun
      cases h
      -- The next call starts from the store that the idle one started from.
      rw [← buffers_of_idle ho hidle]
      exact ih hrest

/-! ### Schedules -/

/-- **The schedule bears on the answer alone**, also of a call on a store. -/
theorem Call.run_reschedule {plan : Schedule} (plan' : Schedule) {c : Call α ρ} {s : Store α}
    {o : Outcome (Store α) α ρ} (h : c.run plan s = some o) :
    ∃ o', c.run plan' s = some o' ∧ o'.buffers = o.buffers ∧ o'.events = o.events := by
  cases c with
  | scalars op => exact ⟨o, h, rfl, rfl⟩
  | unary op x opts =>
    obtain ⟨b, p, hb, hp, rfl⟩ := run_unary_eq_some_iff.mp h
    obtain ⟨p', hp', hbuffers, hevents⟩ := UnaryOp.run_reschedule plan' hp
    exact ⟨_, run_unary_eq_some_iff.mpr ⟨b, p', hb, hp', rfl⟩, by rw [hbuffers], hevents⟩
  | binary op x y opts =>
    obtain ⟨b, c, p, hb, hc, hp, rfl⟩ := run_binary_eq_some_iff.mp h
    obtain ⟨p', hp', hbuffers, hevents⟩ := BinaryOp.run_reschedule plan' hp
    exact ⟨_, run_binary_eq_some_iff.mpr ⟨b, c, p', hb, hc, hp', rfl⟩, by rw [hbuffers], hevents⟩

/-- **Other schedules of the same calls** lead through the same stores. -/
theorem runAll_reschedule : ∀ {calls calls' : List (Schedule × Call α ρ)} {s t : Store α}
    {past : List (Performed α ρ)}, calls'.map Prod.snd = calls.map Prod.snd →
      runAll calls s = some (past, t) → ∃ past', runAll calls' s = some (past', t) ∧
        past'.map Performed.before = past.map Performed.before
  | [], [], _, _, past, _, h => ⟨past, h, rfl⟩
  | (plan, c) :: cs, (plan', c') :: cs', s, t, past, hcalls, h => by
    obtain ⟨rfl, hrest⟩ := List.cons.inj hcalls
    obtain ⟨o, rest, ho, hrun, rfl⟩ := runAll_cons_eq_some_iff.mp h
    obtain ⟨o', ho', hbuffers, -⟩ := Call.run_reschedule plan' ho
    obtain ⟨rest', hrun', hbefore⟩ := runAll_reschedule hrest hrun
    rw [← hbuffers] at hrun'
    exact ⟨_, runAll_cons_eq_some_iff.mpr ⟨o', rest', ho', hrun', rfl⟩,
      congrArg (s :: ·) hbefore⟩

/-- **The mutation policy.** An operation lends the buffer of an argument for writing exactly if the
role of the argument is to read and write. A call changes the buffer only as its role, its success
and its length allow, and never the number of its cells. A program may be thinned of idle calls: the
calls that are left, each with its sums grouped as before, have the same outcomes, answers included,
and under any other schedules they still go through the same stores. -/
theorem mutation_policy :
    (∀ op : UnaryOp α ρ,
      op.passing = .staged .exclusive ↔ op.operation.role? 0 = some .readWrite) ∧
    (∀ op : BinaryOp α ρ,
      (op.passing.1 = .staged .exclusive ↔ op.operation.role? 0 = some .readWrite) ∧
        (op.passing.2 = .staged .exclusive ↔ op.operation.role? 1 = some .readWrite)) ∧
    (∀ (plan : Schedule) (op : UnaryOp α ρ) (x : Buffer α) (opts : UnaryOptions)
        (o : Outcome (Buffer α) α ρ), op.run plan x opts = some o →
      Kept op.operation 0 (resolveUnary op.operation.rule x.len opts) o.answer x o.buffers) ∧
    (∀ (plan : Schedule) (op : BinaryOp α ρ) (x y : Buffer α) (opts : BinaryOptions)
        (o : Outcome (Buffer α × Buffer α) α ρ), op.run plan x y opts = some o →
      Kept op.operation 0 (resolveBinary op.operation.rule x.len y.len opts) o.answer x
          o.buffers.1 ∧
        Kept op.operation 1 (resolveBinary op.operation.rule x.len y.len opts) o.answer y
          o.buffers.2) ∧
    ∀ (calls : List (Schedule × Call α ρ)) (s t : Store α) (past kept : List (Performed α ρ)),
      runAll calls s = some (past, t) → Thinned Performed.Idle past kept →
        runAll (kept.map Performed.planned) s = some (kept, t) ∧
          ∀ other, other.map Prod.snd = kept.map Performed.call →
            ∃ past', runAll other s = some (past', t) ∧
              past'.map Performed.before = kept.map Performed.before := by
  refine ⟨fun op => ?_, fun op => ?_, fun _ _ _ _ _ h => UnaryOp.kept h,
    fun _ _ _ _ _ _ h => BinaryOp.kept h, fun _ s t _ kept hrun hthin => ?_⟩
  · rw [op.role?_eq, Option.some_inj, Passing.role_eq_readWrite_iff]
  · rw [op.role?_eq.1, op.role?_eq.2, Option.some_inj, Option.some_inj,
      Passing.role_eq_readWrite_iff, Passing.role_eq_readWrite_iff]
    exact ⟨Iff.rfl, Iff.rfl⟩
  · have hkept := runAll_of_thinned hthin hrun
    refine ⟨hkept, fun other hother => runAll_reschedule ?_ hkept⟩
    rw [hother, List.map_map]
    rfl

/-- After a swap come a call with an offset past the end, a call without elements and a rotation
that returns copies; the program may do without these three, under any schedule. -/
theorem mutation_policy_of_idle_calls :
    ∃ (swap : Call Float Float) (rest : List (Call Float Float)) (s t : Store Float)
        (past : List (Performed Float Float)) (first : Performed Float Float),
      swap = .binary .swap "x" "y" ⟨none, {}, ⟨none, some (-1)⟩⟩ ∧
      rest = [.unary (.scal 2) "x" ⟨none, ⟨some 9, none⟩⟩, .unary (.scal 2) "y" ⟨some 0, {}⟩,
        .binary (.rot 0.6 0.8) "x" "y" {}] ∧
      s.map (fun e => (e.1, e.2.cells)) = [("x", #[1, 2, 3]), ("y", #[4, 5, 6])] ∧
      t.map (fun e => (e.1, e.2.cells)) = [("x", #[6, 5, 4]), ("y", #[3, 2, 1])] ∧
      runAll ((swap :: rest).map (.sequential, ·)) s = some (past, t) ∧
      Thinned Performed.Idle past [first] ∧
      runAll [(.sequential, swap)] s = some ([first], t) ∧
      ∃ past', runAll [(.standard, swap)] s = some (past', t) := by
  let s : Store Float := [("x", ⟨#[1, 2, 3], by decide⟩), ("y", ⟨#[4, 5, 6], by decide⟩)]
  let t : Store Float := [("x", ⟨#[6, 5, 4], by decide⟩), ("y", ⟨#[3, 2, 1], by decide⟩)]
  let swap : Call Float Float := .binary .swap "x" "y" ⟨none, {}, ⟨none, some (-1)⟩⟩
  obtain ⟨v₁, h₁⟩ : ∃ v, swap.run .sequential s = some ⟨t, .ok .done, v⟩ := ⟨_, rfl⟩
  obtain ⟨e, v₂, h₂⟩ : ∃ e v, Call.run .sequential (.unary (.scal 2) "x" ⟨none, ⟨some 9, none⟩⟩) t =
      some ⟨t, .error e, v⟩ := ⟨_, _, rfl⟩
  obtain ⟨v₃, h₃⟩ : ∃ v, Call.run .sequential (.unary (.scal 2) "y" ⟨some 0, {}⟩) t =
      some ⟨t, .ok .done, v⟩ := ⟨_, rfl⟩
  obtain ⟨a, v₄, h₄⟩ : ∃ a v, Call.run .sequential (.binary (.rot 0.6 0.8) "x" "y" {}) t =
      some ⟨t, .ok a, v⟩ := ⟨_, _, rfl⟩
  have hend : runAll (ρ := Float) [] t = some ([], t) := rfl
  have hrun := runAll_cons_eq_some_iff.mpr ⟨_, _, h₁, runAll_cons_eq_some_iff.mpr ⟨_, _, h₂,
    runAll_cons_eq_some_iff.mpr ⟨_, _, h₃, runAll_cons_eq_some_iff.mpr ⟨_, _, h₄, hend, rfl⟩, rfl⟩,
    rfl⟩, rfl⟩
  have hpolicy := mutation_policy.2.2.2.2 _ _ _ _ [⟨.sequential, swap, s, ⟨t, .ok .done, v₁⟩⟩] hrun
  suffices hthin : Thinned Performed.Idle _ _ from
    have ⟨past', hpast', _⟩ := (hpolicy hthin).2 [(.standard, swap)] rfl
    ⟨_, _, s, t, _, _, rfl, rfl, rfl, rfl, hrun, hthin, (hpolicy hthin).1, past', hpast'⟩
  exact .keep _ (.drop (Or.inl ⟨e, rfl⟩) (.drop (Or.inr (Or.inl ⟨⟨0, [⟨0, 1⟩]⟩, rfl, rfl⟩))
    (.drop (Or.inr (Or.inr (Or.inr rfl))) .nil)))

end Strided
