import Strided.Proofs.Mutation

/-! # The log

A call of an operation with a kernel for the precision leaves one event, and the event says what
happened: that the arguments were refused and why, that there was no element, or which kernel ran
and on how many elements. A call without a kernel leaves none.

* `Event.Tells`: what an event says of a call on vectors, read off its level, message and fields.
* `LogsOne`: one event with a property, or none if there is no kernel.
* `UnaryOp.logsOne`, `BinaryOp.logsOne`, `ScalarOp.logsOne`, `Call.logsOne`: one call.
* `foldlM_runLogged`: the log of a program is that of its calls, one after the other.
* `one_truthful_event`: all together. -/

namespace Strided

variable {α ρ : Type}

/-! ### Events -/

/-- The event tells how a call of `op` with this kernel came out, when its options were resolved and
it was answered in this way. -/
structure Event.Tells (e : Event) (op : Operation) (p : Precision) (kernel : String)
    (resolution : Option (Except Error Resolved)) (answer : Except Error (Answer α ρ)) : Prop where
  refused : e.level = .debug ∧ e.message = "argument validation failed" ↔
    ∃ err, answer = .error err
  refused_fields : ∀ err, answer = .error err → e.fields =
    [("op", .text op.row.name), ("kernel", .text kernel), ("error", .text err.message)]
  skipped : e.level = .trace ∧ e.message = "n == 0, kernel skipped" ↔
    (∃ a, answer = .ok a) ∧ ∃ r, resolution = some (.ok r) ∧ r.n = 0
  skipped_fields : ∀ r, resolution = some (.ok r) → r.n = 0 → e.fields =
    [("op", .text op.row.name), ("kernel", .text kernel)]
  dispatched : e.level = .debug ∧ e.message = "dispatch" ↔
    (∃ a, answer = .ok a) ∧ ∃ r, resolution = some (.ok r) ∧ 0 < r.n
  dispatched_fields : ∀ r, resolution = some (.ok r) → 0 < r.n → e.fields =
    [("op", .text op.row.name), ("kernel", .text kernel), ("precision", .text p.name),
      ("n", .count r.n), ("mutation", .text op.row.mutation.title),
      ("returns", .text op.row.returns.title)]
  /-- The answer is of the kind that the row says. -/
  returned : ∀ a, answer = .ok a → a.kind = op.row.returns

/-- The event tells that the kernel of an operation on scalars runs. -/
structure Event.TellsScalars (e : Event) (op : Operation) (p : Precision) (kernel : String) :
    Prop where
  level : e.level = .debug
  message : e.message = "dispatch"
  fields : e.fields = [("op", .text op.row.name), ("kernel", .text kernel),
    ("precision", .text p.name), ("returns", .text op.row.returns.title)]

/-- One event with the property is logged, or none if the operation has no kernel. -/
def LogsOne (op : Operation) (p : Precision) (events : List Event)
    (P : String → Event → Prop) : Prop :=
  match op.row.kernel p with
  | none => events = []
  | some kernel => ∃ e, events = [e] ∧ P kernel e

theorem LogsOne.of_unsupported {op : Operation} {p : Precision} {err : Error}
    (h : select op p = .error err) (P : String → Event → Prop) : LogsOne op p [] P := by
  unfold LogsOne
  unfold select at h
  split at h
  · cases h
  · rename_i hk
    rw [hk]

theorem LogsOne.of_select {op : Operation} {p : Precision} {sel : Selection} {e : Event}
    {P : String → Event → Prop} (h : select op p = .ok sel)
    (he : sel = ⟨op, p, sel.kernel⟩ → P sel.kernel e) : LogsOne op p [e] P := by
  unfold LogsOne
  unfold select at h
  split at h
  · rename_i kernel hk
    cases h
    rw [hk]
    exact ⟨e, rfl, he rfl⟩
  · cases h

theorem Selection.tells_rejected (op : Operation) (p : Precision) (kernel : String) (err : Error) :
    Event.Tells (α := α) (ρ := ρ) (rejected ⟨op, p, kernel⟩ err) op p kernel
      (some (.error err)) (.error err) where
  refused := by simp [rejected, Event.level, Event.message]
  refused_fields := by
    rintro _ ⟨⟩
    rfl
  skipped := by simp [rejected, Event.level]
  skipped_fields := by simp
  dispatched := by simp [rejected, Event.message]
  dispatched_fields := by simp
  returned := by simp

theorem Selection.tells_begun {op : Operation} (p : Precision) (kernel : String) (r : Resolved)
    {a : Answer α ρ} (ha : a.kind = op.row.returns) :
    Event.Tells (begun ⟨op, p, kernel⟩ r) op p kernel (some (.ok r)) (.ok a) := by
  have hreturned : ∀ b : Answer α ρ, Except.ok (ε := Error) a = .ok b → b.kind = op.row.returns := by
    rintro _ ⟨⟩
    exact ha
  unfold begun Resolved.isNoop
  by_cases hn : r.n = 0
  · rw [if_pos (by simpa using hn)]
    exact {
      refused := by simp [Event.level]
      refused_fields := by simp
      skipped := by simp [Event.level, Event.message, hn]
      skipped_fields := by
        rintro _ ⟨⟩ -
        rfl
      dispatched := by simp [Event.level, hn]
      dispatched_fields := by
        rintro _ ⟨⟩ hpos
        exact absurd hn (UInt64.pos_iff_ne_zero.mp hpos)
      returned := hreturned }
  · rw [if_neg (by simpa using hn)]
    exact {
      refused := by simp [Event.message]
      refused_fields := by simp
      skipped := by simp [Event.level, hn]
      skipped_fields := by
        rintro _ ⟨⟩ hzero
        exact absurd hzero hn
      dispatched := by simp [Event.level, Event.message, UInt64.pos_iff_ne_zero.mpr hn]
      dispatched_fields := by
        rintro _ ⟨⟩ -
        rfl
      returned := hreturned }

variable [RealScalar ρ] [Element α ρ]

/-! ### Operations on scalars -/

namespace ScalarOp

/-- What the call has logged before its kernel runs. -/
def announced (op : ScalarOp α ρ) : List Event := op.announce.toOption.toList

omit [RealScalar ρ] in
theorem logsOne (op : ScalarOp α ρ) :
    LogsOne op.operation (Element.precision α) op.announced fun kernel e =>
      e.TellsScalars op.operation (Element.precision α) kernel := by
  unfold announced announce
  cases h : select op.operation (Element.precision α) with
  | error err => exact LogsOne.of_unsupported h _
  | ok sel =>
    refine LogsOne.of_select h fun hsel => ?_
    rw [hsel]
    exact ⟨rfl, rfl, rfl⟩

/-- **The event comes first.** The call does nothing after it but run the kernel. -/
theorem events_run {op : ScalarOp α ρ} {o : Outcome Unit α ρ} (h : op.run = some o) :
    o.events = op.announced := by
  unfold run at h
  unfold announced
  split at h
  · rename_i e he
    cases h
    rw [he]
    rfl
  · rename_i event he
    obtain ⟨a, -, rfl⟩ := Option.map_eq_some_iff.mp h
    rw [he]
    rfl

/-- The table and the operation agree on the answer. -/
theorem kind_answer {op : ScalarOp α ρ} {o : Outcome Unit α ρ} (h : op.run = some o)
    {a : Answer α ρ} (ha : o.answer = .ok a) : a.kind = op.operation.row.returns := by
  unfold run at h
  split at h
  · cases h
    cases ha
  · obtain ⟨b, hb, rfl⟩ := Option.map_eq_some_iff.mp h
    cases ha
    cases op with
    | rotg x y =>
      cases hb
      rfl
    | rotmg d1 d2 x1 y1 =>
      obtain ⟨p, -, rfl⟩ := Option.map_eq_some_iff.mp hb
      rfl

/-- A call on scalars has no outcome only if its kernel has none. -/
theorem compute?_of_run {op : ScalarOp α ρ} (h : op.run = none) : op.compute? = none := by
  unfold run at h
  split at h
  · cases h
  · exact Option.map_eq_none_iff.mp h

end ScalarOp

/-! ### Operations on one vector -/

namespace UnaryOp

/-- The kernel has made the outcome: it ran on a view with as many elements as resolved, replaced
each and folded them, and the call changed and returned what it left. -/
def Processed (plan : Schedule) (op : UnaryOp α ρ) (r : Resolved) (x : Buffer α)
    (o : Outcome (Buffer α) α ρ) : Prop :=
  ∃ v v' a xs, r.view? 0 x = some v ∧ v.elements? = some xs ∧ xs.length = r.n.toNat ∧
    op.compute? plan v = some (v', a) ∧ v'.elements? = some (xs.map op.image) ∧
    a = op.fold plan (Kernel.isLong v) xs ∧
    o.buffers = (if op.operation.role? 0 = some .readWrite then v'.buffer else x) ∧
    o.answer = .ok (op.handBack v'.buffer a)

/-- No kernel has run: nothing has changed, and the answer is the one for no elements. -/
def Skipped (op : UnaryOp α ρ) (x : Buffer α) (o : Outcome (Buffer α) α ρ) : Prop :=
  o.buffers = x ∧ o.answer = .ok (op.handBack x op.emptyAnswer)

theorem processed_outcome (plan : Schedule) (op : UnaryOp α ρ) (sel : Selection) {n : UInt64}
    {w : Window} {x : Buffer α} (hn : n ≠ 0) (h : w.Inside n.toNat x.cells.size) :
    op.Processed plan ⟨n, [w]⟩ x (op.outcome plan sel n w x) := by
  have hv : (w.view n x).Inside := h
  have hl := View.length_gather hv
  refine ⟨w.view n x, (w.view n x).mapElements op.image, op.value plan (w.view n x),
    (w.view n x).gather, Window.view?_eq h, View.elements?_eq hv, hl, compute?_eq hv plan op,
    View.elements?_scatter hv (by rw [List.length_map, hl]), rfl, rfl, ?_⟩
  simp only [outcome, reply, if_neg hn, result]

theorem skipped_outcome (plan : Schedule) (op : UnaryOp α ρ) (sel : Selection) (w : Window)
    (x : Buffer α) : op.Skipped x (op.outcome plan sel 0 w x) := by
  unfold Skipped outcome reply
  simp [result_zero]

/-- **A call on one vector** logs one event that tells how it came out. -/
theorem logsOne (plan : Schedule) (op : UnaryOp α ρ) (x : Buffer α) (opts : UnaryOptions) :
    ∃ o, op.run plan x opts = some o ∧
      LogsOne op.operation (Element.precision α) o.events fun kernel e =>
        e.Tells op.operation (Element.precision α) kernel
            (resolveUnary op.operation.rule x.len opts) o.answer ∧
          ∀ r, resolveUnary op.operation.rule x.len opts = some (.ok r) →
            if r.n = 0 then op.Skipped x o else op.Processed plan r x o := by
  obtain ⟨err, hsel, h⟩ | ⟨sel, err, hsel, hres, h⟩ | ⟨sel, n, w, hsel, hres, hin, h⟩ :=
    op.run_cases plan x opts
  · exact ⟨_, h, LogsOne.of_unsupported hsel _⟩
  · refine ⟨_, h, LogsOne.of_select hsel fun hs => ?_⟩
    rw [hres, hs]
    exact ⟨Selection.tells_rejected .., fun _ h => by cases h⟩
  · refine ⟨_, h, LogsOne.of_select hsel fun hs => ?_⟩
    rw [hres]
    refine ⟨by rw [hs]; exact Selection.tells_begun _ _ _ (kind_answer plan op sel rfl), ?_⟩
    rintro _ ⟨⟩
    by_cases hn : n = 0
    · subst hn
      exact skipped_outcome plan op sel w x
    · rw [if_neg hn]
      exact processed_outcome plan op sel hn hin

end UnaryOp

/-! ### Operations on two vectors -/

namespace BinaryOp

/-- The kernel has made the outcome: it ran on views with as many elements as resolved, replaced
each pair and folded them, and the call changed and returned what it left. -/
def Processed (plan : Schedule) (op : BinaryOp α ρ) (r : Resolved) (x y : Buffer α)
    (o : Outcome (Buffer α × Buffer α) α ρ) : Prop :=
  ∃ v w v' w' a xs ys, r.view? 0 x = some v ∧ r.view? 1 y = some w ∧ v.elements? = some xs ∧
    w.elements? = some ys ∧ xs.length = r.n.toNat ∧ ys.length = r.n.toNat ∧
    op.compute? plan v w = some ((v', w'), a) ∧
    v'.elements? = some (List.zipWith (fun a b => (op.image a b).1) xs ys) ∧
    w'.elements? = some (List.zipWith (fun a b => (op.image a b).2) xs ys) ∧
    a = op.fold plan (Kernel.isLong v && w.isContiguous) xs ys ∧
    o.buffers = (if op.operation.role? 0 = some .readWrite then v'.buffer else x,
      if op.operation.role? 1 = some .readWrite then w'.buffer else y) ∧
    o.answer = .ok (op.handBack v'.buffer w'.buffer a)

/-- No kernel has run: nothing has changed, and the answer is the one for no elements. -/
def Skipped (op : BinaryOp α ρ) (x y : Buffer α) (o : Outcome (Buffer α × Buffer α) α ρ) : Prop :=
  o.buffers = (x, y) ∧ o.answer = .ok (op.handBack x y op.emptyAnswer)

theorem processed_outcome (plan : Schedule) (op : BinaryOp α ρ) (sel : Selection) {n : UInt64}
    {wx wy : Window} {x y : Buffer α} (hn : n ≠ 0) (hx : wx.Inside n.toNat x.cells.size)
    (hy : wy.Inside n.toNat y.cells.size) :
    op.Processed plan ⟨n, [wx, wy]⟩ x y (op.outcome plan sel n wx wy x y) := by
  have hv : (wx.view n x).Inside := hx
  have hw : (wy.view n y).Inside := hy
  refine ⟨wx.view n x, wy.view n y, ((wx.view n x).mapPairs op.image (wy.view n y)).1,
    ((wx.view n x).mapPairs op.image (wy.view n y)).2, op.value plan (wx.view n x) (wy.view n y),
    (wx.view n x).gather, (wy.view n y).gather, Window.view?_eq hx, Window.view?_eq hy,
    View.elements?_eq hv, View.elements?_eq hw, View.length_gather hv, View.length_gather hw,
    compute?_eq hv hw rfl plan op,
    View.elements?_scatter hv (View.length_zipWith_gather hv hw rfl _),
    View.elements?_scatter hw (View.length_zipWith_gather hv hw rfl _), rfl, rfl, ?_⟩
  simp only [outcome, reply, if_neg hn, result]

theorem skipped_outcome (plan : Schedule) (op : BinaryOp α ρ) (sel : Selection) (wx wy : Window)
    (x y : Buffer α) : op.Skipped x y (op.outcome plan sel 0 wx wy x y) := by
  unfold Skipped outcome reply
  simp [result_zero]

/-- **A call on two vectors** logs one event that tells how it came out. -/
theorem logsOne (plan : Schedule) (op : BinaryOp α ρ) (x y : Buffer α) (opts : BinaryOptions) :
    ∃ o, op.run plan x y opts = some o ∧
      LogsOne op.operation (Element.precision α) o.events fun kernel e =>
        e.Tells op.operation (Element.precision α) kernel
            (resolveBinary op.operation.rule x.len y.len opts) o.answer ∧
          ∀ r, resolveBinary op.operation.rule x.len y.len opts = some (.ok r) →
            if r.n = 0 then op.Skipped x y o else op.Processed plan r x y o := by
  obtain ⟨err, hsel, h⟩ | ⟨sel, err, hsel, hres, h⟩ | ⟨sel, n, wx, wy, hsel, hres, hx, hy, h⟩ :=
    op.run_cases plan x y opts
  · exact ⟨_, h, LogsOne.of_unsupported hsel _⟩
  · refine ⟨_, h, LogsOne.of_select hsel fun hs => ?_⟩
    rw [hres, hs]
    exact ⟨Selection.tells_rejected .., fun _ h => by cases h⟩
  · refine ⟨_, h, LogsOne.of_select hsel fun hs => ?_⟩
    rw [hres]
    refine ⟨by rw [hs]; exact Selection.tells_begun _ _ _ (kind_answer plan op sel rfl), ?_⟩
    rintro _ ⟨⟩
    by_cases hn : n = 0
    · subst hn
      exact skipped_outcome plan op sel wx wy x y
    · rw [if_neg hn]
      exact processed_outcome plan op sel hn hx hy

end BinaryOp

/-! ### Programs -/

/-- The event tells how the call came out. -/
def Performed.Told (p : Performed α ρ) (kernel : String) (e : Event) : Prop :=
  match p.call with
  | .scalars op => e.TellsScalars op.operation (Element.precision α) kernel
  | c => e.Tells c.operation (Element.precision α) kernel (c.resolution? p.before)
      p.outcome.answer

theorem LogsOne.imp {op : Operation} {p : Precision} {events : List Event}
    {P Q : String → Event → Prop} (h : LogsOne op p events P)
    (hPQ : ∀ kernel e, P kernel e → Q kernel e) : LogsOne op p events Q := by
  unfold LogsOne at h ⊢
  cases hk : op.row.kernel p with
  | none => simpa only [hk] using h
  | some kernel =>
    rw [hk] at h
    obtain ⟨e, he, hP⟩ := h
    exact ⟨e, he, hPQ kernel e hP⟩

/-- **One call of a program.** -/
theorem Call.logsOne {plan : Schedule} {c : Call α ρ} {s : Store α} {o : Outcome (Store α) α ρ}
    (h : c.run plan s = some o) :
    LogsOne c.operation (Element.precision α) o.events (Performed.Told ⟨plan, c, s, o⟩) := by
  cases c with
  | scalars op =>
    obtain ⟨o', ho', rfl⟩ := Option.map_eq_some_iff.mp h
    have hlog := op.logsOne
    rw [← ScalarOp.events_run ho'] at hlog
    exact hlog
  | unary op x opts =>
    obtain ⟨b, p, hb, hp, rfl⟩ := run_unary_eq_some_iff.mp h
    obtain ⟨p', hp', hlog⟩ := op.logsOne plan b opts
    cases hp.symm.trans hp'
    refine hlog.imp fun kernel e he => ?_
    simp only [Performed.Told, resolution?_unary hb]
    exact he.1
  | binary op x y opts =>
    obtain ⟨b, c, p, hb, hc, hp, rfl⟩ := run_binary_eq_some_iff.mp h
    obtain ⟨p', hp', hlog⟩ := op.logsOne plan b c opts
    cases hp.symm.trans hp'
    refine hlog.imp fun kernel e he => ?_
    simp only [Performed.Told, resolution?_binary hb hc]
    exact he.1

theorem runAll_logsOne : ∀ {calls : List (Schedule × Call α ρ)} {s t : Store α}
    {past : List (Performed α ρ)}, runAll calls s = some (past, t) →
      past.map Performed.planned = calls ∧ ∀ p ∈ past,
        LogsOne p.call.operation (Element.precision α) p.outcome.events p.Told
  | [], _, _, _, h => by
    cases h
    simp
  | (plan, c) :: cs, s, t, past, h => by
    obtain ⟨o, rest, ho, hrest, rfl⟩ := runAll_cons_eq_some_iff.mp h
    obtain ⟨hcalls, hall⟩ := runAll_logsOne hrest
    refine ⟨congrArg ((plan, c) :: ·) hcalls, fun p hp => ?_⟩
    rcases List.mem_cons.mp hp with rfl | hp
    · exact Call.logsOne ho
    · exact hall p hp

/-- Run a call on a store, and write its events to the end of the log. -/
def Call.runLogged (s : Store α × List Event) (c : Schedule × Call α ρ) :
    Option (Store α × List Event) :=
  (c.2.run c.1 s.1).map fun o => (o.buffers, s.2 ++ o.events)

/-- **The log of a program** is what its calls have logged, one after the other. -/
theorem foldlM_runLogged : ∀ (calls : List (Schedule × Call α ρ)) (s : Store α)
    (log : List Event), calls.foldlM Call.runLogged (s, log) =
      (runAll calls s).map fun q => (q.2, log ++ q.1.flatMap fun p => p.outcome.events)
  | [], s, log => by simp [runAll]
  | (plan, c) :: cs, s, log => by
    rw [List.foldlM_cons, runAll]
    cases h : c.run plan s with
    | none => simp [Call.runLogged, h]
    | some o =>
      have ih := foldlM_runLogged cs o.buffers (log ++ o.events)
      simp only [Call.runLogged, h, Option.map_some, Option.bind_eq_bind, Option.bind_some] at ih ⊢
      rw [ih]
      cases runAll cs o.buffers with
      | none => rfl
      | some q => simp

/-- **Every call logs one event, and it is true.** The event tells the error of a call that fails, the
absence of elements, or the kernel and the number of elements that it processes. A call of an
operation on scalars has logged its event before the kernel runs. The log of a program is made of
these. -/
theorem one_truthful_event (plan : Schedule) :
    (∀ (op : UnaryOp α ρ) (x : Buffer α) (opts : UnaryOptions), ∃ o, op.run plan x opts = some o ∧
      LogsOne op.operation (Element.precision α) o.events fun kernel e =>
        e.Tells op.operation (Element.precision α) kernel
            (resolveUnary op.operation.rule x.len opts) o.answer ∧
          ∀ r, resolveUnary op.operation.rule x.len opts = some (.ok r) →
            if r.n = 0 then op.Skipped x o else op.Processed plan r x o) ∧
    (∀ (op : BinaryOp α ρ) (x y : Buffer α) (opts : BinaryOptions),
      ∃ o, op.run plan x y opts = some o ∧
        LogsOne op.operation (Element.precision α) o.events fun kernel e =>
          e.Tells op.operation (Element.precision α) kernel
              (resolveBinary op.operation.rule x.len y.len opts) o.answer ∧
            ∀ r, resolveBinary op.operation.rule x.len y.len opts = some (.ok r) →
              if r.n = 0 then op.Skipped x y o else op.Processed plan r x y o) ∧
    (∀ op : ScalarOp α ρ,
      (LogsOne op.operation (Element.precision α) op.announced fun kernel e =>
        e.TellsScalars op.operation (Element.precision α) kernel) ∧
      (∀ o, op.run = some o → o.events = op.announced ∧
        ∀ a, o.answer = .ok a → a.kind = op.operation.row.returns) ∧
      (op.run = none → op.compute? = none)) ∧
    ∀ (calls : List (Schedule × Call α ρ)) (s : Store α) (log : List Event),
      (calls.foldlM Call.runLogged (s, log) =
        (runAll calls s).map fun q => (q.2, log ++ q.1.flatMap fun p => p.outcome.events)) ∧
      ∀ past t, runAll calls s = some (past, t) → past.map Performed.planned = calls ∧
        ∀ p ∈ past, LogsOne p.call.operation (Element.precision α) p.outcome.events p.Told :=
  ⟨fun op => op.logsOne plan, fun op => op.logsOne plan,
    fun op => ⟨op.logsOne, fun _ ho => ⟨ScalarOp.events_run ho, fun _ => ScalarOp.kind_answer ho⟩,
      ScalarOp.compute?_of_run⟩,
    fun calls s log => ⟨foldlM_runLogged calls s log, fun _ _ => runAll_logsOne⟩⟩

/-- A swap of nine elements is refused, a call without elements skipped, a product without a kernel
for real numbers not logged, and a product of two elements dispatched. -/
theorem one_truthful_event_of_four_calls :
    ∃ (calls : List (Schedule × Call Float Float)) (s t : Store Float)
        (past : List (Performed Float Float)) (log : List Event),
      calls.map Prod.snd = [.binary .swap "x" "y" ⟨some 9, {}, {}⟩,
        .unary (.scal 2) "y" ⟨some 0, {}⟩, .binary .dotu "x" "y" {},
        .binary .dot "x" "y" ⟨some 2, {}, {}⟩] ∧
      s.map (fun e => (e.1, e.2.cells)) = [("x", #[1, 2, 3]), ("y", #[4, 5, 6])] ∧
      runAll calls s = some (past, t) ∧ calls.foldlM Call.runLogged (s, []) = some (t, log) ∧
      log.map Event.message = ["argument validation failed", "n == 0, kernel skipped", "dispatch"] ∧
      ∀ p ∈ past, LogsOne p.call.operation .real64 p.outcome.events p.Told := by
  let s : Store Float := [("x", ⟨#[1, 2, 3], by decide⟩), ("y", ⟨#[4, 5, 6], by decide⟩)]
  let c₁ : Call Float Float := .binary .swap "x" "y" ⟨some 9, {}, {}⟩
  let c₂ : Call Float Float := .unary (.scal 2) "y" ⟨some 0, {}⟩
  let c₃ : Call Float Float := .binary .dotu "x" "y" {}
  let c₄ : Call Float Float := .binary .dot "x" "y" ⟨some 2, {}, {}⟩
  have h₁ : c₁.run .sequential s = some _ := rfl
  have h₂ : c₂.run .sequential s = some _ := rfl
  have h₃ : c₃.run .sequential s = some _ := rfl
  have h₄ : c₄.run .sequential s = some _ := rfl
  have hend : runAll (ρ := Float) [] s = some ([], s) := rfl
  have hrun := runAll_cons_eq_some_iff.mpr ⟨_, _, h₁, runAll_cons_eq_some_iff.mpr ⟨_, _, h₂,
    runAll_cons_eq_some_iff.mpr ⟨_, _, h₃, runAll_cons_eq_some_iff.mpr ⟨_, _, h₄, hend, rfl⟩, rfl⟩,
    rfl⟩, rfl⟩
  obtain ⟨hlog, hall⟩ := (one_truthful_event .sequential).2.2.2
    [(.sequential, c₁), (.sequential, c₂), (.sequential, c₃), (.sequential, c₄)] s []
  rw [hrun, Option.map_some] at hlog
  exact ⟨_, s, s, _, _, rfl, rfl, hrun, hlog, rfl, (hall _ _ hrun).2⟩

end Strided
