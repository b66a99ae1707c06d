import Strided.Proofs.Outcome

/-! # Reading after writing

A view is also worked on element by element, by actions that read, replace or update one element.
The number of the element is not compared with the length of the view: what keeps an action inside
the buffer is that a position which is no word, and a cell which the buffer does not have, is a
fault. With a positive increment the elements go on past the window, as far as the buffer does; with
a negative one there is nothing before the first cell, and the elements are those of the window.

Either way two elements never share a cell. So each element is a variable of its own: an action on it
is answered from its content, and only an action on it changes its content.

* `Reaches`: an element has a cell in the buffer; `Reaches.place_inj`: no other element has it.
* `perform_cases`: what one action does.
* `reply_perform`, `get?_perform`: one action, seen from the contents of the elements.
* `get?_performAll`, `filter_performAll`, `exists_of_changed`: the same of a sequence of actions.
* `last_write_counts`: views of resolved windows. -/

namespace Strided

variable {α : Type}

/-! ### Actions on one element -/

namespace Action

/-- The number of the element that an action is about. -/
def index : Action α → UInt64
  | get i => i
  | set i _ => i
  | update i _ => i

/-- What an action makes of the content of its element. -/
def apply : Action α → α → α
  | get _, a => a
  | set _ b, _ => b
  | update _ f, a => f a

/-- The reply to an action, given the content of its element. -/
def reply : Action α → Option α → Reply α
  | _, none => .fault
  | get _, some a => .value a
  | set _ _, some _ => .done
  | update _ _, some _ => .done

theorem reply_eq_fault_iff {act : Action α} {content : Option α} :
    act.reply content = .fault ↔ content = none := by
  cases content with
  | none => simp [reply]
  | some a => cases act <;> simp [reply]

end Action

namespace View

/-! ### Elements that have a cell -/

/-- Element `i` has a cell in the buffer: it does not lie before the first cell, nor past the last
one. -/
@[mk_iff] structure Reaches (v : View α) (i : UInt64) : Prop where
  counted : 0 < v.inc ∨ i < v.n
  place_lt : v.place i.toNat < v.buffer.cells.size

section Reaches
variable {v w : View α} {i j : UInt64}

/-- **The cell of any element**, if the buffer has it. -/
theorem cell?_eq_some_iff {c : ℕ} :
    v.cell? i = some c ∧ c < v.buffer.cells.size ↔ v.Reaches i ∧ c = v.place i.toNat := by
  have hsize := v.buffer.size_lt
  unfold cell?
  simp only [Option.map_eq_some_iff, position?_eq_some_iff, ← UInt64.lt_iff_toNat_lt]
  constructor
  · rintro ⟨⟨p, ⟨hcounted, hp⟩, rfl⟩, hc⟩
    rw [hp] at hc ⊢
    exact ⟨⟨hcounted, hc⟩, rfl⟩
  · rintro ⟨⟨hcounted, hlt⟩, rfl⟩
    have hle : reach v.n.toNat v.inc i.toNat ≤ v.place i.toNat := Nat.le_add_left _ _
    have hword : (UInt64.ofNat (reach v.n.toNat v.inc i.toNat)).toNat =
        reach v.n.toNat v.inc i.toNat := UInt64.toNat_ofNat_of_lt' (by omega)
    exact ⟨⟨_, ⟨hcounted, hword⟩, by rw [hword]; rfl⟩, hlt⟩

theorem Reaches.cell?_eq (h : v.Reaches i) : v.cell? i = some (v.place i.toNat) :=
  (cell?_eq_some_iff.mpr ⟨h, rfl⟩).1

theorem Reaches.get?_eq (h : v.Reaches i) : v.get? i = v.elem? i.toNat := get?_of_cell? h.cell?_eq

theorem Reaches.set?_eq (h : v.Reaches i) (a : α) : v.set? i a = some (v.put i.toNat a) :=
  set?_of_cell? h.cell?_eq h.place_lt a

theorem Reaches.exists_get? (h : v.Reaches i) : ∃ a, v.get? i = some a := by
  rw [h.get?_eq]
  exact Buffer.isSome_get? h.place_lt

theorem get?_of_not_reaches (h : ¬ v.Reaches i) : v.get? i = none := by
  by_contra hne
  obtain ⟨a, ha⟩ := Option.ne_none_iff_exists'.mp hne
  obtain ⟨c, hc, hget⟩ := Option.bind_eq_some_iff.mp ha
  obtain ⟨hlt, -⟩ := Array.getElem?_eq_some_iff.mp hget
  exact h (cell?_eq_some_iff.mp ⟨hc, hlt⟩).1

theorem set?_of_not_reaches (h : ¬ v.Reaches i) (a : α) : v.set? i a = none := by
  by_contra hne
  obtain ⟨w, hw⟩ := Option.ne_none_iff_exists'.mp hne
  obtain ⟨c, hc, hset⟩ := Option.bind_eq_some_iff.mp hw
  obtain ⟨b, hb, -⟩ := Option.bind_eq_some_iff.mp hset
  obtain ⟨hlt, -⟩ := Buffer.set?_eq_some_iff.mp hb
  exact h (cell?_eq_some_iff.mp ⟨hc, hlt⟩).1

theorem get?_eq_none_iff : v.get? i = none ↔ ¬ v.Reaches i := by
  constructor
  · intro hnone h
    obtain ⟨a, ha⟩ := h.exists_get?
    simp [ha] at hnone
  · exact get?_of_not_reaches

/-- **No two elements share a cell.** -/
theorem Reaches.place_inj (hinc : v.inc ≠ 0) (hi : v.Reaches i) (hj : v.Reaches j)
    (h : v.place i.toNat = v.place j.toNat) : i = j := by
  apply UInt64.toNat_inj.mp
  refine reach_inj hinc ?_ ?_ (Nat.add_left_cancel h)
  · exact hi.counted.imp_right UInt64.lt_iff_toNat_lt.mp
  · exact hj.counted.imp_right UInt64.lt_iff_toNat_lt.mp

theorem Alike.reaches_iff (h : v.Alike w) : v.Reaches i ↔ w.Reaches i := by
  rw [View.reaches_iff, View.reaches_iff, h.inc, h.n, h.place, h.size]

theorem Alike.trans {u : View α} (h : v.Alike w) (h' : w.Alike u) : v.Alike u :=
  ⟨h.offset.trans h'.offset, h.n.trans h'.n, h.inc.trans h'.inc, h.size.trans h'.size⟩

end Reaches

/-! ### One action -/

section Perform
variable {v : View α} {act : Action α}

/-- Writing the content of an element back changes nothing. -/
theorem put_of_elem? {i : ℕ} {a : α} (h : v.elem? i = some a) : v.put i a = v := by
  refine View.ext (Buffer.ext_get? fun c => ?_) rfl rfl rfl
  obtain ⟨hlt, -⟩ := Array.getElem?_eq_some_iff.mp h
  by_cases hc : v.place i = c
  · subst hc
    exact (Buffer.get?_write_self hlt a).trans h.symm
  · exact Buffer.get?_write_of_ne _ hc a

/-- **One action.** If its element has no cell, it faults and changes nothing. Otherwise it is
answered from the content of the element, and what it makes of the content is written to the cell. -/
theorem perform_cases (v : View α) (act : Action α) :
    (¬ v.Reaches act.index ∧ v.perform act = (.fault, v)) ∨
      ∃ a, v.Reaches act.index ∧ v.get? act.index = some a ∧
        v.perform act = (act.reply (some a), v.put act.index.toNat (act.apply a)) := by
  by_cases h : v.Reaches act.index
  · right
    obtain ⟨a, ha⟩ := h.exists_get?
    refine ⟨a, h, ha, ?_⟩
    cases act with
    | get i =>
      have hput : v.put i.toNat a = v := put_of_elem? (h.get?_eq.symm.trans ha)
      simp [perform, Action.reply, Action.apply, Action.index, hput, show v.get? i = some a from ha]
    | set i b =>
      have hset : v.set? i b = some (v.put i.toNat b) := h.set?_eq b
      simp [perform, settle, hset, Action.reply, Action.apply, Action.index]
    | update i f =>
      have hset : v.set? i (f a) = some (v.put i.toNat (f a)) := h.set?_eq (f a)
      simp [perform, settle, update?, show v.get? i = some a from ha, hset, Action.reply,
        Action.apply, Action.index]
  · left
    refine ⟨h, ?_⟩
    have hget := get?_of_not_reaches h
    cases act with
    | get i => simp [perform, show v.get? i = none from hget]
    | set i b => simp [perform, settle, set?_of_not_reaches (i := i) h]
    | update i f => simp [perform, settle, update?, show v.get? i = none from hget]

theorem alike_perform (v : View α) (act : Action α) : (v.perform act).2.Alike v := by
  rcases v.perform_cases act with ⟨-, h⟩ | ⟨a, -, -, h⟩
  · rw [h]
    exact Alike.refl v
  · rw [h]
    exact (Alike.refl v).put _ _

/-- **The reply** to an action follows from the content of its element. -/
theorem reply_perform (v : View α) (act : Action α) :
    (v.perform act).1 = act.reply (v.get? act.index) := by
  rcases v.perform_cases act with ⟨hnot, h⟩ | ⟨a, -, ha, h⟩
  · rw [h, get?_of_not_reaches hnot]
    cases act <;> rfl
  · rw [h, ha]

/-- **The contents after an action**: only its own element has changed. -/
theorem get?_perform (hinc : v.inc ≠ 0) (act : Action α) (i : UInt64) :
    (v.perform act).2.get? i = if act.index = i then (v.get? i).map act.apply else v.get? i := by
  rcases v.perform_cases act with ⟨hnot, h⟩ | ⟨a, hact, ha, h⟩
  · rw [h]
    split_ifs with hi
    · rw [← hi, get?_of_not_reaches hnot, Option.map_none]
    · rfl
  · rw [h]
    have hal : (v.put act.index.toNat (act.apply a)).Alike v := (Alike.refl v).put _ _
    -- a write does not give or take a cell, so the same elements have one before and after it
    by_cases hr : v.Reaches i
    · rw [(hal.reaches_iff.mpr hr).get?_eq, elem?, hal.place]
      split_ifs with hi
      · subst hi
        rw [ha, Option.map_some]
        exact Buffer.get?_write_self hact.place_lt _
      · rw [hr.get?_eq]
        exact Buffer.get?_write_of_ne _ (fun e => hi (hact.place_inj hinc hr e)) _
    · rw [get?_of_not_reaches (mt hal.reaches_iff.mp hr), get?_of_not_reaches hr, Option.map_none,
        ite_self]

/-- **The cells after an action**: only the cell of its element has changed. -/
theorem reaches_of_changed {c : ℕ} (h : (v.perform act).2.buffer.get? c ≠ v.buffer.get? c) :
    v.Reaches act.index ∧ c = v.place act.index.toNat := by
  rcases v.perform_cases act with ⟨-, e⟩ | ⟨a, hact, -, e⟩
  · rw [e] at h
    exact absurd rfl h
  · refine ⟨hact, ?_⟩
    by_contra hc
    rw [e] at h
    exact h (Buffer.get?_write_of_ne _ (Ne.symm hc) _)

end Perform

/-! ### Sequences of actions -/

/-- Perform actions one after the other: the actions with their replies, and the view at the end. -/
def performAll : View α → List (Action α) → List (Action α × Reply α) × View α
  | v, [] => ([], v)
  | v, act :: actions =>
    ((act, (v.perform act).1) :: ((v.perform act).2.performAll actions).1,
      ((v.perform act).2.performAll actions).2)

/-- The content of element `i` after one more action: a write to the element that did not fault
replaces it, and nothing else does. -/
def revise (i : UInt64) (content : Option α) : Action α × Reply α → Option α
  | (.set j a, .done) => if j = i then some a else content
  | (.update j f, .done) => if j = i then content.map f else content
  | _ => content

/-- What the last write to element `i` that did not fault has left there, or else the content that
was there before. -/
def latest (i : UInt64) (content : Option α) (trace : List (Action α × Reply α)) : Option α :=
  trace.foldl (revise i) content

theorem alike_performAll : ∀ (v : View α) (actions : List (Action α)),
    (v.performAll actions).2.Alike v
  | v, [] => Alike.refl v
  | v, act :: actions => (alike_performAll _ actions).trans (v.alike_perform act)

theorem revise_of_ne {act : Action α} {i : UInt64} (h : act.index ≠ i) (content : Option α)
    (reply : Reply α) : revise i content (act, reply) = content := by
  cases act with
  | get j => rfl
  | set j a => cases reply <;> simp [revise, show j ≠ i from h]
  | update j f => cases reply <;> simp [revise, show j ≠ i from h]

theorem revise_reply (act : Action α) (content : Option α) :
    revise act.index content (act, act.reply content) = content.map act.apply := by
  cases content with
  | none => cases act <;> rfl
  | some a => cases act <;> simp [revise, Action.reply, Action.index, Action.apply]

theorem revise_perform {v : View α} (hinc : v.inc ≠ 0) (act : Action α) (i : UInt64) :
    revise i (v.get? i) (act, (v.perform act).1) = (v.perform act).2.get? i := by
  rw [reply_perform, get?_perform hinc]
  split_ifs with hi
  · subst hi
    exact revise_reply act _
  · exact revise_of_ne hi _ _

/-- **The contents after a sequence of actions.** -/
theorem get?_performAll (i : UInt64) : ∀ (actions : List (Action α)) {v : View α}, v.inc ≠ 0 →
    (v.performAll actions).2.get? i = latest i (v.get? i) (v.performAll actions).1
  | [], _, _ => rfl
  | act :: actions, v, hinc => by
    have hinc' : (v.perform act).2.inc ≠ 0 := by rw [(v.alike_perform act).inc]; exact hinc
    have ih := get?_performAll i actions hinc'
    rw [← revise_perform hinc] at ih
    exact ih

/-- **Actions on other elements make no difference.** The replies to the actions on element `i`, and
its content at the end, are the same on any view with the same content of the element on which only
these actions are performed. -/
theorem filter_performAll (i : UInt64) : ∀ (actions : List (Action α)) {v w : View α},
    v.inc ≠ 0 → w.inc ≠ 0 → v.get? i = w.get? i →
      (v.performAll actions).1.filter (·.1.index = i) =
        (w.performAll (actions.filter (·.index = i))).1 ∧
      (v.performAll actions).2.get? i = (w.performAll (actions.filter (·.index = i))).2.get? i
  | [], _, _, _, _, h => ⟨rfl, h⟩
  | act :: actions, v, w, hv, hw, h => by
    have hv' : (v.perform act).2.inc ≠ 0 := by rw [(v.alike_perform act).inc]; exact hv
    have hw' : (w.perform act).2.inc ≠ 0 := by rw [(w.alike_perform act).inc]; exact hw
    -- the two views may differ in all other elements, so the induction is over both of them
    by_cases hi : act.index = i
    · have hreply : (v.perform act).1 = (w.perform act).1 := by
        rw [reply_perform, reply_perform, hi, h]
      have hcontent : (v.perform act).2.get? i = (w.perform act).2.get? i := by
        rw [get?_perform hv, get?_perform hw, h]
      obtain ⟨htrace, hend⟩ := filter_performAll i actions hv' hw' hcontent
      simp only [performAll, List.filter_cons, hi, decide_true, if_true, hreply]
      exact ⟨congrArg _ htrace, hend⟩
    · have hcontent : (v.perform act).2.get? i = w.get? i := by
        rw [get?_perform hv, if_neg hi, h]
      simp only [performAll, List.filter_cons, hi, decide_false, Bool.false_eq_true, if_false]
      exact filter_performAll i actions hv' hw hcontent

/-- **The cells after a sequence of actions**: those that have changed are cells of elements of the
actions. -/
theorem exists_of_changed {c : ℕ} : ∀ {actions : List (Action α)} {v : View α},
    (v.performAll actions).2.buffer.get? c ≠ v.buffer.get? c →
      ∃ act ∈ actions, v.Reaches act.index ∧ c = v.place act.index.toNat
  | [], _, h => absurd rfl h
  | act :: actions, v, h => by
    change ((v.perform act).2.performAll actions).2.buffer.get? c ≠ v.buffer.get? c at h
    by_cases hfirst : (v.perform act).2.buffer.get? c = v.buffer.get? c
    · rw [← hfirst] at h
      obtain ⟨act', hmem, hreach, hc⟩ := exists_of_changed h
      have hal := v.alike_perform act
      rw [hal.reaches_iff] at hreach
      rw [hal.place] at hc
      exact ⟨act', List.mem_cons_of_mem _ hmem, hreach, hc⟩
    · exact ⟨act, List.mem_cons_self, reaches_of_changed hfirst⟩

/-! ### Views inside their buffers -/

/-- What actions on a view leave of it: `trace` has the actions with their replies, and `w` is the
view after them. -/
structure Remembers (v : View α) (actions : List (Action α)) (trace : List (Action α × Reply α))
    (w : View α) : Prop where
  /-- The window and the number of cells are as before. -/
  alike : w.Alike v
  /-- An element is read as the last write to it that did not fault has left it. -/
  read : ∀ i, (w.perform (.get i)).1 = (Action.get i).reply (latest i (v.get? i) trace)
  /-- The actions on one element have the same replies, and leave the same there, without the
  actions on all other elements. -/
  alone : ∀ i, trace.filter (·.1.index = i) = (v.performAll (actions.filter (·.index = i))).1 ∧
    w.get? i = (v.performAll (actions.filter (·.index = i))).2.get? i
  /-- An action that faults changes nothing. -/
  fault : ∀ act, (w.perform act).1 = .fault → (w.perform act).2 = w
  /-- The cells before the offset are as before. -/
  below : ∀ c < v.offset.toNat, w.buffer.get? c = v.buffer.get? c
  /-- With a positive increment element `i` is the cell `i * |inc|` after the offset. The faults are
  those past the buffer, and only such cells change. -/
  forward : 0 < v.inc →
    (∀ i, w.get? i = w.buffer.get? (v.offset.toNat + i.toNat * v.inc.toInt.natAbs)) ∧
    (∀ act, (w.perform act).1 = .fault ↔
      v.buffer.cells.size ≤ v.offset.toNat + act.index.toNat * v.inc.toInt.natAbs) ∧
    ∀ c, w.buffer.get? c ≠ v.buffer.get? c → c < v.buffer.cells.size ∧
      ∃ act ∈ actions, c = v.offset.toNat + act.index.toNat * v.inc.toInt.natAbs
  /-- With a negative increment the elements are counted from the far end of the window. The faults
  are those past the length, and only cells of the window change. -/
  backward : v.inc < 0 →
    (∀ i < v.n, w.get? i =
      w.buffer.get? (v.offset.toNat + (v.n.toNat - 1 - i.toNat) * v.inc.toInt.natAbs)) ∧
    (∀ act, (w.perform act).1 = .fault ↔ v.n ≤ act.index) ∧
    ∀ c, w.buffer.get? c ≠ v.buffer.get? c → ∃ act ∈ actions, act.index < v.n ∧
      c = v.offset.toNat + (v.n.toNat - 1 - act.index.toNat) * v.inc.toInt.natAbs

section Inside
variable {v : View α}

theorem place_of_pos (hpos : 0 < v.inc) (i : ℕ) :
    v.place i = v.offset.toNat + i * v.inc.toInt.natAbs := by
  unfold place Window.place reach window
  rw [if_pos hpos]

theorem place_of_neg (hneg : v.inc < 0) (i : ℕ) :
    v.place i = v.offset.toNat + (v.n.toNat - 1 - i) * v.inc.toInt.natAbs := by
  unfold place Window.place reach window
  rw [if_neg (Int64.lt_asymm hneg)]

theorem reaches_iff_of_pos (hpos : 0 < v.inc) {i : UInt64} :
    v.Reaches i ↔ v.place i.toNat < v.buffer.cells.size := by
  simp [reaches_iff, hpos]

theorem reaches_iff_of_neg (hv : v.Inside) (hneg : v.inc < 0) {i : UInt64} :
    v.Reaches i ↔ i < v.n := by
  constructor
  · intro h
    exact h.counted.resolve_left (Int64.lt_asymm hneg)
  · intro h
    exact ⟨Or.inr h, hv.place_lt (UInt64.lt_iff_toNat_lt.mp h)⟩

/-- Every element of a view with a positive increment is a cell, which the buffer may not have. -/
theorem get?_of_pos (hpos : 0 < v.inc) (i : UInt64) : v.get? i = v.elem? i.toNat := by
  by_cases h : v.Reaches i
  · exact h.get?_eq
  · rw [get?_of_not_reaches h]
    rw [reaches_iff_of_pos hpos, Nat.not_lt] at h
    exact (Array.getElem?_eq_none h).symm

/-- An action faults if its element has no cell, whatever was done before. -/
theorem reply_eq_fault_iff {w : View α} (hal : w.Alike v) (act : Action α) :
    (w.perform act).1 = .fault ↔ ¬ v.Reaches act.index := by
  rw [reply_perform, Action.reply_eq_fault_iff, get?_eq_none_iff, hal.reaches_iff]

/-- **Every sequence of actions** on a view inside its buffer. -/
theorem Inside.remembers (hv : v.Inside) (actions : List (Action α)) :
    v.Remembers actions (v.performAll actions).1 (v.performAll actions).2 := by
  have hinc := hv.inc_ne
  have hal := v.alike_performAll actions
  refine ⟨hal, ?read, ?alone, ?fault, ?below, ?forward, ?backward⟩
  case read =>
    intro i
    rw [reply_perform, ← get?_performAll i actions hinc]
    rfl
  case alone =>
    intro i
    exact filter_performAll i actions hinc hinc rfl
  case fault =>
    intro act h
    rcases (v.performAll actions).2.perform_cases act with ⟨-, e⟩ | ⟨a, hreach, -, -⟩
    · rw [e]
    · exact absurd (hal.reaches_iff.mp hreach) ((reply_eq_fault_iff hal act).mp h)
  case below =>
    intro c hc
    by_contra hne
    obtain ⟨act, -, -, rfl⟩ := exists_of_changed hne
    exact absurd (v.window.offset_le_place _ _) (Nat.not_le.mpr hc)
  case forward =>
    intro hpos
    refine ⟨fun i => ?_, fun act => ?_, fun c hc => ?_⟩
    · rw [get?_of_pos (by rw [hal.inc]; exact hpos), elem?, hal.place, place_of_pos hpos]
    · rw [reply_eq_fault_iff hal, reaches_iff_of_pos hpos, place_of_pos hpos, Nat.not_lt]
    · obtain ⟨act, hmem, hreach, rfl⟩ := exists_of_changed hc
      exact ⟨hreach.place_lt, act, hmem, place_of_pos hpos _⟩
  case backward =>
    intro hneg
    refine ⟨fun i hi => ?_, fun act => ?_, fun c hc => ?_⟩
    · have hreach := hal.reaches_iff.mpr ((reaches_iff_of_neg hv hneg).mpr hi)
      rw [hreach.get?_eq, elem?, hal.place, place_of_neg hneg]
    · rw [reply_eq_fault_iff hal, reaches_iff_of_neg hv hneg, UInt64.not_lt]
    · obtain ⟨act, hmem, hreach, rfl⟩ := exists_of_changed hc
      exact ⟨act, hmem, (reaches_iff_of_neg hv hneg).mp hreach, place_of_neg hneg _⟩

end Inside

end View

/-! ### Views of resolved windows -/

/-- The view through a window that was resolved for a buffer. -/
theorem exists_view_of_resolve {rule : LengthRule} {n : Option UInt64} {operands : List Operand}
    {r : Resolved} (hres : resolve rule n operands = some (.ok r)) {k : ℕ} {o : Operand}
    (ho : operands[k]? = some o) {b : Buffer α} (hb : b.len = o.len) :
    ∃ v, r.view? k b = some v ∧ v.buffer = b ∧ v.n = r.n ∧ r.windows[k]? = some v.window ∧
      v.Inside := by
  have hall := inside_of_resolve hres
  obtain ⟨hk, rfl⟩ := List.getElem?_eq_some_iff.mp ho
  have hk' : k < r.windows.length := by rw [← hall.length_eq]; exact hk
  have hw : r.windows[k]? = some r.windows[k] := List.getElem?_eq_getElem hk'
  have hin : r.windows[k].Inside r.n.toNat b.cells.size := by
    rw [← b.toNat_len, hb]
    exact hall.get hk hk'
  refine ⟨r.windows[k].view r.n b, ?_, rfl, rfl, hw, hin⟩
  simp [Resolved.view?, hw, Window.view?_eq hin]

/-- **The last write counts.** The view of a resolved window exists. After any actions on it, with
any numbers of elements, an element is read as the last write to it that did not fault has left it,
or as it was; actions on different elements do not affect each other; and no cell before the offset
has changed. With a positive increment an action faults exactly if its cell lies past the buffer, and
only cells a multiple of the increment after the offset change. With a negative one it faults exactly
if its element is past the length, and only cells of the window change. What is read and written are
cells of the buffer that the view was taken of. -/
theorem last_write_counts {rule : LengthRule} {n : Option UInt64} {operands : List Operand}
    {r : Resolved} (hres : resolve rule n operands = some (.ok r)) {k : ℕ} {o : Operand}
    (ho : operands[k]? = some o) (b : Buffer α) (hb : b.len = o.len) :
    ∃ v, r.view? k b = some v ∧ v.buffer = b ∧ v.n = r.n ∧ r.windows[k]? = some v.window ∧
      ∀ actions, v.Remembers actions (v.performAll actions).1 (v.performAll actions).2 := by
  obtain ⟨v, hview, hbuffer, hn, hwindow, hin⟩ := exists_view_of_resolve hres ho hb
  exact ⟨v, hview, hbuffer, hn, hwindow, hin.remembers⟩

/-- Four writes from the far end of three elements. The first element is set and then doubled, the
last one is set, and there is no fourth one. -/
theorem last_write_counts_backwards :
    ∃ (b : Buffer ℕ) (r : Resolved) (v w : View ℕ) (actions : List (Action ℕ)),
      b.cells = #[0, 1, 2, 3, 4, 5] ∧
      resolve .inclusive none [⟨"x", 6, ⟨some 1, some (-2)⟩⟩] = some (.ok r) ∧
      r.view? 0 b = some v ∧
      actions = [.set 0 10, .update 3 (· + 1), .update 0 (2 * ·), .set 2 7] ∧
      w = (v.performAll actions).2 ∧ (w.perform (.get 0)).1 = .value 20 ∧
      (w.perform (.get 1)).1 = .value 3 ∧ (w.perform (.get 2)).1 = .value 7 ∧
      (w.perform (.get 3)).1 = .fault := by
  let b : Buffer ℕ := ⟨#[0, 1, 2, 3, 4, 5], by decide⟩
  let actions : List (Action ℕ) := [.set 0 10, .update 3 (· + 1), .update 0 (2 * ·), .set 2 7]
  have hres : resolve .inclusive none [⟨"x", 6, ⟨some 1, some (-2)⟩⟩] =
      some (.ok ⟨3, [⟨1, -2⟩]⟩) := by decide
  obtain ⟨v, hview, -, -, -, hall⟩ := last_write_counts hres (k := 0) rfl b rfl
  have hv : v = ⟨b, 1, 3, -2⟩ := Option.some.inj (hview.symm.trans (if_pos (by decide)))
  have h := hall actions
  obtain ⟨-, hfault, -⟩ := h.backward (by rw [hv]; decide)
  have hread : ∀ i a, View.latest i (v.get? i) (v.performAll actions).1 = some a →
      ((v.performAll actions).2.perform (.get i)).1 = .value a := fun i a e => by
    rw [h.read i, e]
    rfl
  refine ⟨b, _, v, _, actions, rfl, hres, hview, rfl, rfl, hread 0 20 ?_, hread 1 3 ?_, hread 2 7 ?_,
    (hfault (.get 3)).mpr (by rw [hv]; decide)⟩
  · rw [hv]; decide
  · rw [hv]; decide
  · rw [hv]; decide

end Strided
