import Strided.Proofs.Locality
import Strided.Proofs.Mutation

/-! # Independent calls

A call reads and writes cells of the buffers that it names. If no cell that one call writes is read
or written by another, the two may be exchanged: each has the same answer in either order, and the
buffers end up the same. The windows of the two calls may well lie in one buffer, interleaved.

* `Call.reads`, `Call.writes`: the cells of a call on a store. They depend on the lengths of the
  buffers alone.
* `Call.run_frame`: a call keeps the cells that it does not write.
* `Call.run_congr`: on stores that agree on the cells that a call reads, it has the same answer and
  keeps equal cells equal.
* `Call.run_after`: a call after another one that writes nothing it reads.
* `Call.run_run_reschedule`: two calls under other schedules.
* `independent_calls_commute`: two such calls in either order. -/

namespace Strided

/-! ### Cells of a store -/

/-- The cells of `n` elements in a window, in logical order. -/
def Window.cells (w : Window) (n : ℕ) : List ℕ := (List.range n).map (w.place n)

theorem Window.place_mem_cells (w : Window) {n i : ℕ} (hi : i < n) : w.place n i ∈ w.cells n :=
  List.mem_map_of_mem (List.mem_range.mpr hi)

namespace Store

variable {α : Type} {s t u : Store α}

/-- The length of the buffer with a name. -/
def len? (s : Store α) (name : String) : Option UInt64 := (s.get? name).map Buffer.len

/-- The content of a cell, which is given by the name of its buffer and its number there. -/
def cell? (s : Store α) (c : String × ℕ) : Option α := (s.get? c.1).bind fun b => b.get? c.2

/-- The numbers of all cells of the buffer with a name. -/
def cellsOf (s : Store α) (name : String) : List ℕ :=
  List.range ((s.get? name).elim 0 fun b => b.cells.size)

/-- Two stores have buffers of the same lengths under the same names. -/
def SameShape (s t : Store α) : Prop := ∀ name, s.len? name = t.len? name

theorem SameShape.symm (h : s.SameShape t) : t.SameShape s := fun name => (h name).symm

theorem SameShape.trans (h : s.SameShape t) (h' : t.SameShape u) : s.SameShape u := fun name =>
  (h name).trans (h' name)

theorem SameShape.exists_get? (h : s.SameShape t) {name : String} {b : Buffer α}
    (hb : s.get? name = some b) : ∃ b', t.get? name = some b' ∧ b.len = b'.len := by
  have hname := h name
  unfold len? at hname
  rw [hb, Option.map_some] at hname
  obtain ⟨b', hb', hlen⟩ := Option.map_eq_some_iff.mp hname.symm
  exact ⟨b', hb', hlen.symm⟩

theorem cell?_of_get? {name : String} {b : Buffer α} (h : s.get? name = some b) (j : ℕ) :
    s.cell? (name, j) = b.get? j := by
  unfold cell?
  rw [h, Option.bind_some]

/-- Stores of the same shape with the same cells have the same buffers. -/
theorem get?_eq_of_cell? (hshape : s.SameShape t) (h : ∀ c, s.cell? c = t.cell? c)
    (name : String) : s.get? name = t.get? name := by
  cases hs : s.get? name with
  | none =>
    cases ht : t.get? name with
    | none => rfl
    | some b =>
      obtain ⟨_, hb, -⟩ := hshape.symm.exists_get? ht
      rw [hs] at hb
      cases hb
  | some b =>
    obtain ⟨b', hb', -⟩ := hshape.exists_get? hs
    rw [hb', Option.some.injEq]
    refine Buffer.ext_get? fun j => ?_
    rw [← cell?_of_get? hs, ← cell?_of_get? hb', h]

theorem len?_put (s : Store α) (x : String) (b : Buffer α) (name : String) :
    (s.put x b).len? name = if name = x then some b.len else s.len? name := by
  unfold len?
  rw [get?_put]
  split_ifs <;> rfl

theorem cell?_put (s : Store α) (x : String) (b : Buffer α) (name : String) (j : ℕ) :
    (s.put x b).cell? (name, j) = if name = x then b.get? j else s.cell? (name, j) := by
  unfold cell?
  rw [get?_put]
  split_ifs <;> rfl

theorem sameShape_put {x : String} {b b' : Buffer α} (hb : s.get? x = some b)
    (hlen : b'.len = b.len) : s.SameShape (s.put x b') := by
  intro name
  rw [len?_put]
  split_ifs with h
  · rw [h, len?, hb, Option.map_some, hlen]
  · rfl

end Store

/-! ### What a call reads and writes -/

namespace Call

variable {α ρ : Type}

/-- The buffers of a call with the cells of their windows, if its options resolve. -/
def spans (call : Call α ρ) (s : Store α) : List (String × List ℕ) :=
  match call.resolution? s with
  | some (.ok r) => List.zipWith (fun name w => (name, w.cells r.n.toNat)) call.names r.windows
  | _ => []

/-- The cells that a call reads: those of its windows, and all cells of its buffers if it returns
copies of them. -/
def reads (call : Call α ρ) (s : Store α) : List (String × ℕ) :=
  (call.spans s).flatMap fun e =>
    (if call.operation.copies then s.cellsOf e.1 else e.2).map fun j => (e.1, j)

/-- The cells that a call writes: those of its windows on arguments that are read and written. -/
def writes (call : Call α ρ) (s : Store α) : List (String × ℕ) :=
  (call.spans s).zipIdx.flatMap fun e =>
    if call.operation.role? e.2 = some .readWrite then e.1.2.map fun j => (e.1.1, j) else []

/-- A call on vectors whose buffers are there, no two of them the same. -/
structure Ready (call : Call α ρ) (s : Store α) : Prop where
  vectors : call.names ≠ []
  distinct : call.names.Nodup
  present : ∀ name ∈ call.names, ∃ b, s.get? name = some b

/-- No cell that one of two calls writes is read or written by the other. -/
structure Apart (first second : Call α ρ) (s : Store α) : Prop where
  left : ∀ c ∈ first.writes s, c ∉ second.reads s ∧ c ∉ second.writes s
  right : ∀ c ∈ second.writes s, c ∉ first.reads s ∧ c ∉ first.writes s

section Footprint
variable {call : Call α ρ} {s t : Store α}

theorem Ready.of_sameShape (h : call.Ready s) (hshape : s.SameShape t) : call.Ready t := by
  refine ⟨h.vectors, h.distinct, fun name hname => ?_⟩
  obtain ⟨b, hb⟩ := h.present name hname
  obtain ⟨b', hb', -⟩ := hshape.exists_get? hb
  exact ⟨b', hb'⟩

theorem resolution?_congr (hshape : s.SameShape t) : call.resolution? s = call.resolution? t := by
  have hbind : ∀ {β : Type} (name : String) (f : UInt64 → Option β),
      ((s.get? name).bind fun b => f b.len) = (t.get? name).bind fun b => f b.len := by
    intro β name f
    have hname := congrArg (fun l => Option.bind l f) (hshape name)
    simp only [Store.len?, Option.bind_map] at hname
    exact hname
  cases call with
  | scalars op => rfl
  | unary op x opts => exact hbind x fun l => resolveUnary op.operation.rule l opts
  | binary op x y opts =>
    refine (hbind x fun l => (s.get? y).bind fun b =>
      resolveBinary op.operation.rule l b.len opts).trans ?_
    exact congrArg (Option.bind (t.get? x)) (funext fun b => hbind y fun l =>
      resolveBinary op.operation.rule b.len l opts)

theorem writes_congr (hshape : s.SameShape t) : call.writes s = call.writes t := by
  unfold writes spans
  rw [resolution?_congr hshape]

theorem spans_unary {op : UnaryOp α ρ} {x : String} {opts : UnaryOptions} {b : Buffer α}
    {n : UInt64} {w : Window} (hb : s.get? x = some b)
    (hres : resolveUnary op.operation.rule b.len opts = some (.ok ⟨n, [w]⟩)) :
    (unary op x opts).spans s = [(x, w.cells n.toNat)] := by
  unfold spans
  rw [resolution?_unary hb, hres]
  rfl

theorem spans_binary {op : BinaryOp α ρ} {x y : String} {opts : BinaryOptions} {b c : Buffer α}
    {n : UInt64} {wx wy : Window} (hb : s.get? x = some b) (hc : s.get? y = some c)
    (hres : resolveBinary op.operation.rule b.len c.len opts = some (.ok ⟨n, [wx, wy]⟩)) :
    (binary op x y opts).spans s = [(x, wx.cells n.toNat), (y, wy.cells n.toNat)] := by
  unfold spans
  rw [resolution?_binary hb hc, hres]
  rfl

/-- A cell that is not written is no element of the window of an argument that is. -/
theorem place_ne_of_notMem_writes {name : String} {w : Window} {n k j : ℕ}
    (hspan : (call.spans s)[k]? = some (name, w.cells n))
    (hrole : call.operation.role? k = some .readWrite) (hj : (name, j) ∉ call.writes s) :
    ∀ i < n, w.place n i ≠ j := by
  rintro i hi rfl
  refine hj (List.mem_flatMap.mpr ⟨((name, w.cells n), k), ?_, ?_⟩)
  · exact List.mk_mem_zipIdx_iff_getElem?.mpr hspan
  · rw [if_pos hrole]
    exact List.mem_map_of_mem (w.place_mem_cells hi)

/-- Stores that agree on the cells that a call reads have the same elements in the window of an
argument, and the same buffer if copies are returned. -/
theorem agree_of_reads {name : String} {w : Window} {n : ℕ} {b b' : Buffer α}
    (hspan : (name, w.cells n) ∈ call.spans s) (hb : s.get? name = some b)
    (hb' : t.get? name = some b') (hlen : b.len = b'.len) (hin : w.Inside n b.cells.size)
    (hreads : ∀ c ∈ call.reads s, s.cell? c = t.cell? c) :
    SameElements n w w b b' ∧ (call.operation.copies → b = b') := by
  have hcell : ∀ j, (name, j) ∈ call.reads s → b.get? j = b'.get? j := by
    intro j hj
    rw [← Store.cell?_of_get? hb, ← Store.cell?_of_get? hb', hreads _ hj]
  by_cases hc : call.operation.copies
  · have hall : ∀ j < b.cells.size, b.get? j = b'.get? j := by
      intro j hj
      refine hcell j (List.mem_flatMap.mpr ⟨_, hspan, ?_⟩)
      rw [if_pos hc]
      exact List.mem_map_of_mem (by simpa [Store.cellsOf, hb] using hj)
    refine ⟨fun i hi => hall _ (hin.place_lt hi), fun _ => Buffer.ext_get? fun j => ?_⟩
    rcases Nat.lt_or_ge j b.cells.size with hj | hj
    · exact hall j hj
    · have hsize := size_eq_of_len hlen
      unfold Buffer.get?
      rw [Array.getElem?_eq_none hj, Array.getElem?_eq_none (by omega)]
  · refine ⟨fun i hi => hcell _ (List.mem_flatMap.mpr ⟨_, hspan, ?_⟩), fun h => absurd h hc⟩
    rw [if_neg hc]
    exact List.mem_map_of_mem (w.place_mem_cells hi)

end Footprint

/-! ### Running a call -/

section Run
variable [RealScalar ρ] [Element α ρ] {plan : Schedule} {s t : Store α}

theorem Ready.exists_run {call : Call α ρ} (h : call.Ready s) (plan : Schedule) :
    ∃ o, call.run plan s = some o := by
  cases call with
  | scalars op => exact absurd rfl h.vectors
  | unary op x opts =>
    obtain ⟨b, hb⟩ := h.present x (by simp [names])
    obtain ⟨p, hp⟩ := op.exists_run plan b opts
    exact ⟨_, run_unary_eq_some_iff.mpr ⟨b, p, hb, hp, rfl⟩⟩
  | binary op x y opts =>
    obtain ⟨b, hb⟩ := h.present x (by simp [names])
    obtain ⟨c, hc⟩ := h.present y (by simp [names])
    obtain ⟨p, hp⟩ := op.exists_run plan b c opts
    exact ⟨_, run_binary_eq_some_iff.mpr ⟨b, c, p, hb, hc, hp, rfl⟩⟩

/-- **The frame of a call.** The shape of the store is kept, and so is every cell that the call does
not write. -/
theorem run_frame {call : Call α ρ} (hready : call.Ready s) {o : Outcome (Store α) α ρ}
    (ho : call.run plan s = some o) :
    s.SameShape o.buffers ∧ ∀ c ∉ call.writes s, o.buffers.cell? c = s.cell? c := by
  cases call with
  | scalars op => exact absurd rfl hready.vectors
  | unary op x opts =>
    obtain ⟨b, p, hb, hp, rfl⟩ := run_unary_eq_some_iff.mp ho
    refine ⟨Store.sameShape_put hb (len_eq_of_size (UnaryOp.kept hp).size), ?_⟩
    rintro ⟨name, j⟩ hj
    rw [Store.cell?_put]
    split_ifs with hname
    · subst hname
      rw [Store.cell?_of_get? hb]
      refine UnaryOp.run_frame hp fun n w hres hrole => ?_
      have hspan : ((unary op name opts).spans s)[0]? = some (name, w.cells n.toNat) := by
        rw [spans_unary hb hres]
        rfl
      exact place_ne_of_notMem_writes hspan hrole hj
    · rfl
  | binary op x y opts =>
    obtain ⟨b, c, p, hb, hc, hp, rfl⟩ := run_binary_eq_some_iff.mp ho
    obtain ⟨hkx, hky⟩ := BinaryOp.kept hp
    have hxy : y ≠ x := by
      have := hready.distinct
      simp only [names, List.nodup_cons, List.mem_singleton] at this
      exact fun e => this.1 e.symm
    have hc' : (s.put x p.buffers.1).get? y = some c := by rw [Store.get?_put, if_neg hxy, hc]
    refine ⟨(Store.sameShape_put hb (len_eq_of_size hkx.size)).trans
      (Store.sameShape_put hc' (len_eq_of_size hky.size)), ?_⟩
    rintro ⟨name, j⟩ hj
    rw [Store.cell?_put, Store.cell?_put]
    split_ifs with hname hname'
    · subst hname
      rw [Store.cell?_of_get? hc]
      refine (BinaryOp.run_frame hp).2 fun n wx wy hres hrole => ?_
      have hspan : ((binary op x name opts).spans s)[1]? = some (name, wy.cells n.toNat) := by
        rw [spans_binary hb hc hres]
        rfl
      exact place_ne_of_notMem_writes hspan hrole hj
    · subst hname'
      rw [Store.cell?_of_get? hb]
      refine (BinaryOp.run_frame hp).1 fun n wx wy hres hrole => ?_
      have hspan : ((binary op name y opts).spans s)[0]? = some (name, wx.cells n.toNat) := by
        rw [spans_binary hb hc hres]
        rfl
      exact place_ne_of_notMem_writes hspan hrole hj
    · rfl

/-- **A call on two stores** of the same shape that agree on the cells that it reads: the answers
are the same, and cells that were equal stay equal. -/
theorem run_congr {call : Call α ρ} (hready : call.Ready s) (hshape : s.SameShape t)
    (hreads : ∀ c ∈ call.reads s, s.cell? c = t.cell? c) {o o' : Outcome (Store α) α ρ}
    (ho : call.run plan s = some o) (ho' : call.run plan t = some o') :
    o.answer = o'.answer ∧
      ∀ c, s.cell? c = t.cell? c → o.buffers.cell? c = o'.buffers.cell? c := by
  cases call with
  | scalars op => exact absurd rfl hready.vectors
  | unary op x opts =>
    obtain ⟨b, p, hb, hp, rfl⟩ := run_unary_eq_some_iff.mp ho
    obtain ⟨b', p', hb', hp', rfl⟩ := run_unary_eq_some_iff.mp ho'
    obtain ⟨_, e, hlen⟩ := hshape.exists_get? hb
    cases hb'.symm.trans e
    obtain ⟨hanswer, hcells⟩ := UnaryOp.run_congr hp hp' hlen fun n w hres =>
      agree_of_reads (by rw [spans_unary hb hres]; simp) hb hb' hlen
        (inside_of_resolveUnary hres) hreads
    refine ⟨hanswer, ?_⟩
    rintro ⟨name, j⟩ hj
    rw [Store.cell?_put, Store.cell?_put]
    split_ifs with hname
    · subst hname
      rw [Store.cell?_of_get? hb, Store.cell?_of_get? hb'] at hj
      exact hcells j hj
    · exact hj
  | binary op x y opts =>
    obtain ⟨b, c, p, hb, hc, hp, rfl⟩ := run_binary_eq_some_iff.mp ho
    obtain ⟨b', c', p', hb', hc', hp', rfl⟩ := run_binary_eq_some_iff.mp ho'
    obtain ⟨_, ex, hlx⟩ := hshape.exists_get? hb
    obtain ⟨_, ey, hly⟩ := hshape.exists_get? hc
    cases hb'.symm.trans ex
    cases hc'.symm.trans ey
    obtain ⟨hanswer, hfst, hsnd⟩ := BinaryOp.run_congr hp hp' hlx hly fun n wx wy hres => by
      have hspans := spans_binary hb hc hres
      obtain ⟨hwx, hwy⟩ := inside_of_resolveBinary hres
      obtain ⟨hsx, hcx⟩ := agree_of_reads (by rw [hspans]; simp) hb hb' hlx hwx hreads
      obtain ⟨hsy, hcy⟩ := agree_of_reads (by rw [hspans]; simp) hc hc' hly hwy hreads
      exact ⟨hsx, hsy, fun h => ⟨hcx h, hcy h⟩⟩
    refine ⟨hanswer, ?_⟩
    rintro ⟨name, j⟩ hj
    simp only [Store.cell?_put]
    split_ifs with hname hname'
    · subst hname
      rw [Store.cell?_of_get? hc, Store.cell?_of_get? hc'] at hj
      exact hsnd j hj
    · subst hname'
      rw [Store.cell?_of_get? hb, Store.cell?_of_get? hb'] at hj
      exact hfst j hj
    · exact hj

/-- **A call after another one** that writes nothing it reads. The answer is the one without the
other call. Cells that the other call does not write are as without it, and cells that the call
itself does not write are as the other call left them. -/
theorem run_after {plan' : Schedule} {first second : Call α ρ} (h₁ : first.Ready s)
    (h₂ : second.Ready s) (hapart : ∀ c ∈ first.writes s, c ∉ second.reads s)
    {o p : Outcome (Store α) α ρ} (ho : first.run plan s = some o)
    (hp : second.run plan' s = some p) :
    ∃ q, second.run plan' o.buffers = some q ∧ q.answer = p.answer ∧ s.SameShape q.buffers ∧
      (∀ c ∉ first.writes s, q.buffers.cell? c = p.buffers.cell? c) ∧
      ∀ c ∉ second.writes s, q.buffers.cell? c = o.buffers.cell? c := by
  obtain ⟨hshape, hkeep⟩ := run_frame h₁ ho
  have hready := h₂.of_sameShape hshape
  obtain ⟨q, hq⟩ := hready.exists_run plan'
  obtain ⟨hshape', hkeep'⟩ := run_frame hready hq
  have hreads : ∀ c ∈ second.reads s, s.cell? c = o.buffers.cell? c := fun c hc =>
    (hkeep c fun hw => hapart c hw hc).symm
  obtain ⟨hanswer, hcells⟩ := run_congr h₂ hshape hreads hp hq
  refine ⟨q, hq, hanswer.symm, hshape.trans hshape', fun c hc => ?_, fun c hc => ?_⟩
  · exact (hcells c (hkeep c hc).symm).symm
  · exact hkeep' c (by rw [← writes_congr hshape]; exact hc)

/-- **Two calls under other schedules** leave the same buffers. -/
theorem run_run_reschedule {plan' : Schedule} {first second : Call α ρ}
    {o p : Outcome (Store α) α ρ} (ho : first.run plan s = some o)
    (hp : second.run plan' o.buffers = some p) (other other' : Schedule) :
    ∃ q r, first.run other s = some q ∧ second.run other' q.buffers = some r ∧
      r.buffers = p.buffers := by
  obtain ⟨q, hq, hqo, -⟩ := run_reschedule other ho
  rw [← hqo] at hp
  obtain ⟨r, hr, hrp, -⟩ := run_reschedule other' hp
  exact ⟨q, r, hq, hr, hrp⟩

end Run

end Call

variable {α ρ : Type} [RealScalar ρ] [Element α ρ]

/-- **Independent calls commute.** Two calls on vectors run in either order; each has the same
answer in both orders, and every buffer ends up the same. Each call has its own schedule, and the two
answers of a call are compared with its sums grouped in the same way. The buffers end up the same
under any schedules. -/
theorem independent_calls_commute (plan plan' : Schedule) (first second : Call α ρ) (s : Store α)
    (h₁ : first.Ready s) (h₂ : second.Ready s) (h : first.Apart second s) :
    ∃ o p o' p', first.run plan s = some o ∧ second.run plan' o.buffers = some p ∧
      second.run plan' s = some p' ∧ first.run plan p'.buffers = some o' ∧
      o.answer = o'.answer ∧ p.answer = p'.answer ∧
      (∀ name, p.buffers.get? name = o'.buffers.get? name) ∧
      ∀ other other' : Schedule,
        (∃ q r, first.run other s = some q ∧ second.run other' q.buffers = some r ∧
          r.buffers = p.buffers) ∧
        ∃ q r, second.run other' s = some q ∧ first.run other q.buffers = some r ∧
          r.buffers = o'.buffers := by
  obtain ⟨o, ho⟩ := h₁.exists_run plan
  obtain ⟨p', hp'⟩ := h₂.exists_run plan'
  obtain ⟨p, hp, hanswer, hshape, hother, hown⟩ :=
    Call.run_after h₁ h₂ (fun c hc => (h.left c hc).1) ho hp'
  obtain ⟨o', ho', hanswer', hshape', hother', hown'⟩ :=
    Call.run_after h₂ h₁ (fun c hc => (h.right c hc).1) hp' ho
  refine ⟨o, p, o', p', ho, hp, hp', ho', hanswer'.symm, hanswer, ?_, fun other other' =>
    ⟨Call.run_run_reschedule ho hp other other', Call.run_run_reschedule hp' ho' other' other⟩⟩
  refine Store.get?_eq_of_cell? (hshape.symm.trans hshape') fun c => ?_
  by_cases hc : c ∈ first.writes s
  · have hc' := (h.left c hc).2
    rw [hown c hc', hother' c hc']
  · rw [hother c hc, hown' c hc]

/-- The even cells of `x` are scaled; its odd cells, read backwards, are exchanged with `y`. -/
theorem independent_calls_commute_interleaved :
    ∃ (first second : Call Float Float) (s : Store Float) (o p o' p' : Outcome (Store Float) _ _),
      first = .unary (.scal 2) "x" ⟨some 3, ⟨none, some 2⟩⟩ ∧
      second = .binary .swap "x" "y" ⟨some 3, ⟨some 1, some (-2)⟩, {}⟩ ∧
      s.map (fun e => (e.1, e.2.cells)) = [("x", #[1, 2, 3, 4, 5, 6]), ("y", #[7, 8, 9])] ∧
      first.writes s = [("x", 0), ("x", 2), ("x", 4)] ∧
      second.writes s = [("x", 5), ("x", 3), ("x", 1), ("y", 0), ("y", 1), ("y", 2)] ∧
      first.run .sequential s = some o ∧ second.run .sequential o.buffers = some p ∧
      second.run .sequential s = some p' ∧ first.run .sequential p'.buffers = some o' ∧
      o.answer = o'.answer ∧ p.answer = p'.answer ∧
      (∀ name, p.buffers.get? name = o'.buffers.get? name) ∧
      ∃ q r, first.run .standard s = some q ∧ second.run .sequential q.buffers = some r ∧
        r.buffers = p.buffers := by
  let s : Store Float := [("x", ⟨#[1, 2, 3, 4, 5, 6], by decide⟩), ("y", ⟨#[7, 8, 9], by decide⟩)]
  have hx : ∃ b, s.get? "x" = some b := ⟨_, rfl⟩
  have hy : ∃ b, s.get? "y" = some b := ⟨_, rfl⟩
  obtain ⟨o, p, o', p', ho, hp, hp', ho', ha, ha', hb, hother⟩ := independent_calls_commute
    (α := Float) .sequential .sequential
    (.unary (.scal 2) "x" ⟨some 3, ⟨none, some 2⟩⟩)
    (.binary .swap "x" "y" ⟨some 3, ⟨some 1, some (-2)⟩, {}⟩) s
    ⟨by decide, by decide, by simpa [Call.names] using hx⟩
    ⟨by decide, by decide, by simpa [Call.names] using ⟨hx, hy⟩⟩
    ⟨by decide, by decide⟩
  exact ⟨_, _, s, o, p, o', p', rfl, rfl, rfl, rfl, rfl, ho, hp, hp', ho', ha, ha', hb,
    (hother .standard .sequential).1⟩

end Strided
