import Mathlib.Algebra.Order.Group.Unbundled.Int
import Mathlib.Data.List.Forall2
import Strided.Proofs.Place

/-! # What the resolver accepts

The resolver computes in words and refuses what no word holds. Counted in the integers it accepts
exactly the windows that lie inside their buffers.

* `Operand.window_eq_ok_iff`: the first check accepts a nonzero increment and an offset inside the
  buffer.
* `LengthRule.defaultLength?_eq`: the default length, which always exists for such an offset.
* `Window.fits_iff`: the last check is the exact inequality, also where its sum is not a word.
* `resolve_eq_ok_iff`, `exists_resolve`: the outcomes of the resolver.
* `inside_of_resolve`: the windows that it gives lie inside the buffers. -/

namespace Strided

/-! ### The checks of one operand -/

namespace Operand

/-- The increment that an operand asks for. -/
def increment (o : Operand) : ℤ := (o.opts.inc.getD 1).toInt

/-- The offset that an operand asks for. -/
def start (o : Operand) : ℤ := (o.opts.offset.getD 0).toInt

/-- The increment is not zero, and the offset is the number of a cell. -/
structure Valid (o : Operand) : Prop where
  increment_ne : o.increment ≠ 0
  start_nonneg : 0 ≤ o.start
  start_lt : o.start < o.len.toNat

/-- A window has the offset and the increment that an operand asks for. -/
structure Asks (o : Operand) (w : Window) : Prop where
  offset : (w.offset.toNat : ℤ) = o.start
  inc : w.inc.toInt = o.increment

end Operand

theorem toInt_eq_zero_iff {i : Int64} : i.toInt = 0 ↔ i = 0 := by
  rw [← Int64.toInt_inj]
  exact Iff.rfl

theorem checkIncrement_eq_ok_iff {arg : String} {inc : Option Int64} {i : Int64} :
    checkIncrement arg inc = .ok i ↔ inc.getD 1 ≠ 0 ∧ i = inc.getD 1 := by
  unfold checkIncrement
  split_ifs with h
  · simp [h]
  · simp [h, eq_comm]

theorem checkOffset_eq_ok_iff {arg : String} {offset : Option Int64} {len c : UInt64} :
    checkOffset arg offset len = .ok c ↔
      (c.toNat : ℤ) = (offset.getD 0).toInt ∧ c.toNat < len.toNat := by
  rw [← Word.ofSigned?_eq_some_iff, ← UInt64.lt_iff_toNat_lt]
  unfold checkOffset
  cases h : Word.ofSigned? (offset.getD 0) with
  | none => simp
  | some d =>
    by_cases hd : d < len
    · simp only [Option.filter, hd, decide_true, if_true, Except.ok.injEq, Option.some.injEq]
      constructor
      · rintro rfl; exact ⟨rfl, hd⟩
      · rintro ⟨e, -⟩; exact e
    · simp only [Option.filter, hd, decide_false, Bool.false_eq_true, if_false, reduceCtorEq,
        Option.some.injEq, false_iff]
      rintro ⟨rfl, hc⟩
      exact hd hc

theorem bind_eq_ok_iff {ε β γ : Type} {x : Except ε β} {f : β → Except ε γ} {c : γ} :
    x >>= f = .ok c ↔ ∃ b, x = .ok b ∧ f b = .ok c := by
  cases x <;> simp [bind, Except.bind]

namespace Operand

/-- **The window of an operand** is the one that is asked for, unless it is refused. -/
theorem window_eq_ok_iff {o : Operand} {w : Window} : o.window = .ok w ↔ o.Valid ∧ o.Asks w := by
  have hok : o.window = .ok w ↔
      checkIncrement o.name o.opts.inc = .ok w.inc ∧
        checkOffset o.name o.opts.offset o.len = .ok w.offset := by
    unfold window
    simp only [bind_eq_ok_iff, pure, Except.pure, Except.ok.injEq]
    constructor
    · rintro ⟨_, hi, _, ho, rfl⟩; exact ⟨hi, ho⟩
    · rintro ⟨hi, ho⟩; exact ⟨_, hi, _, ho, rfl⟩
  rw [hok, checkIncrement_eq_ok_iff, checkOffset_eq_ok_iff]
  constructor
  · rintro ⟨⟨hne, hi⟩, ho, hlt⟩
    have hstart : (w.offset.toNat : ℤ) = o.start := ho
    refine ⟨⟨?_, by omega, by omega⟩, hstart, congrArg Int64.toInt hi⟩
    exact fun h => hne (toInt_eq_zero_iff.mp h)
  · rintro ⟨⟨hne, h0, hlt⟩, ho, hi⟩
    refine ⟨⟨fun h => hne (toInt_eq_zero_iff.mpr h), Int64.toInt_inj.mp hi⟩, ho, by omega⟩

theorem Valid.exists_window {o : Operand} (h : o.Valid) : ∃ w, o.window = .ok w := by
  have hs : o.start < 2 ^ 63 := Int64.toInt_lt _
  have h0 := h.start_nonneg
  refine ⟨⟨UInt64.ofNat o.start.toNat, o.opts.inc.getD 1⟩, window_eq_ok_iff.mpr ⟨h, ?_, rfl⟩⟩
  rw [UInt64.toNat_ofNat_of_lt' (by unfold UInt64.size; omega)]
  omega

theorem Valid.inc_ne {o : Operand} {w : Window} (hv : o.Valid) (ha : o.Asks w) : w.inc ≠ 0 :=
  fun e => hv.increment_ne (by rw [← ha.inc, e]; rfl)

end Operand

/-! ### The default length -/

namespace LengthRule

/-- The default length in the integers, for a buffer with `room` cells from the offset on. -/
def exact (rule : LengthRule) (room step : ℤ) : ℤ :=
  match rule with
  | inclusive => (room - 1) / step + 1
  | exclusive => room / step

/-- **The default length** exists for every offset inside the buffer. -/
theorem defaultLength?_eq (rule : LengthRule) {len offset : UInt64} {inc : Int64}
    (hoff : offset.toNat < len.toNat) (hinc : inc ≠ 0) :
    ∃ n, rule.defaultLength? len offset inc = some n ∧
      (n.toNat : ℤ) = rule.exact (len.toNat - offset.toNat) |inc.toInt| := by
  have hpos := natAbs_pos hinc
  have hlen := len.toNat_lt_size
  have habs : |inc.toInt| = (inc.toInt.natAbs : ℤ) := (Int.natCast_natAbs _).symm
  have hof : ∀ {k : ℕ}, k ≤ len.toNat → (UInt64.ofNat k).toNat = k := fun hk =>
    UInt64.toNat_ofNat_of_lt' (by omega)
  set room := len.toNat - offset.toNat with hroom
  have e1 : Word.sub? len offset = some (UInt64.ofNat room) := by
    rw [Word.sub?_eq_some_iff, hof (by omega)]; omega
  cases rule with
  | inclusive =>
    have hle : (room - 1) / inc.toInt.natAbs ≤ room - 1 := Nat.div_le_self _ _
    have e2 : Word.sub? (UInt64.ofNat room) 1 = some (UInt64.ofNat (room - 1)) := by
      rw [Word.sub?_eq_some_iff, hof (by omega), hof (by omega)]
      have h1 : (1 : UInt64).toNat = 1 := rfl
      omega
    have e3 : Word.div? (UInt64.ofNat (room - 1)) (Word.magnitude inc) =
        some (UInt64.ofNat ((room - 1) / inc.toInt.natAbs)) := by
      rw [Word.div?_eq_some_iff, Word.toNat_magnitude, hof (by omega), hof (by omega)]
      exact ⟨hpos, rfl⟩
    have e4 : Word.add? (UInt64.ofNat ((room - 1) / inc.toInt.natAbs)) 1 =
        some (UInt64.ofNat ((room - 1) / inc.toInt.natAbs + 1)) := by
      rw [Word.add?_eq_some_iff, hof (by omega), hof (by omega)]
      rfl
    refine ⟨UInt64.ofNat ((room - 1) / inc.toInt.natAbs + 1), ?_, ?_⟩
    · simp only [defaultLength?, e1, e2, e3, e4, Option.bind_eq_bind, Option.bind_some]
    · rw [hof (by omega), habs, exact]
      have : ((len.toNat : ℤ) - offset.toNat - 1) = ((room - 1 : ℕ) : ℤ) := by omega
      rw [this]
      rfl
  | exclusive =>
    have hle : room / inc.toInt.natAbs ≤ room := Nat.div_le_self _ _
    have e2 : Word.div? (UInt64.ofNat room) (Word.magnitude inc) =
        some (UInt64.ofNat (room / inc.toInt.natAbs)) := by
      rw [Word.div?_eq_some_iff, Word.toNat_magnitude, hof (by omega), hof (by omega)]
      exact ⟨hpos, rfl⟩
    refine ⟨UInt64.ofNat (room / inc.toInt.natAbs), ?_, ?_⟩
    · simp only [defaultLength?, e1, e2, Option.bind_eq_bind, Option.bind_some]
    · rw [hof (by omega), habs, exact]
      have : ((len.toNat : ℤ) - offset.toNat) = (room : ℤ) := by omega
      rw [this]
      rfl

end LengthRule

/-! ### The extent of a window -/

/-- **The check of the extent is exact.** A product that is no word exceeds every length, and a
difference that would be negative is at most every product. -/
theorem Window.fits_iff {w : Window} {n len : UInt64} :
    w.fits n len ↔ n.toNat = 0 ∨ w.last n.toNat < len.toNat := by
  have hlen := len.toNat_lt_size
  have h0 : (0 : UInt64).toNat = 0 := rfl
  have h1 : (1 : UInt64).toNat = 1 := rfl
  unfold fits last
  by_cases hn : n = 0
  · simp [hn]
  have hpos : n.toNat ≠ 0 := fun h => hn (UInt64.toNat_inj.mp h)
  have hpred : (n - 1).toNat = n.toNat - 1 := by
    rw [UInt64.toNat_sub_of_le _ _ (UInt64.le_iff_toNat_le.mpr (by omega)), h1]
  simp only [beq_eq_false_iff_ne.mpr hn, Bool.false_or, hpos, false_or]
  cases hm : Word.mul? (n - 1) (Word.magnitude w.inc) with
  | none =>
    have hbig : UInt64.size ≤ (n.toNat - 1) * w.inc.toInt.natAbs := by
      by_contra hlt
      have := (Word.mul?_eq_some_iff (a := n - 1) (b := Word.magnitude w.inc)
        (c := UInt64.ofNat ((n.toNat - 1) * w.inc.toInt.natAbs))).mpr (by
          rw [UInt64.toNat_ofNat_of_lt' (by omega), hpred, Word.toNat_magnitude])
      rw [hm] at this
      cases this
    simp only [Option.any_none, Bool.false_eq_true, false_iff]
    omega
  | some c =>
    have hc := Word.mul?_eq_some_iff.mp hm
    rw [hpred, Word.toNat_magnitude] at hc
    simp only [Option.any_some, decide_eq_true_eq, UInt64.lt_iff_toNat_lt, Word.toNat_monus]
    omega

theorem Window.checkExtent_eq_ok_iff {w : Window} (arg : String) {n len : UInt64} :
    w.checkExtent arg n len = .ok () ↔ w.fits n len := by
  unfold checkExtent
  split_ifs with hf <;> simp [hf]

/-- The last cell in the integers. -/
theorem Window.natCast_last (w : Window) {n : ℕ} (hn : n ≠ 0) :
    (w.last n : ℤ) = w.offset.toNat + ((n : ℤ) - 1) * |w.inc.toInt| := by
  have hpred : ((n - 1 : ℕ) : ℤ) = (n : ℤ) - 1 := by omega
  unfold last
  rw [Int.natCast_add, Int.natCast_mul, hpred, Int.natCast_natAbs]

/-! ### All operands -/

theorem mapM_eq_ok_iff {ε β γ : Type} {f : β → Except ε γ} : ∀ {l : List β} {l' : List γ},
    l.mapM f = .ok l' ↔ List.Forall₂ (fun b c => f b = .ok c) l l'
  | [], l' => by
    rw [List.mapM_nil, List.forall₂_nil_left_iff]
    exact ⟨fun h => by cases h; rfl, fun h => by rw [h]; rfl⟩
  | b :: l, l' => by
    rw [List.mapM_cons, bind_eq_ok_iff, List.forall₂_cons_left_iff]
    constructor
    · rintro ⟨c, hc, h⟩
      obtain ⟨cs, hcs, h⟩ := bind_eq_ok_iff.mp h
      cases h
      exact ⟨c, cs, hc, mapM_eq_ok_iff.mp hcs, rfl⟩
    · rintro ⟨c, cs, hc, hcs, rfl⟩
      exact ⟨c, hc, bind_eq_ok_iff.mpr ⟨cs, mapM_eq_ok_iff.mpr hcs, rfl⟩⟩

theorem checkExtents_eq_ok_iff {n : UInt64} : ∀ {operands : List Operand} {windows : List Window},
    operands.length = windows.length →
      (checkExtents n operands windows = .ok () ↔
        List.Forall₂ (fun o w => w.fits n o.len) operands windows)
  | [], [], _ => by simp [checkExtents, pure, Except.pure]
  | o :: operands, w :: windows, h => by
    have ih := checkExtents_eq_ok_iff (n := n) (Nat.succ.inj h)
    have hcons : checkExtents n (o :: operands) (w :: windows) =
        w.checkExtent o.name n o.len >>= fun _ => checkExtents n operands windows := rfl
    rw [List.forall₂_cons, ← ih, ← Window.checkExtent_eq_ok_iff o.name, hcons, bind_eq_ok_iff]
    exact ⟨fun ⟨(), h1, h2⟩ => ⟨h1, h2⟩, fun ⟨h1, h2⟩ => ⟨(), h1, h2⟩⟩

/-- The common length in the integers: the given one, else the default length of the first operand,
else zero. -/
def exactLength (rule : LengthRule) (n : Option UInt64) (operands : List Operand) : ℤ :=
  match n, operands with
  | some n, _ => n.toNat
  | none, o :: _ => rule.exact (o.len.toNat - o.start) |o.increment|
  | none, [] => 0

theorem commonLength?_eq (rule : LengthRule) (n : Option UInt64) {operands : List Operand}
    {windows : List Window} (h : List.Forall₂ (fun o w => o.Valid ∧ o.Asks w) operands windows) :
    ∃ m, commonLength? rule n operands windows = some m ∧
      (m.toNat : ℤ) = exactLength rule n operands := by
  cases n with
  | some n => exact ⟨n, rfl, rfl⟩
  | none =>
    cases h with
    | nil => exact ⟨0, rfl, rfl⟩
    | @cons o w os ws how _ =>
      obtain ⟨hvalid, hasks⟩ := how
      have hlt := hvalid.start_lt
      have hoff := hasks.offset
      obtain ⟨m, hm, hexact⟩ := rule.defaultLength?_eq (show w.offset.toNat < o.len.toNat by omega)
        (hvalid.inc_ne hasks)
      rw [hoff, hasks.inc] at hexact
      exact ⟨m, hm, hexact⟩

theorem mapM_window_eq_ok_iff {operands : List Operand} {windows : List Window} :
    operands.mapM Operand.window = .ok windows ↔
      List.Forall₂ (fun o w => o.Valid ∧ o.Asks w) operands windows := by
  simp only [mapM_eq_ok_iff, Operand.window_eq_ok_iff]

theorem exists_windows : ∀ {operands : List Operand}, (∀ o ∈ operands, o.Valid) →
    ∃ windows, List.Forall₂ (fun o w => o.Valid ∧ o.Asks w) operands windows
  | [], _ => ⟨[], List.Forall₂.nil⟩
  | o :: operands, h => by
    obtain ⟨w, hw⟩ := (h o (by simp)).exists_window
    obtain ⟨windows, hws⟩ := exists_windows fun o' (ho' : o' ∈ operands) => h o' (by simp [ho'])
    exact ⟨w :: windows, List.Forall₂.cons (Operand.window_eq_ok_iff.mp hw) hws⟩

theorem map_windows_eq {operands : List Operand} {windows : List Window}
    (h : List.Forall₂ (fun o w => o.Valid ∧ o.Asks w) operands windows) :
    windows.map (fun w => ((w.offset.toNat : ℤ), w.inc.toInt)) =
      operands.map fun o => (o.start, o.increment) := by
  induction h with
  | nil => rfl
  | cons how _ ih => rw [List.map_cons, List.map_cons, ih, how.2.offset, how.2.inc]

section Resolve
variable {rule : LengthRule} {n : Option UInt64} {operands : List Operand}

/-- **A resolution**: the windows that are asked for, the common length, and every window fits. -/
theorem resolve_eq_ok_iff {r : Resolved} : resolve rule n operands = some (.ok r) ↔
    List.Forall₂ (fun o w => o.Valid ∧ o.Asks w) operands r.windows ∧
      commonLength? rule n operands r.windows = some r.n ∧
      List.Forall₂ (fun o w => w.fits r.n o.len) operands r.windows := by
  unfold resolve
  constructor
  · intro h
    split at h
    · cases h
    next windows hw =>
      have hws := mapM_window_eq_ok_iff.mp hw
      split at h
      · cases h
      next m hm =>
        split at h
        · cases h
        next he =>
          cases h
          exact ⟨hws, hm, (checkExtents_eq_ok_iff hws.length_eq).mp he⟩
  · rintro ⟨hws, hm, he⟩
    rw [mapM_window_eq_ok_iff.mpr hws]
    simp only [hm, (checkExtents_eq_ok_iff hws.length_eq).mpr he]

/-- The resolver always has an outcome: the default length is only computed for windows that passed
the first checks. -/
theorem exists_resolve (rule : LengthRule) (n : Option UInt64) (operands : List Operand) :
    ∃ outcome, resolve rule n operands = some outcome := by
  unfold resolve
  split
  · exact ⟨_, rfl⟩
  next windows hw =>
    obtain ⟨m, hm, -⟩ := commonLength?_eq rule n (mapM_window_eq_ok_iff.mp hw)
    rw [hm]
    simp only
    split <;> exact ⟨_, rfl⟩

/-- **Resolved windows lie inside their buffers.** -/
theorem inside_of_resolve {r : Resolved} (h : resolve rule n operands = some (.ok r)) :
    List.Forall₂ (fun o w => w.Inside r.n.toNat o.len.toNat) operands r.windows := by
  obtain ⟨hws, -, hfits⟩ := resolve_eq_ok_iff.mp h
  refine List.Forall₂.mp (fun o w how hf => ?_) hws hfits
  obtain ⟨hvalid, hasks⟩ := how
  have hlt := hvalid.start_lt
  have hoff := hasks.offset
  refine ⟨hvalid.inc_ne hasks, by omega, fun hn => ?_⟩
  exact (Window.fits_iff.mp hf).resolve_left hn

/-- What the resolver accepts: every increment is nonzero, every offset is the number of a cell, and
if there is an element, every window ends inside its buffer. All numbers are integers. -/
structure Admissible (rule : LengthRule) (n : Option UInt64) (operands : List Operand) : Prop where
  increment_ne : ∀ o ∈ operands, o.increment ≠ 0
  start_mem : ∀ o ∈ operands, 0 ≤ o.start ∧ o.start < o.len.toNat
  extent : exactLength rule n operands = 0 ∨
    ∀ o ∈ operands, o.start + (exactLength rule n operands - 1) * |o.increment| < o.len.toNat

theorem Admissible.valid (h : Admissible rule n operands) : ∀ o ∈ operands, o.Valid := fun o ho =>
  ⟨h.increment_ne o ho, (h.start_mem o ho).1, (h.start_mem o ho).2⟩

/-- A window that is asked for ends where the operand says. -/
theorem Operand.Asks.last_eq {o : Operand} {w : Window} (ha : o.Asks w) {m : ℕ} (hm : m ≠ 0) :
    (w.last m : ℤ) = o.start + ((m : ℤ) - 1) * |o.increment| := by
  rw [w.natCast_last hm, ha.offset, ha.inc]

theorem length_of_resolve {r : Resolved} (h : resolve rule n operands = some (.ok r)) :
    (r.n.toNat : ℤ) = exactLength rule n operands := by
  obtain ⟨hws, hcommon, -⟩ := resolve_eq_ok_iff.mp h
  obtain ⟨m, hm, hexact⟩ := commonLength?_eq rule n hws
  obtain rfl : r.n = m := Option.some.inj (hcommon.symm.trans hm)
  exact hexact

theorem Admissible.exists_resolve_ok (h : Admissible rule n operands) :
    ∃ r, resolve rule n operands = some (.ok r) := by
  obtain ⟨windows, hws⟩ := exists_windows h.valid
  obtain ⟨m, hm, hexact⟩ := commonLength?_eq rule n hws
  refine ⟨⟨m, windows⟩, resolve_eq_ok_iff.mpr ⟨hws, hm, ?_⟩⟩
  refine List.forall₂_iff_zip.mpr ⟨hws.length_eq, fun {o w} hmem => Window.fits_iff.mpr ?_⟩
  change m.toNat = 0 ∨ w.last m.toNat < o.len.toNat
  rcases Nat.eq_zero_or_pos m.toNat with h0 | hpos
  · exact Or.inl h0
  · have hlast := (List.forall₂_zip hws hmem).2.last_eq hpos.ne'
    have hlt := (h.extent.resolve_left (by omega)) o (List.of_mem_zip hmem).1
    rw [← hexact] at hlt
    right; omega

theorem admissible_of_resolve {r : Resolved} (h : resolve rule n operands = some (.ok r)) :
    Admissible rule n operands := by
  have hlen := length_of_resolve h
  obtain ⟨hws, -, hfits⟩ := resolve_eq_ok_iff.mp h
  have hboth : ∀ o ∈ operands, ∃ w, (o.Valid ∧ o.Asks w) ∧ w.fits r.n o.len := by
    intro o ho
    obtain ⟨i, hi, rfl⟩ := List.getElem_of_mem ho
    have hi' : i < r.windows.length := by rw [← hws.length_eq]; exact hi
    exact ⟨r.windows[i], hws.get hi hi', hfits.get hi hi'⟩
  refine ⟨fun o ho => ?_, fun o ho => ?_, ?_⟩
  · obtain ⟨w, ⟨hvalid, -⟩, -⟩ := hboth o ho
    exact hvalid.increment_ne
  · obtain ⟨w, ⟨hvalid, -⟩, -⟩ := hboth o ho
    exact ⟨hvalid.start_nonneg, hvalid.start_lt⟩
  · rcases Nat.eq_zero_or_pos r.n.toNat with h0 | hpos
    · left; omega
    · right
      intro o ho
      obtain ⟨w, ⟨-, hasks⟩, hf⟩ := hboth o ho
      have hlast := hasks.last_eq hpos.ne'
      have hlt := (Window.fits_iff.mp hf).resolve_left hpos.ne'
      rw [← hlen]
      omega

end Resolve

/-- **The resolver is exact.** It always has an outcome; it accepts exactly the admissible options;
and what it gives is the exact length with the offset and the increment of every operand, in
order. -/
theorem resolve_exact (rule : LengthRule) (n : Option UInt64) (operands : List Operand) :
    (∃ outcome, resolve rule n operands = some outcome) ∧
      ((∃ r, resolve rule n operands = some (.ok r)) ↔ Admissible rule n operands) ∧
      ∀ r, resolve rule n operands = some (.ok r) →
        (r.n.toNat : ℤ) = exactLength rule n operands ∧
          r.windows.map (fun w => ((w.offset.toNat : ℤ), w.inc.toInt)) =
            operands.map fun o => (o.start, o.increment) := by
  refine ⟨exists_resolve rule n operands, ?_, fun r hr => ⟨length_of_resolve hr, ?_⟩⟩
  · exact ⟨fun ⟨_, hr⟩ => admissible_of_resolve hr, Admissible.exists_resolve_ok⟩
  · exact map_windows_eq (resolve_eq_ok_iff.mp hr).1

/-- Two operands, the first with the least increment there is and room for a second element after
it, the second one read backwards up to its last cell. -/
theorem resolve_exact_of_least_increment : ∃ operands r,
    operands = [⟨"x", 9223372036854775813, ⟨some 4, some Int64.minValue⟩⟩,
      ⟨"y", 5, ⟨some 1, some (-3)⟩⟩] ∧
    resolve .inclusive none operands = some (.ok r) ∧ r.n = 2 ∧
      (r.n.toNat : ℤ) = exactLength .inclusive none operands ∧
      r.windows.map (fun w => ((w.offset.toNat : ℤ), w.inc.toInt)) =
        operands.map fun o => (o.start, o.increment) :=
  ⟨_, ⟨2, [⟨4, Int64.minValue⟩, ⟨1, -3⟩]⟩, rfl, by decide, rfl,
    (resolve_exact _ _ _).2.2 _ (by decide)⟩

end Strided
