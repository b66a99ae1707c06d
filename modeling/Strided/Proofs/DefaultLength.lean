import Mathlib.Data.Nat.Basic
import Strided.Proofs.Refusal
import Strided.Proofs.Succession

/-! # Options that are left out

A call may leave out its length, its offsets and its increments. The length that is then found for
the first vector is the largest one that its buffer holds, or one less, so that the first vector is
never the one that is too short. What the options come to may as well be spelled out: the resolver
gives the same windows for it, under either rule, and the call has the same outcome.

* `LengthRule.Defaults`: the two default lengths of one vector; `exists_defaults`: every vector with
  an offset inside its buffer has them.
* `Operand.not_short_exact`: a valid operand holds its own default length.
* `Window.options`: a window as explicit options; `resolve_spelled`: they resolve to that window.
* `UnaryOp.run_spelled`, `BinaryOp.run_spelled`: the calls.
* `spelled_out_defaults`: all of this together. -/

namespace Strided

/-! ### The two default lengths -/

section Arithmetic
variable {room : ℕ}

/-- How many elements fit, in the natural numbers: the last of them lies `(k - 1) * step` cells
after the first. -/
theorem span_lt_iff {step k : ℕ} (hroom : 0 < room) (hstep : 0 < step) :
    k = 0 ∨ (k - 1) * step < room ↔ k ≤ (room - 1) / step + 1 := by
  rw [← Nat.sub_le_iff_le_add, Nat.le_div_iff_mul_le hstep]
  constructor
  · rintro (rfl | hlt)
    · simp
    · omega
  · intro hle
    omega

/-- The exclusive rule finds one element less, unless the room is a whole number of steps. -/
theorem div_add_eq (step : ℕ) (hroom : 0 < room) :
    room / step + (if step ∣ room then 0 else 1) = (room - 1) / step + 1 := by
  have hsucc : room / step = (room - 1) / step + if step ∣ room then 1 else 0 := by
    have := Nat.succ_div (a := room - 1) (b := step)
    rwa [Nat.sub_add_cancel hroom] at this
  rw [hsucc]
  split_ifs
  · rfl
  · rfl

end Arithmetic

namespace LengthRule

/-- The default lengths `n` of the inclusive and `m` of the exclusive rule. -/
structure Defaults (len offset : UInt64) (inc : Int64) (n m : UInt64) : Prop where
  inclusive_eq : inclusive.defaultLength? len offset inc = some n
  exclusive_eq : exclusive.defaultLength? len offset inc = some m
  one_le : 1 ≤ n
  /-- The inclusive rule gives the largest length that the check of the extent accepts. -/
  largest : ∀ arg k, (⟨offset, inc⟩ : Window).checkExtent arg k len = .ok () ↔ k ≤ n
  eq_of_dvd : inc.toInt.natAbs ∣ len.toNat - offset.toNat → m = n
  succ_eq_of_not_dvd : ¬ inc.toInt.natAbs ∣ len.toNat - offset.toNat → m + 1 = n
  eq_zero_iff : m = 0 ↔ len.toNat - offset.toNat < inc.toInt.natAbs

section Defaults
variable {len offset : UInt64} {inc : Int64}

theorem exists_inclusive (hoff : offset < len) (hinc : inc ≠ 0) :
    ∃ n, inclusive.defaultLength? len offset inc = some n ∧
      n.toNat = (len.toNat - offset.toNat - 1) / inc.toInt.natAbs + 1 := by
  have hlt := UInt64.lt_iff_toNat_lt.mp hoff
  obtain ⟨n, hn, hexact⟩ := inclusive.defaultLength?_eq hlt hinc
  have hroom : (len.toNat : ℤ) - offset.toNat - 1 = (len.toNat - offset.toNat - 1 : ℕ) := by omega
  rw [exact, hroom, ← Int.natCast_natAbs] at hexact
  exact ⟨n, hn, by exact_mod_cast hexact⟩

theorem exists_exclusive (hoff : offset < len) (hinc : inc ≠ 0) :
    ∃ m, exclusive.defaultLength? len offset inc = some m ∧
      m.toNat = (len.toNat - offset.toNat) / inc.toInt.natAbs := by
  have hlt := UInt64.lt_iff_toNat_lt.mp hoff
  obtain ⟨m, hm, hexact⟩ := exclusive.defaultLength?_eq hlt hinc
  have hroom : (len.toNat : ℤ) - offset.toNat = (len.toNat - offset.toNat : ℕ) := by omega
  rw [exact, hroom, ← Int.natCast_natAbs] at hexact
  exact ⟨m, hm, by exact_mod_cast hexact⟩

/-- **The check of the extent accepts a length up to the inclusive default** and no longer one. -/
theorem checkExtent_eq_ok_iff (hoff : offset < len) (hinc : inc ≠ 0) (arg : String) (k : UInt64) :
    (⟨offset, inc⟩ : Window).checkExtent arg k len = .ok () ↔
      k.toNat ≤ (len.toNat - offset.toNat - 1) / inc.toInt.natAbs + 1 := by
  have hlt := UInt64.lt_iff_toNat_lt.mp hoff
  rw [Window.checkExtent_eq_ok_iff, Window.fits_iff, ← span_lt_iff (by omega) (natAbs_pos hinc)]
  unfold Window.last
  simp only
  omega

/-- **Every vector with an offset inside its buffer has both default lengths.** The least increment
is no exception. -/
theorem exists_defaults (hoff : offset < len) (hinc : inc ≠ 0) :
    ∃ n m, Defaults len offset inc n m := by
  obtain ⟨n, hn, en⟩ := exists_inclusive hoff hinc
  obtain ⟨m, hm, em⟩ := exists_exclusive hoff hinc
  have hlt := UInt64.lt_iff_toNat_lt.mp hoff
  have hpos := natAbs_pos hinc
  have hnm := div_add_eq inc.toInt.natAbs (show 0 < len.toNat - offset.toNat by omega)
  rw [← em, ← en] at hnm
  have h1 : (1 : UInt64).toNat = 1 := rfl
  refine ⟨n, m, hn, hm, ?_, fun arg k => ?_, fun hdvd => ?_, fun hdvd => ?_, ?_⟩
  · rw [UInt64.le_iff_toNat_le, en, h1]
    exact Nat.le_add_left 1 _
  · rw [checkExtent_eq_ok_iff hoff hinc, UInt64.le_iff_toNat_le, en]
  · rw [if_pos hdvd] at hnm
    exact UInt64.toNat_inj.mp (by omega)
  · rw [if_neg hdvd] at hnm
    apply UInt64.toNat_inj.mp
    rw [UInt64.toNat_add, h1, hnm, Nat.mod_eq_of_lt n.toNat_lt]
  · have h0 : (0 : UInt64).toNat = 0 := rfl
    rw [← UInt64.toNat_inj, em, h0, Nat.div_eq_zero_iff]
    omega

end Defaults

end LengthRule

/-! ### The first operand -/

/-- **A valid operand holds its own default length**, under either rule. -/
theorem Operand.not_short_exact {o : Operand} (hv : o.Valid) (rule : LengthRule) :
    ¬ o.Short (rule.exact (o.len.toNat - o.start) |o.increment|) := by
  have hlt := hv.start_lt
  have hstep : 0 < |o.increment| := abs_pos.mpr hv.increment_ne
  set room : ℤ := o.len.toNat - o.start with hroom
  unfold Short
  cases rule with
  | inclusive =>
    have hle := Int.ediv_mul_le (room - 1) hstep.ne'
    unfold LengthRule.exact
    rw [add_sub_cancel_right]
    omega
  | exclusive =>
    have hle := Int.ediv_mul_le room hstep.ne'
    unfold LengthRule.exact
    simp only [Int.sub_mul, Int.one_mul]
    omega

/-- **Without a length, an operand that is too short is not the first one.** -/
theorem short_of_resolve_none {rule : LengthRule} {o : Operand} {os : List Operand} {arg : String}
    {m offset len : UInt64} {inc : Int64}
    (h : resolve rule none (o :: os) = some (.error (.vectorTooShort arg m offset inc len))) :
    ¬ o.Short m.toNat ∧
      ∃ p, First (Operand.Short m.toNat) os p ∧ p.Asks ⟨offset, inc⟩ ∧ arg = p.name ∧
        len = p.len := by
  have hdue := resolve_eq_error_iff.mp h
  generalize he : Error.vectorTooShort arg m offset inc len = e at hdue
  cases hdue with
  | @invalid p hfirst =>
    unfold Operand.defect at he
    split_ifs at he
  | @short p m' w hvalid hfirst hlength hasks =>
    cases he
    have hfits := Operand.not_short_exact (hvalid o (by simp)) rule
    rw [← hlength] at hfirst
    have hfits' : ¬ o.Short m.toNat := by
      rw [hlength]
      exact hfits
    exact ⟨hfits', p, (first_cons_of_neg hfits').mp hfirst, hasks, rfl, rfl⟩

/-! ### Options spelled out -/

/-- The options that ask for a window. -/
def Window.options (w : Window) : VectorOptions := ⟨some w.offset.toInt64, some w.inc⟩

/-- An operand whose options are those of a window. -/
def Operand.spelled (o : Operand) (w : Window) : Operand := { o with opts := w.options }

/-- An operand asks for an offset that is a signed word, so that it can be given as an option. -/
theorem Operand.Asks.spelled {o : Operand} {w : Window} (ha : o.Asks w) : (o.spelled w).Asks w := by
  have hoff := ha.offset
  have hlt : o.start < 2 ^ 63 := Int64.toInt_lt _
  have hsmall : 2 * w.offset.toBitVec.toNat < 2 ^ 64 := by
    rw [UInt64.toNat_toBitVec]
    omega
  exact ⟨(BitVec.toInt_eq_toNat_of_lt hsmall).symm, rfl⟩

theorem Operand.Valid.spelled {o : Operand} {w : Window} (hv : o.Valid) (ha : o.Asks w) :
    (o.spelled w).Valid := by
  have hoff := ha.offset
  have hoff' := ha.spelled.offset
  have h0 := hv.start_nonneg
  have hlt : o.start < (o.spelled w).len.toNat := hv.start_lt
  refine ⟨?_, by omega, by omega⟩
  rw [← ha.spelled.inc, ha.inc]
  exact hv.increment_ne

theorem forall₂_spelled {P Q : Operand → Window → Prop} (h : ∀ o w, P o w → Q (o.spelled w) w)
    {operands : List Operand} {windows : List Window} (hP : List.Forall₂ P operands windows) :
    List.Forall₂ Q (List.zipWith Operand.spelled operands windows) windows := by
  induction hP with
  | nil => exact List.Forall₂.nil
  | cons how _ ih => exact List.Forall₂.cons (h _ _ how) ih

/-- **What was resolved may be spelled out.** The length and the windows that options come to, given
as options, resolve to themselves under either rule. -/
theorem resolve_spelled {rule : LengthRule} {n : Option UInt64} {operands : List Operand}
    {r : Resolved} (h : resolve rule n operands = some (.ok r)) (rule' : LengthRule) :
    resolve rule' (some r.n) (List.zipWith Operand.spelled operands r.windows) = some (.ok r) := by
  obtain ⟨hws, -, hfits⟩ := resolve_eq_ok_iff.mp h
  refine resolve_eq_ok_iff.mpr ⟨?_, rfl, ?_⟩
  · exact forall₂_spelled (fun o w how => ⟨how.1.spelled how.2, how.2.spelled⟩) hws
  · exact forall₂_spelled (fun o w hf => hf) hfits

variable {α ρ : Type} [RealScalar ρ] [Element α ρ]

/-- The call with its options spelled out has the same outcome, whether it has a kernel or not. -/
theorem UnaryOp.run_spelled (plan : Schedule) {op : UnaryOp α ρ} {x : Buffer α}
    {opts : UnaryOptions} {n : UInt64} {w : Window}
    (hres : resolveUnary op.operation.rule x.len opts = some (.ok ⟨n, [w]⟩)) :
    op.run plan x ⟨some n, w.options⟩ = op.run plan x opts := by
  have hres' : resolveUnary op.operation.rule x.len ⟨some n, w.options⟩ = some (.ok ⟨n, [w]⟩) :=
    resolve_spelled hres _
  cases hsel : select op.operation (Element.precision α) with
  | error e => rw [run_of_unsupported plan hsel, run_of_unsupported plan hsel]
  | ok sel => rw [run_of_resolved plan hsel hres, run_of_resolved plan hsel hres']

theorem BinaryOp.run_spelled (plan : Schedule) {op : BinaryOp α ρ} {x y : Buffer α}
    {opts : BinaryOptions} {n : UInt64} {wx wy : Window}
    (hres : resolveBinary op.operation.rule x.len y.len opts = some (.ok ⟨n, [wx, wy]⟩)) :
    op.run plan x y ⟨some n, wx.options, wy.options⟩ = op.run plan x y opts := by
  have hres' : resolveBinary op.operation.rule x.len y.len ⟨some n, wx.options, wy.options⟩ =
      some (.ok ⟨n, [wx, wy]⟩) :=
    resolve_spelled hres _
  cases hsel : select op.operation (Element.precision α) with
  | error e => rw [run_of_unsupported plan hsel, run_of_unsupported plan hsel]
  | ok sel => rw [run_of_resolved plan hsel hres, run_of_resolved plan hsel hres']

/-! ### All together -/

/-- **The default length is the largest there is, and what is resolved stays resolved.** Every
vector with an offset inside its buffer and a nonzero increment has both default lengths; without a
length, a vector that is reported as too short is not the first one; whatever options resolve to
resolves to itself, under either rule, with the length and every offset and increment given. Every
call whose options resolve has an outcome, which is also that of the call with its options spelled
out, as long as both group their sums in the same way; otherwise the two have at least the same
buffers and the same log. -/
theorem spelled_out_defaults (plan : Schedule) :
    (∀ (len offset : UInt64) (inc : Int64), offset < len → inc ≠ 0 →
      ∃ n m, LengthRule.Defaults len offset inc n m) ∧
    (∀ (rule : LengthRule) (o : Operand) (os : List Operand) (arg : String)
      (m offset len : UInt64) (inc : Int64),
      resolve rule none (o :: os) = some (.error (.vectorTooShort arg m offset inc len)) →
        ¬ o.Short m.toNat ∧
          ∃ p, First (Operand.Short m.toNat) os p ∧ p.Asks ⟨offset, inc⟩ ∧ arg = p.name ∧
            len = p.len) ∧
    (∀ (rule rule' : LengthRule) (n : Option UInt64) (operands : List Operand) (r : Resolved),
      resolve rule n operands = some (.ok r) →
        operands.length = r.windows.length ∧
          resolve rule' (some r.n) (List.zipWith Operand.spelled operands r.windows) =
            some (.ok r)) ∧
    (∀ (op : UnaryOp α ρ) (x : Buffer α) (opts : UnaryOptions) (r : Resolved),
      resolveUnary op.operation.rule x.len opts = some (.ok r) →
        ∃ w o, r.windows = [w] ∧ op.run plan x opts = some o ∧
          op.run plan x ⟨some r.n, w.options⟩ = some o ∧
          ∀ other, ∃ o', op.run other x ⟨some r.n, w.options⟩ = some o' ∧
            o'.buffers = o.buffers ∧ o'.events = o.events) ∧
    ∀ (op : BinaryOp α ρ) (x y : Buffer α) (opts : BinaryOptions) (r : Resolved),
      resolveBinary op.operation.rule x.len y.len opts = some (.ok r) →
        ∃ wx wy o, r.windows = [wx, wy] ∧ op.run plan x y opts = some o ∧
          op.run plan x y ⟨some r.n, wx.options, wy.options⟩ = some o ∧
          ∀ other, ∃ o', op.run other x y ⟨some r.n, wx.options, wy.options⟩ = some o' ∧
            o'.buffers = o.buffers ∧ o'.events = o.events := by
  refine ⟨fun _ _ _ hoff hinc => LengthRule.exists_defaults hoff hinc,
    fun _ _ _ _ _ _ _ _ h => short_of_resolve_none h,
    fun _ rule' _ _ _ h => ⟨(resolve_eq_ok_iff.mp h).1.length_eq, resolve_spelled h rule'⟩, ?_, ?_⟩
  · intro op x opts r hres
    obtain ⟨w, hr, -⟩ := window_of_resolveUnary hres
    rw [hr] at hres ⊢
    obtain ⟨o, ho⟩ := op.exists_run plan x opts
    have hspelled := (UnaryOp.run_spelled plan hres).trans ho
    exact ⟨w, o, rfl, ho, hspelled, fun other => UnaryOp.run_reschedule other hspelled⟩
  · intro op x y opts r hres
    obtain ⟨wx, wy, hr, -⟩ := windows_of_resolveBinary hres
    rw [hr] at hres ⊢
    obtain ⟨o, ho⟩ := op.exists_run plan x y opts
    have hspelled := (BinaryOp.run_spelled plan hres).trans ho
    exact ⟨wx, wy, o, rfl, ho, hspelled, fun other => BinaryOp.run_reschedule other hspelled⟩

/-- The least increment, with room for a second element and one cell to spare; a second vector that
is too short for the default length of the first one; and a swap whose options are all left out but
one. -/
theorem spelled_out_defaults_of_least_increment :
    (∃ n m, LengthRule.Defaults 9223372036854775813 4 Int64.minValue n m ∧ n = 2 ∧ m = 1) ∧
    (∃ o p : Operand, o = ⟨"x", 7, ⟨some 1, some (-3)⟩⟩ ∧ p = ⟨"y", 3, ⟨none, some 3⟩⟩ ∧
      resolve .exclusive none [o, p] = some (.error (.vectorTooShort "y" 2 0 3 3)) ∧
      ¬ o.Short 2) ∧
    (∃ r : Resolved, r = ⟨3, [⟨0, 2⟩, ⟨0, 1⟩]⟩ ∧
      resolve .exclusive (some 3) [⟨"x", 5, ⟨some 0, some 2⟩⟩, ⟨"y", 4, ⟨some 0, some 1⟩⟩] =
        some (.ok r)) ∧
    ∃ (x y : Buffer Float) (o : Outcome (Buffer Float × Buffer Float) Float Float),
      x.cells = #[1, 2, 3, 4, 5] ∧ y.cells = #[6, 7, 8, 9] ∧
      BinaryOp.swap.run .sequential x y ⟨none, ⟨none, some 2⟩, {}⟩ = some o ∧
      BinaryOp.swap.run .sequential x y ⟨some 3, ⟨some 0, some 2⟩, ⟨some 0, some 1⟩⟩ = some o := by
  obtain ⟨hdefaults, hshort, hspelled, -, hrun⟩ :=
    spelled_out_defaults (α := Float) (ρ := Float) .sequential
  have hres : resolve .inclusive none [⟨"x", 5, ⟨none, some 2⟩⟩, ⟨"y", 4, {}⟩] =
      some (.ok ⟨3, [⟨0, 2⟩, ⟨0, 1⟩]⟩) := by
    decide
  have hfail : resolve .exclusive none [⟨"x", 7, ⟨some 1, some (-3)⟩⟩, ⟨"y", 3, ⟨none, some 3⟩⟩] =
      some (.error (.vectorTooShort "y" 2 0 3 3)) := by
    decide
  refine ⟨?_, ⟨_, _, rfl, rfl, hfail, (hshort _ _ _ _ _ _ _ _ hfail).1⟩,
    ⟨_, rfl, (hspelled _ .exclusive _ _ _ hres).2⟩, ?_⟩
  · obtain ⟨n, m, h⟩ := hdefaults 9223372036854775813 4 Int64.minValue (by decide) (by decide)
    have hn := h.inclusive_eq
    have hm := h.exclusive_eq
    exact ⟨n, m, h, Option.some.inj (hn.symm.trans (by decide)),
      Option.some.inj (hm.symm.trans (by decide))⟩
  · obtain ⟨wx, wy, o, hw, ho, ho', -⟩ := hrun .swap ⟨#[1, 2, 3, 4, 5], by decide⟩
      ⟨#[6, 7, 8, 9], by decide⟩ ⟨none, ⟨none, some 2⟩, {}⟩ _ hres
    cases hw
    exact ⟨_, _, o, rfl, rfl, ho, ho'⟩

end Strided
