import Mathlib
import Strided.Error

/-! # The texts of errors

An argument or an operation may have any name, and its name stands in the text of an error as it is.
Still the text determines the error. The kinds differ in their first characters. A number has no
blank and no equals sign in it, nor has a precision, and the fixed text before it ends with one of
them: so the number is what follows the last of these characters, and can be cut off. In the end the
name is what is left between two fixed texts.

* `cut_first`, `cut_last`: cutting a text at the first or at the last `c`.
* `cut_decimal`, `cut_signedDecimal`: cutting off a number at the end.
* `Error.markOf_message`: the kind of an error in its text.
* `Error.message_invalidStride_inj` and its three companions: errors of one kind.
* `text_identifies_error`: all errors. -/

namespace Strided

/-! ### Cutting a text -/

section Cutting
variable {c : Char}

theorem append_cons_cut {s t : List Char} : ∀ {u v : List Char}, c ∉ u → c ∉ v →
    u ++ c :: s = v ++ c :: t → u = v ∧ s = t
  | [], [], _, _, h => by simpa using h
  | [], d :: v, _, hv, h => by
    simp only [List.nil_append, List.cons_append, List.cons.injEq] at h
    exact absurd (by simp [h.1]) hv
  | d :: u, [], hu, _, h => by
    simp only [List.nil_append, List.cons_append, List.cons.injEq] at h
    exact absurd (by simp [h.1]) hu
  | d :: u, d' :: v, hu, hv, h => by
    simp only [List.mem_cons, not_or] at hu hv
    simp only [List.cons_append, List.cons.injEq] at h
    obtain ⟨rfl, rfl⟩ := append_cons_cut hu.2 hv.2 h.2
    exact ⟨by rw [h.1], rfl⟩

variable {a b d d' m : String}

/-- **The part before the first `c`**, where the fixed text `m` begins. -/
theorem cut_first (hm : m.toList.head? = some c) (hd : c ∉ d.toList) (hd' : c ∉ d'.toList)
    (h : d ++ (m ++ a) = d' ++ (m ++ b)) : d = d' ∧ a = b := by
  obtain ⟨rest, hrest⟩ := List.head?_eq_some_iff.mp hm
  simp only [← String.toList_inj, String.toList_append, hrest, List.cons_append] at h
  obtain ⟨hdd, htail⟩ := append_cons_cut hd hd' h
  exact ⟨String.toList_inj.mp hdd, String.toList_inj.mp (List.append_cancel_left htail)⟩

/-- **The part after the last `c`**, where the fixed text `m` ends. -/
theorem cut_last (hm : m.toList.getLast? = some c) (hd : c ∉ d.toList) (hd' : c ∉ d'.toList)
    (h : a ++ m ++ d = b ++ m ++ d') : a = b ∧ d = d' := by
  obtain ⟨start, hstart⟩ := List.getLast?_eq_some_iff.mp hm
  simp only [← String.toList_inj, String.toList_append, hstart] at h
  -- read from the end, the last `c` is the first one
  have hrev := congrArg List.reverse h
  simp only [List.reverse_append, List.reverse_singleton, List.singleton_append] at hrev
  obtain ⟨hdd, htail⟩ := append_cons_cut (by simpa using hd) (by simpa using hd') hrev
  refine ⟨String.toList_inj.mp (List.reverse_injective (List.append_cancel_left htail)), ?_⟩
  exact String.toList_inj.mp (List.reverse_injective hdd)

end Cutting

/-! ### Fields -/

section Fields
variable {c : Char}

theorem notMem_repr (hc : c.isDigit = false) (n : ℕ) : c ∉ n.repr.toList := by
  intro h
  rw [Nat.repr_eq_ofList_toDigits, String.toList_ofList] at h
  have hdigit := Nat.isDigit_of_mem_toDigits (by decide) (by decide) h
  simp [hc] at hdigit

theorem notMem_decimal (hc : c.isDigit = false) (n : UInt64) : c ∉ (decimal n).toList :=
  notMem_repr hc n.toNat

theorem notMem_signedDecimal (hc : c.isDigit = false) (hminus : c ≠ '-') (i : Int64) :
    c ∉ (signedDecimal i).toList := by
  unfold signedDecimal
  rw [Int.toString_eq_repr, Int.repr_eq_if]
  split_ifs with h
  · exact notMem_repr hc _
  · simp only [String.toList_append, List.mem_append, not_or]
    exact ⟨by simpa using hminus, notMem_repr hc _⟩

theorem decimal_inj {n m : UInt64} : decimal n = decimal m ↔ n = m := by
  unfold decimal
  rw [Nat.toString_eq_repr, Nat.toString_eq_repr, Nat.repr_inj, UInt64.toNat_inj]

theorem signedDecimal_inj {i j : Int64} : signedDecimal i = signedDecimal j ↔ i = j := by
  unfold signedDecimal
  rw [Int.toString_eq_repr, Int.toString_eq_repr, Int.repr_inj, Int64.toInt_inj]

variable {a b m : String} (hm : m.toList.getLast? = some c) (hc : c.isDigit = false)
include hm hc

/-- **A number at the end of a text.** -/
theorem cut_decimal {n n' : UInt64} (h : a ++ m ++ decimal n = b ++ m ++ decimal n') :
    a = b ∧ n = n' := by
  obtain ⟨hab, hn⟩ := cut_last hm (notMem_decimal hc n) (notMem_decimal hc n') h
  exact ⟨hab, decimal_inj.mp hn⟩

/-- **A signed number at the end of a text.** -/
theorem cut_signedDecimal (hminus : c ≠ '-') {i j : Int64}
    (h : a ++ m ++ signedDecimal i = b ++ m ++ signedDecimal j) : a = b ∧ i = j := by
  obtain ⟨hab, hij⟩ := cut_last hm (notMem_signedDecimal hc hminus i)
    (notMem_signedDecimal hc hminus j) h
  exact ⟨hab, signedDecimal_inj.mp hij⟩

end Fields

namespace Precision

theorem notMem_name (p : Precision) : ' ' ∉ p.name.toList := by
  cases p <;> decide

theorem name_inj {p q : Precision} : p.name = q.name ↔ p = q := by
  cases p <;> cases q <;> decide

end Precision

/-! ### Kinds of errors -/

/-- The letter of a text by which the kind of an error shows: the first one, or the tenth character
if the text begins as those of two kinds do. The text of one kind begins with no letter. -/
def markOf (text : List Char) : Option Char :=
  if text.head? = some 'i' then text[9]? else text.head?.filter Char.isAlpha

namespace Error

/-- The letter that marks the kind of an error. -/
def mark : Error → Option Char
  | invalidStride _ => some 't'
  | invalidOffset _ _ _ => some 'f'
  | vectorTooShort _ _ _ _ _ => none
  | unsupportedPrecision _ _ => some 'o'

/-- **The kind of an error** stands in its text before any name or number. -/
theorem markOf_message (e : Error) : markOf e.message.toList = e.mark := by
  unfold markOf message
  cases e <;> simp [mark]

theorem mark_eq_of_message {e f : Error} (h : e.message = f.message) : e.mark = f.mark := by
  rw [← markOf_message, h, markOf_message]

/-! ### Errors of one kind -/

theorem message_invalidStride_inj {arg arg' : String}
    (h : (invalidStride arg).message = (invalidStride arg').message) : arg = arg' := by
  unfold message at h
  rwa [String.append_left_inj, String.append_right_inj] at h

theorem message_invalidOffset_inj {arg arg' : String} {offset offset' : Int64} {len len' : UInt64}
    (h : (invalidOffset arg offset len).message = (invalidOffset arg' offset' len').message) :
    arg = arg' ∧ offset = offset' ∧ len = len' := by
  unfold message at h
  obtain ⟨h, hlen⟩ := cut_decimal (c := ' ') (by decide) (by decide) h
  -- the name stands at the end of what is left, so the offset is cut off in front of it
  simp only [String.append_assoc, String.append_right_inj] at h
  obtain ⟨hoffset, harg⟩ := cut_first (c := ' ') (by decide)
    (notMem_signedDecimal (by decide) (by decide) offset)
    (notMem_signedDecimal (by decide) (by decide) offset') h
  exact ⟨harg, signedDecimal_inj.mp hoffset, hlen⟩

theorem message_vectorTooShort_inj {arg arg' : String} {n n' offset offset' : UInt64} {inc inc' : Int64}
    {len len' : UInt64}
    (h : (vectorTooShort arg n offset inc len).message =
      (vectorTooShort arg' n' offset' inc' len').message) :
    arg = arg' ∧ n = n' ∧ offset = offset' ∧ inc = inc' ∧ len = len' := by
  unfold message at h
  rw [String.append_left_inj] at h
  obtain ⟨h, hlen⟩ := cut_decimal (c := ' ') (by decide) (by decide) h
  obtain ⟨h, hinc⟩ := cut_signedDecimal (c := '=') (by decide) (by decide) (by decide) h
  obtain ⟨h, hoffset⟩ := cut_decimal (c := '=') (by decide) (by decide) h
  obtain ⟨h, hn⟩ := cut_decimal (c := '=') (by decide) (by decide) h
  rw [String.append_right_inj] at h
  exact ⟨h, hn, hoffset, hinc, hlen⟩

theorem message_unsupportedPrecision_inj {op op' : String} {p p' : Precision}
    (h : (unsupportedPrecision op p).message = (unsupportedPrecision op' p').message) :
    op = op' ∧ p = p' := by
  unfold message at h
  rw [String.append_left_inj] at h
  obtain ⟨h, hp⟩ := cut_last (c := ' ') (by decide) p.notMem_name p'.notMem_name h
  rw [String.append_right_inj] at h
  exact ⟨h, Precision.name_inj.mp hp⟩

end Error

/-- **The text of an error identifies it.** Two errors with the same text are of the same kind and
have the same argument, the same numbers and the same precision, whatever the names of arguments and
operations are. -/
theorem text_identifies_error (e f : Error) : e.message = f.message ↔ e = f := by
  constructor
  · intro h
    have hmark := Error.mark_eq_of_message h
    cases e with
    | invalidStride arg =>
      cases f with
      | invalidStride arg' => rw [Error.message_invalidStride_inj h]
      | _ => simp [Error.mark] at hmark
    | invalidOffset arg offset len =>
      cases f with
      | invalidOffset arg' offset' len' =>
        obtain ⟨rfl, rfl, rfl⟩ := Error.message_invalidOffset_inj h
        rfl
      | _ => simp [Error.mark] at hmark
    | vectorTooShort arg n offset inc len =>
      cases f with
      | vectorTooShort arg' n' offset' inc' len' =>
        obtain ⟨rfl, rfl, rfl, rfl, rfl⟩ := Error.message_vectorTooShort_inj h
        rfl
      | _ => simp [Error.mark] at hmark
    | unsupportedPrecision op p =>
      cases f with
      | unsupportedPrecision op' p' =>
        obtain ⟨rfl, rfl⟩ := Error.message_unsupportedPrecision_inj h
        rfl
      | _ => simp [Error.mark] at hmark
  · rintro rfl
    rfl

end Strided
