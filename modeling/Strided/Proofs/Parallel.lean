import Mathlib.Data.List.Infix
import Strided.Proofs.Reduction

/-! # Sums formed in parallel

A long sum over vectors whose elements lie side by side is formed in parallel: its terms are
combined in order under some grouping, with zeros put in anywhere. In floating point the groupings
differ. On terms whose sums are exact they do not, and all of them give the sum that is formed one
by one, which is what the loop over strided elements computes.

* `ExactSums`: addition has its laws on the sums of neighbouring terms; it need not have them on any
  other numbers. `ExactSums.of_closed`: a set of numbers on which it has them.
* `ExactSums.sum_eq_foldl`: every grouping of exact terms is the left fold.
* `Kernel.dotInOrder`, `Kernel.asumInOrder`: the loops over the elements.
* `Kernel.Sums`: what a kernel that sums terms does on either path; `sums_dotWith`, `sums_asum`.
* `BinaryOp.answer?_dot`, `UnaryOp.answer?_asum`: the calls.
* `parallel_sums_in_order`: all of this together. -/

namespace Strided

/-! ### Exact terms -/

section Exact
variable {β : Type} [Zero β] [Add β]

/-- The sum of a grouping of terms. -/
def Grouping.sum (g : Grouping β) : β := g.reduce (· + ·) 0

/-- Addition is associative, with zero as neutral element, on all sums of neighbouring terms,
however these are grouped. -/
structure ExactSums (terms : List β) : Prop where
  add_assoc : ∀ g h k : Grouping β, g.leaves ++ h.leaves ++ k.leaves <:+: terms →
    g.sum + h.sum + k.sum = g.sum + (h.sum + k.sum)
  zero_add : ∀ g : Grouping β, g.leaves <:+: terms → 0 + g.sum = g.sum
  add_zero : ∀ g : Grouping β, g.leaves <:+: terms → g.sum + 0 = g.sum

namespace ExactSums

variable {terms : List β}

/-- The terms may be taken from a set with the laws of addition that is closed under it. -/
theorem of_closed {P : β → Prop} (hzero : P 0) (hadd : ∀ a b, P a → P b → P (a + b))
    (hassoc : ∀ a b c, P a → P b → P c → a + b + c = a + (b + c))
    (hleft : ∀ a, P a → 0 + a = a) (hright : ∀ a, P a → a + 0 = a)
    (hterms : ∀ t ∈ terms, P t) : ExactSums terms := by
  have hsum : ∀ g : Grouping β, (∀ b ∈ g.leaves, P b) → P g.sum := by
    intro g
    induction g with
    | unit => exact fun _ => hzero
    | leaf b => exact fun h => h b (by simp [Grouping.leaves])
    | node l r ihl ihr =>
      intro h
      simp only [Grouping.leaves, List.mem_append] at h
      exact hadd _ _ (ihl fun b hb => h b (Or.inl hb)) (ihr fun b hb => h b (Or.inr hb))
  refine ⟨fun g h k hin => ?_, fun g hin => hleft _ ?_, fun g hin => hright _ ?_⟩
  · have hmem : ∀ b ∈ g.leaves ++ h.leaves ++ k.leaves, P b := fun b hb => hterms b (hin.subset hb)
    simp only [List.mem_append] at hmem
    exact hassoc _ _ _ (hsum g fun b hb => hmem b (Or.inl (Or.inl hb)))
      (hsum h fun b hb => hmem b (Or.inl (Or.inr hb))) (hsum k fun b hb => hmem b (Or.inr hb))
  · exact hsum g fun b hb => hterms b (hin.subset hb)
  · exact hsum g fun b hb => hterms b (hin.subset hb)

/-- Terms that are added one by one to what stands before them may as well be added up first. -/
theorem add_foldl (h : ExactSums terms) (g : Grouping β) {bs : List β}
    (hin : g.leaves ++ bs <:+: terms) :
    g.sum + bs.foldl (· + ·) 0 = bs.foldl (· + ·) g.sum := by
  induction bs using List.reverseRecOn with
  | nil => exact h.add_zero g (by simpa using hin)
  | append_singleton bs b ih =>
    rw [← List.append_assoc] at hin
    have hshort : g.leaves ++ bs <:+: terms := (List.prefix_append _ [b]).isInfix.trans hin
    have hassoc := h.add_assoc g (.chain bs) (.leaf b)
      (by simpa [Grouping.leaves_chain, Grouping.leaves] using hin)
    have hchain : (Grouping.chain bs).sum = bs.foldl (· + ·) 0 := Grouping.reduce_chain _ _ bs
    rw [List.foldl_concat, List.foldl_concat, ← ih hshort, ← hchain]
    exact hassoc.symm

/-- **Every grouping of exact terms is the left fold.** -/
theorem sum_eq_foldl (h : ExactSums terms) : ∀ g : Grouping β, g.leaves <:+: terms →
    g.sum = g.leaves.foldl (· + ·) 0
  | .unit, _ => rfl
  | .leaf b, hin => (h.zero_add (.leaf b) hin).symm
  | .node l r, hin => by
    have hl := h.sum_eq_foldl l ((List.prefix_append _ r.leaves).isInfix.trans hin)
    have hr := h.sum_eq_foldl r ((List.suffix_append l.leaves _).isInfix.trans hin)
    calc (Grouping.node l r).sum = l.sum + r.leaves.foldl (· + ·) 0 := by rw [← hr]; rfl
      _ = r.leaves.foldl (· + ·) l.sum := h.add_foldl l hin
      _ = (Grouping.node l r).leaves.foldl (· + ·) 0 := by
        rw [hl, Grouping.leaves, List.foldl_append]

end ExactSums

theorem Kernel.total_of_exact {plan : Schedule} {long : Bool} {terms : List β}
    (h : long = true → ExactSums terms) : total plan long terms = terms.foldl (· + ·) 0 := by
  unfold total
  split_ifs with hl
  · have hleaves := plan.leaves_group terms
    have hsum := (h hl).sum_eq_foldl (plan.group terms) (by rw [hleaves])
    rw [hleaves] at hsum
    exact hsum
  · rfl

/-- A kernel that sums terms: one by one if they do not come from cells side by side, and under a
schedule otherwise. If the terms are exact, every grouping of them has the value that is found in
order, and so has the kernel under every schedule. -/
structure Kernel.Sums (contiguous : Bool) (terms : List β) (kernel : Schedule → Option β)
    (inOrder : β) : Prop where
  strided : contiguous = false → ∀ plan, kernel plan = some inOrder
  grouped : ExactSums terms → ∀ g : Grouping β, g.leaves = terms → g.sum = inOrder
  scheduled : ExactSums terms → ∀ plan, kernel plan = some inOrder

theorem Kernel.Sums.of_total {contiguous long : Bool} {terms : List β}
    {kernel : Schedule → Option β} (hlong : contiguous = false → long = false)
    (hkernel : ∀ plan, kernel plan = some (total plan long terms)) :
    Sums contiguous terms kernel (terms.foldl (· + ·) 0) := by
  refine ⟨fun hc plan => ?_, fun h g hg => ?_, fun h plan => ?_⟩
  · rw [hkernel, total_of_exact]
    simp [hlong hc]
  · have hsum := h.sum_eq_foldl g (by rw [hg])
    rw [hg] at hsum
    exact hsum
  · rw [hkernel, total_of_exact fun _ => h]

end Exact

/-! ### The loops over the elements -/

namespace Kernel

/-- The sum of `f x_i * y_i`, one product after the other. -/
def dotInOrder {β : Type} [Zero β] [Add β] [Mul β] (f : β → β) (xs ys : List β) : β :=
  (xs.zip ys).foldl (fun sum p => sum + f p.1 * p.2) 0

variable {α ρ : Type}

section Scalars
variable [Scalar α ρ]

theorem foldl_products (f : α → α) (xs ys : List α) :
    (products f xs ys).foldl (· + ·) 0 = dotInOrder f xs ys := by
  unfold products dotInOrder
  rw [← List.map_uncurry_zip_eq_zipWith, List.foldl_map]
  rfl

theorem sums_dotWith (f : α → α) {x y : View α} (hx : x.Inside) (hy : y.Inside) :
    Sums (x.isContiguous && y.isContiguous) (products f x.gather y.gather)
      (fun plan => dotWith plan f x y) (dotInOrder f x.gather y.gather) := by
  rw [← foldl_products]
  refine Sums.of_total (fun hc => ?_) fun plan => dotWith_eq hx hy plan f
  unfold isLong
  revert hc
  cases x.isContiguous <;> cases y.isContiguous <;> simp

end Scalars

variable [RealScalar ρ] [Scalar α ρ]

/-- The sum of the magnitudes, one after the other. -/
def asumInOrder (xs : List α) : ρ := xs.foldl (fun sum a => sum + Scalar.abs1 a) 0

theorem foldl_magnitudes (xs : List α) :
    (xs.map Scalar.abs1).foldl (· + ·) 0 = asumInOrder xs :=
  List.foldl_map

theorem sums_asum {x : View α} (hx : x.Inside) :
    Sums x.isContiguous (x.gather.map Scalar.abs1) (fun plan => asum plan x)
      (asumInOrder x.gather) := by
  rw [← foldl_magnitudes]
  exact Sums.of_total (fun hc => by simp [isLong, hc]) (asum_eq hx)

end Kernel

theorem View.gather_of_replicate {β : Type} {v : View β} (hv : v.Inside) {m : ℕ} {b : β}
    (h : v.buffer.cells = Array.replicate m b) : v.gather = List.replicate v.n.toNat b := by
  refine List.eq_replicate_iff.mpr ⟨length_gather hv, fun c hc => ?_⟩
  obtain ⟨i, -, hi⟩ := List.mem_filterMap.mp hc
  have hmem : c ∈ v.buffer.cells := Array.mem_of_getElem? hi
  rw [h] at hmem
  exact Array.eq_of_mem_replicate hmem

/-! ### Calls -/

variable {α ρ : Type} [RealScalar ρ] [Element α ρ]

/-- The dot products, each with what it does to the elements of the first vector. -/
inductive BinaryOp.DotProduct : BinaryOp α ρ → (α → α) → Prop
  | dot : DotProduct .dot id
  | dotu : DotProduct .dotu id
  | dotc : DotProduct .dotc Scalar.conj

namespace BinaryOp

variable {op : BinaryOp α ρ} {f : α → α}

omit [RealScalar ρ] in
theorem DotProduct.reduces (h : op.DotProduct f) : op.operation.reduces := by
  cases h <;> rfl

omit [RealScalar ρ] in
theorem DotProduct.reply_eq (h : op.DotProduct f) (plan : Schedule) (n : UInt64) (wx wy : Window)
    (x y : Buffer α) : op.reply plan n wx wy x y =
      .scalar (Kernel.total plan
        (Kernel.isLong (wx.view n x) && (wy.view n y).isContiguous)
        (Kernel.products f (wx.view n x).gather (wy.view n y).gather)) := by
  unfold reply
  split_ifs with h0
  · -- There is no element, and a short sum without terms is zero.
    subst h0
    cases h <;> simp [Kernel.isLong, Kernel.longLength, Kernel.total, Window.view, View.gather,
      Kernel.products, emptyAnswer]
  · cases h <;> rfl

/-- **A dot product**: if both windows are blocks, the products have to be exact. -/
theorem answer?_dot (h : op.DotProduct f) {sel : Selection}
    (hsel : select op.operation (Element.precision α) = .ok sel) (plan : Schedule)
    {x y : Buffer α} {opts : BinaryOptions} {n : UInt64} {wx wy : Window}
    (hres : resolveBinary op.operation.rule x.len y.len opts = some (.ok ⟨n, [wx, wy]⟩))
    (hexact : wx.inc = 1 → wy.inc = 1 →
      ExactSums (Kernel.products f (wx.view n x).gather (wy.view n y).gather)) :
    op.answer? plan x y opts =
      some (.ok (.scalar (Kernel.dotInOrder f (wx.view n x).gather (wy.view n y).gather))) := by
  rw [answer?_of_resolved h.reduces hres, hsel, h.reply_eq, Kernel.total_of_exact,
    Kernel.foldl_products]
  · rfl
  · intro hlong
    simp only [Kernel.isLong, View.isContiguous, Window.view, Bool.and_eq_true, beq_iff_eq] at hlong
    exact hexact hlong.1.1 hlong.2

end BinaryOp

/-- **A sum of magnitudes**: if the window is a block, they have to be exact. -/
theorem UnaryOp.answer?_asum {sel : Selection}
    (hsel : select Operation.asum (Element.precision α) = .ok sel) (plan : Schedule)
    {x : Buffer α} {opts : UnaryOptions} {n : UInt64} {w : Window}
    (hres : resolveUnary Operation.asum.rule x.len opts = some (.ok ⟨n, [w]⟩))
    (hexact : w.inc = 1 → ExactSums ((w.view n x).gather.map Scalar.abs1)) :
    (UnaryOp.asum : UnaryOp α ρ).answer? plan x opts =
      some (.ok (.real (Kernel.asumInOrder (w.view n x).gather))) := by
  have hreduces : (UnaryOp.asum : UnaryOp α ρ).operation.reduces := rfl
  have htotal : Kernel.total plan (Kernel.isLong (w.view n x))
      ((w.view n x).gather.map Scalar.abs1) = Kernel.asumInOrder (w.view n x).gather := by
    rw [Kernel.total_of_exact, Kernel.foldl_magnitudes]
    intro hlong
    simp only [Kernel.isLong, View.isContiguous, Window.view, Bool.and_eq_true, beq_iff_eq] at hlong
    exact hexact hlong.1
  have hreply : (UnaryOp.asum : UnaryOp α ρ).reply plan n w x =
      .real (Kernel.asumInOrder (w.view n x).gather) := by
    unfold reply
    split_ifs with h0
    · subst h0
      rfl
    · exact congrArg Answer.real htotal
  rw [answer?_of_resolved hreduces hres, hreply]
  exact congrArg (fun s => some (Except.map _ s)) hsel

/-- **Sums formed in parallel are the sums in order, if they are exact.** The elements of a view may
be read one by one or, if they lie side by side, as a block. Without such blocks the kernels add one
element after the other. With them, and if addition is exact on the terms, every grouping of the
terms has the same value, for vectors of any length, and so has every schedule; and so every call
answers what the loop over the elements gives. -/
theorem parallel_sums_in_order :
    (∀ v : View α, v.Inside → v.elements? = some v.gather ∧
      (v.isContiguous → v.contiguous? = some (some v.gather.toArray))) ∧
    (∀ (f : α → α) (x y : View α), x.Inside → y.Inside →
      Kernel.Sums (x.isContiguous && y.isContiguous) (Kernel.products f x.gather y.gather)
        (fun plan => Kernel.dotWith plan f x y) (Kernel.dotInOrder f x.gather y.gather)) ∧
    (∀ x : View α, x.Inside →
      Kernel.Sums x.isContiguous (x.gather.map Scalar.abs1) (fun plan => Kernel.asum plan x)
        (Kernel.asumInOrder x.gather)) ∧
    (∀ (op : BinaryOp α ρ) (f : α → α), op.DotProduct f →
      op.operation.row.supported.supports (Element.precision α) →
      ∀ (x y : Buffer α) (opts : BinaryOptions) (n : UInt64) (wx wy : Window),
        resolveBinary op.operation.rule x.len y.len opts = some (.ok ⟨n, [wx, wy]⟩) →
        (wx.inc = 1 → wy.inc = 1 →
          ExactSums (Kernel.products f (wx.view n x).gather (wy.view n y).gather)) →
        ∀ plan, op.answer? plan x y opts = some (.ok (.scalar
          (Kernel.dotInOrder f (wx.view n x).gather (wy.view n y).gather)))) ∧
    (Operation.asum.row.supported.supports (Element.precision α) →
      ∀ (x : Buffer α) (opts : UnaryOptions) (n : UInt64) (w : Window),
        resolveUnary Operation.asum.rule x.len opts = some (.ok ⟨n, [w]⟩) →
        (w.inc = 1 → ExactSums ((w.view n x).gather.map Scalar.abs1)) →
        ∀ plan, (UnaryOp.asum : UnaryOp α ρ).answer? plan x opts =
          some (.ok (.real (Kernel.asumInOrder (w.view n x).gather)))) := by
  refine ⟨fun _ hv => ⟨View.elements?_eq hv, View.contiguous?_eq hv⟩,
    fun f _ _ hx hy => Kernel.sums_dotWith f hx hy, fun _ hx => Kernel.sums_asum hx, ?_, ?_⟩
  · intro op f hop hs x y opts n wx wy hres hexact plan
    obtain ⟨sel, hsel⟩ := exists_select hs
    exact BinaryOp.answer?_dot hop hsel plan hres hexact
  · intro hs x opts n w hres hexact plan
    obtain ⟨sel, hsel⟩ := exists_select hs
    exact UnaryOp.answer?_asum hsel plan hres hexact

/-- A long vector of infinite numbers against one of ones. Addition is not associative on all
numbers, but it is on zero and infinity. -/
theorem parallel_sums_in_order_of_infinities :
    ∃ (x y : Buffer Float) (infinity : Float),
      infinity = Float.ofBits 0x7ff0000000000000 ∧
      x.cells = Array.replicate 16384 infinity ∧ y.cells = Array.replicate 16384 1 ∧
      (∃ b c d : Float, b + c + d ≠ b + (c + d)) ∧
      ∀ plan, BinaryOp.dot.answer? plan x y {} = some (.ok (.scalar infinity)) := by
  let infinity : Float := Float.ofBits 0x7ff0000000000000
  let x : Buffer Float := ⟨Array.replicate 16384 infinity, by rw [Array.size_replicate]; decide⟩
  let y : Buffer Float := ⟨Array.replicate 16384 1, by rw [Array.size_replicate]; decide⟩
  let w : Window := ⟨0, 1⟩
  have hres : resolveBinary Operation.dot.rule x.len y.len {} = some (.ok ⟨16384, [w, w]⟩) := by
    have hx : x.len = 16384 := by simp [x, Buffer.len]
    have hy : y.len = 16384 := by simp [y, Buffer.len]
    rw [hx, hy]
    decide
  obtain ⟨hx, hy⟩ := inside_of_resolveBinary hres
  have hterms : Kernel.products id (w.view 16384 x).gather (w.view 16384 y).gather =
      List.replicate 16384 infinity := by
    have hgx := View.gather_of_replicate (v := w.view 16384 x) hx rfl
    have hgy := View.gather_of_replicate (v := w.view 16384 y) hy rfl
    have hone : id infinity * 1 = infinity := by decide
    rw [Kernel.products, hgx, hgy, List.zipWith_replicate, hone]
    rfl
  have hexact : ExactSums (List.replicate 16384 infinity) := by
    refine ExactSums.of_closed (P := fun a => a = 0 ∨ a = infinity) (Or.inl rfl) ?_ ?_ ?_ ?_ ?_
    · rintro a b (rfl | rfl) (rfl | rfl) <;> decide
    · rintro a b c (rfl | rfl) (rfl | rfl) (rfl | rfl) <;> decide
    · rintro a (rfl | rfl) <;> decide
    · rintro a (rfl | rfl) <;> decide
    · exact fun t ht => Or.inr (List.eq_of_mem_replicate ht)
  have hsum : ∀ n, Kernel.total .sequential false (List.replicate (n + 1) infinity) = infinity := by
    intro n
    induction n with
    | zero => decide
    | succ n ih =>
      unfold Kernel.total at ih ⊢
      rw [if_neg Bool.false_ne_true] at ih ⊢
      rw [List.replicate_succ', List.foldl_concat, ih]
      decide
  have hvalue : Kernel.dotInOrder id (w.view 16384 x).gather (w.view 16384 y).gather =
      infinity := by
    rw [← Kernel.foldl_products, hterms]
    exact hsum 16383
  have hanswer := parallel_sums_in_order.2.2.2.1 .dot id .dot rfl x y {} 16384 w w hres
    fun _ _ => hterms.symm ▸ hexact
  rw [hvalue] at hanswer
  exact ⟨x, y, infinity, rfl, rfl, rfl, ⟨Float.ofBits 0x7fefffffffffffff,
    Float.ofBits 0x7fefffffffffffff, Float.ofBits 0xffefffffffffffff, by decide⟩, hanswer⟩

end Strided
