/-! # Grouped sums

A long sum may be formed in parallel: the terms are combined in order, but under any binary
grouping, and the neutral element may be put in anywhere. A `Grouping` is such an arrangement of
terms, and a `Schedule` arranges every list of terms in one.

* `reduce_chain`: the grouping that starts from the neutral element and adds the terms one by one is
  the left fold.
* `leaves_halve`: cutting a list in halves keeps the terms and their order. -/

namespace Strided

/-- An arrangement of terms for an operation with a neutral element. -/
inductive Grouping (β : Type)
  /-- The neutral element. -/
  | unit
  | leaf (b : β)
  | node (left right : Grouping β)

namespace Grouping

variable {β : Type}

/-- The terms in order. -/
def leaves : Grouping β → List β
  | unit => []
  | leaf b => [b]
  | node l r => l.leaves ++ r.leaves

/-- The value of a grouping. -/
def reduce (op : β → β → β) (e : β) : Grouping β → β
  | unit => e
  | leaf b => b
  | node l r => op (l.reduce op e) (r.reduce op e)

/-- The terms added one by one to what stands before. -/
def chainFrom (g : Grouping β) (bs : List β) : Grouping β := bs.foldl (fun g b => node g (leaf b)) g

/-- The terms added one by one to the neutral element. -/
def chain (bs : List β) : Grouping β := chainFrom unit bs

/-- The list cut in halves `depth` times, each of the parts a chain. -/
def halve : Nat → List β → Grouping β
  | 0, bs => chain bs
  | depth + 1, bs =>
    node (halve depth (bs.take (bs.length / 2))) (halve depth (bs.drop (bs.length / 2)))

theorem leaves_chainFrom (g : Grouping β) (bs : List β) :
    (chainFrom g bs).leaves = g.leaves ++ bs := by
  induction bs generalizing g with
  | nil => simp [chainFrom]
  | cons b bs ih =>
    have := ih (node g (leaf b))
    simpa [chainFrom, leaves] using this

theorem leaves_chain (bs : List β) : (chain bs).leaves = bs := by
  rw [chain, leaves_chainFrom]; rfl

theorem leaves_halve (depth : Nat) (bs : List β) : (halve depth bs).leaves = bs := by
  induction depth generalizing bs with
  | zero => exact leaves_chain bs
  | succ depth ih => simp only [halve, leaves, ih, List.take_append_drop]

theorem reduce_chainFrom (op : β → β → β) (e : β) (g : Grouping β) (bs : List β) :
    (chainFrom g bs).reduce op e = bs.foldl op (g.reduce op e) := by
  induction bs generalizing g with
  | nil => rfl
  | cons b bs ih =>
    have := ih (node g (leaf b))
    simpa [chainFrom, reduce] using this

/-- **One by one is the left fold.** -/
theorem reduce_chain (op : β → β → β) (e : β) (bs : List β) :
    (chain bs).reduce op e = bs.foldl op e :=
  reduce_chainFrom op e unit bs

end Grouping

/-- A way to arrange the terms of every sum. -/
structure Schedule where
  group : {β : Type} → List β → Grouping β
  leaves_group : ∀ {β : Type} (bs : List β), (group bs).leaves = bs

namespace Schedule

/-- The terms are added one by one. -/
def sequential : Schedule := ⟨Grouping.chain, Grouping.leaves_chain⟩

/-- The terms are cut in `2 ^ depth` parts. -/
def halving (depth : Nat) : Schedule := ⟨Grouping.halve depth, Grouping.leaves_halve depth⟩

/-- The schedule of a call that asks for none: eight parts. -/
def standard : Schedule := halving 3

/-- The value of a list of terms under a schedule. -/
def reduce {β : Type} (plan : Schedule) (op : β → β → β) (e : β) (bs : List β) : β :=
  (plan.group bs).reduce op e

end Schedule

end Strided
