import Strided.Call
import Strided.Proofs.Gather

/-! # Kernels as maps of elements

Every kernel gathers the elements of its views, maps them one by one or pair by pair, and scatters
the images. The kernels write while they read; this makes no difference, for a step writes only the
elements that it has just read.

* `foldlM_indices`: the state of a loop after each of its steps.
* `mapElements?_eq`, `updateFrom?_eq`, `mapPairs?_eq`: the three loops.
* `block?_eq`, `setBlock?_eq`: reading and writing a contiguous window as one block is gathering and
  scattering.
* `dotWith_eq`, `asum_eq`: the sums are over the same elements on either path.
* `UnaryOp.compute?_eq`, `BinaryOp.compute?_eq`: the effect of every kernel on views inside their
  buffers, where `image` is its effect on elements. -/

namespace Strided

namespace View

variable {α : Type}

/-- Every element replaced by its image. -/
def mapElements (f : α → α) (x : View α) : View α := x.scatter (x.gather.map f)

/-- Every pair of elements replaced by its image. -/
def mapPairs (f : α → α → α × α) (x y : View α) : View α × View α :=
  (x.scatter (List.zipWith (fun a b => (f a b).1) x.gather y.gather),
    y.scatter (List.zipWith (fun a b => (f a b).2) x.gather y.gather))

/-! ### Loops -/

/-- **A loop over element numbers** whose state after `k` steps is `state k`. -/
theorem foldlM_indices {σ : Type} (step : σ → UInt64 → Option σ) (state : ℕ → σ) :
    ∀ n : ℕ, (∀ k < n, step (state k) (UInt64.ofNat k) = some (state (k + 1))) →
      ((List.range n).map UInt64.ofNat).foldlM step (state 0) = some (state n)
  | 0, _ => rfl
  | n + 1, h => by
    have ih := foldlM_indices step state n fun k hk => h k (by omega)
    rw [List.range_succ, List.map_append, List.foldlM_append, ih]
    simp [h n (by omega)]

section Loops
variable {x y : View α} (hx : x.Inside)
include hx

theorem mapElements?_eq (f : α → α) : x.mapElements? f = some (x.mapElements f) := by
  have hl : (x.gather.map f).length = x.n.toNat := by rw [List.length_map, length_gather hx]
  have hloop := foldlM_indices (fun v i => v.update? i f)
    (fun k => x.scatter ((x.gather.map f).take k)) x.n.toNat fun k hk => by
      have hal := alike_scatter x ((x.gather.map f).take k)
      obtain ⟨a, ha⟩ := exists_elem? hx hk
      have hz : (x.gather.map f)[k]? = some (f a) := by
        rw [List.getElem?_map, getElem?_gather hx hk, ha, Option.map_some]
      rw [scatter_take_succ x hz]
      refine update?_eq (hal.inside hx) (by rw [hal.n]; exact hk) ?_ f
      rw [elem?_scatter_of_le hx hk (List.length_take_le _ _), ha]
  rw [List.take_of_length_le hl.le] at hloop
  exact hloop

variable (hy : y.Inside) (hn : x.n = y.n)
include hy hn

theorem length_zipWith_gather {β : Type} (f : α → α → β) :
    (List.zipWith f x.gather y.gather).length = x.n.toNat := by
  rw [List.length_zipWith, length_gather hx, length_gather hy, hn, Nat.min_self]

theorem getElem?_zipWith_gather {β : Type} (f : α → α → β) {k : ℕ} {a b : α}
    (hk : k < x.n.toNat) (ha : x.elem? k = some a) (hb : y.elem? k = some b) :
    (List.zipWith f x.gather y.gather)[k]? = some (f a b) := by
  rw [List.getElem?_zipWith, getElem?_gather hx hk, getElem?_gather hy (by rw [← hn]; exact hk),
    ha, hb]

theorem updateFrom?_eq (f : α → α → α) :
    x.updateFrom? f y = some (y.scatter (List.zipWith f x.gather y.gather)) := by
  have hl := length_zipWith_gather hx hy hn f
  have hloop := foldlM_indices (fun v i => do v.update? i (f (← x.get? i)))
    (fun k => y.scatter ((List.zipWith f x.gather y.gather).take k)) x.n.toNat fun k hk => by
      have hk' : k < y.n.toNat := by rw [← hn]; exact hk
      have hal := alike_scatter y ((List.zipWith f x.gather y.gather).take k)
      obtain ⟨a, ha⟩ := exists_elem? hx hk
      obtain ⟨b, hb⟩ := exists_elem? hy hk'
      rw [scatter_take_succ y (getElem?_zipWith_gather hx hy hn f hk ha hb), get?_eq hx hk, ha]
      refine update?_eq (hal.inside hy) (by rw [hal.n]; exact hk') ?_ (f a)
      rw [elem?_scatter_of_le hy hk' (List.length_take_le _ _), hb]
  rw [List.take_of_length_le hl.le] at hloop
  exact hloop

theorem mapPairs?_eq (f : α → α → α × α) : x.mapPairs? f y = some (x.mapPairs f y) := by
  set us := List.zipWith (fun a b => (f a b).1) x.gather y.gather with hus
  set ws := List.zipWith (fun a b => (f a b).2) x.gather y.gather with hws
  have hul : us.length = x.n.toNat := length_zipWith_gather hx hy hn _
  have hwl : ws.length = x.n.toNat := length_zipWith_gather hx hy hn _
  have hloop := foldlM_indices (updatePair? f)
    (fun k => (x.scatter (us.take k), y.scatter (ws.take k))) x.n.toNat fun k hk => by
      have hk' : k < y.n.toNat := by rw [← hn]; exact hk
      have hxal := alike_scatter x (us.take k)
      have hyal := alike_scatter y (ws.take k)
      have hxin := hxal.inside hx
      have hyin := hyal.inside hy
      have hxk : k < (x.scatter (us.take k)).n.toNat := by rw [hxal.n]; exact hk
      have hyk : k < (y.scatter (ws.take k)).n.toNat := by rw [hyal.n]; exact hk'
      obtain ⟨a, ha⟩ := exists_elem? hx hk
      obtain ⟨b, hb⟩ := exists_elem? hy hk'
      have hu : us[k]? = some (f a b).1 := getElem?_zipWith_gather hx hy hn _ hk ha hb
      have hw : ws[k]? = some (f a b).2 := getElem?_zipWith_gather hx hy hn _ hk ha hb
      have ha' := elem?_scatter_of_le hx hk (List.length_take_le k us)
      have hb' := elem?_scatter_of_le hy hk' (List.length_take_le k ws)
      rw [scatter_take_succ x hu, scatter_take_succ y hw]
      unfold updatePair?
      rw [get?_eq hxin hxk, get?_eq hyin hyk, ha', hb', ha, hb]
      simp only [Option.bind_eq_bind, Option.bind_some, set?_eq hxin hxk, set?_eq hyin hyk,
        Option.pure_def]
  rw [List.take_of_length_le hul.le, List.take_of_length_le hwl.le] at hloop
  exact hloop

end Loops

/-! ### Blocks -/

theorem place_of_isContiguous {v : View α} (hc : v.isContiguous) (i : ℕ) :
    v.place i = v.offset.toNat + i := by
  have hinc : v.inc = 1 := by simpa [isContiguous] using hc
  have hpos : (0 : Int64) < 1 := by decide
  have habs : (1 : Int64).toInt.natAbs = 1 := rfl
  unfold View.place Window.place reach window
  simp only [hinc, if_pos hpos, habs, Nat.mul_one]

section Blocks
variable {v : View α} (hv : v.Inside) (hc : v.isContiguous)
include hv hc

theorem block_le_size : v.offset.toNat + v.n.toNat ≤ v.buffer.cells.size := by
  have hoff : v.offset.toNat < v.buffer.cells.size := hv.offset_lt
  rcases Nat.eq_zero_or_pos v.n.toNat with h0 | hpos
  · omega
  · have hlast := hv.place_lt (show v.n.toNat - 1 < v.n.toNat by omega)
    rw [place_of_isContiguous hc] at hlast
    omega

/-- Reading the block is gathering. -/
theorem block?_eq : v.block? = some v.gather.toArray := by
  have hle := block_le_size hv hc
  unfold block? Buffer.slice?
  rw [if_pos hle, Option.some.injEq]
  refine Array.ext_getElem? fun i => ?_
  have hg : v.gather.toArray[i]? = v.gather[i]? := by simp
  rw [Array.getElem?_extract, Nat.min_eq_left hle, hg]
  rcases Nat.lt_or_ge i v.n.toNat with hi | hi
  · rw [if_pos (by omega), getElem?_gather hv hi, elem?, place_of_isContiguous hc]
    rfl
  · rw [if_neg (by omega), List.getElem?_eq_none (by rw [length_gather hv]; exact hi)]

theorem contiguous?_eq : v.contiguous? = some (some v.gather.toArray) := by
  unfold contiguous?
  rw [if_pos hc, block?_eq hv hc, Option.map_some]

omit hc in
theorem contiguous?_eq_ite :
    v.contiguous? = some (if v.isContiguous then some v.gather.toArray else none) := by
  split_ifs with h
  · exact contiguous?_eq hv h
  · unfold contiguous?
    rw [if_neg h]

/-- Writing the block is scattering. -/
theorem setBlock?_eq {block : Array α} (hb : block.size = v.n.toNat) :
    v.setBlock? block = some (v.scatter block.toList) := by
  have hle := block_le_size hv hc
  have hal := alike_scatter v block.toList
  have hbl : block.toList.length = v.n.toNat := by rw [Array.length_toList, hb]
  have hfit : v.offset.toNat + block.size ≤ v.buffer.cells.size := by omega
  obtain ⟨c, hc', hget⟩ := Buffer.exists_splice? hfit
  unfold setBlock?
  rw [if_pos hb, hc']
  simp only [Option.bind_eq_bind, Option.bind_some, Option.pure_def, Option.some.injEq]
  refine View.ext (Buffer.ext_get? fun j => ?_) hal.offset.symm hal.n.symm hal.inc.symm
  rw [hget]
  split_ifs with h
  · have hplace : v.place (j - v.offset.toNat) = j := by
      rw [place_of_isContiguous hc]; omega
    have := get?_scatter_place hv hbl.le (show j - v.offset.toNat < _ by omega)
    rw [hplace] at this
    rw [this, Array.getElem?_toList]
  · rw [get?_scatter_of_ne v fun i hi e => h (by rw [place_of_isContiguous hc] at e; omega)]

end Blocks

/-! ### Maps that leave elements as they are -/

theorem mapElements_id {x : View α} (hx : x.Inside) : x.mapElements (fun a => a) = x := by
  unfold mapElements
  rw [List.map_id', scatter_gather hx]

section Pairs
variable {x y : View α} (hx : x.Inside) (hy : y.Inside) (hn : x.n = y.n)
include hx hy hn

theorem mapPairs_fst {f : α → α → α × α} (hf : ∀ a b, (f a b).1 = a) :
    (x.mapPairs f y).1 = x := by
  have hz : List.zipWith (fun a b => (f a b).1) x.gather y.gather = x.gather := by
    simp only [hf]
    rw [← List.map_uncurry_zip_eq_zipWith]
    exact List.map_fst_zip (by rw [length_gather hx, length_gather hy, hn])
  unfold mapPairs
  rw [hz, scatter_gather hx]

theorem mapPairs_snd {f : α → α → α × α} (hf : ∀ a b, (f a b).2 = b) :
    (x.mapPairs f y).2 = y := by
  have hz : List.zipWith (fun a b => (f a b).2) x.gather y.gather = y.gather := by
    simp only [hf]
    rw [← List.map_uncurry_zip_eq_zipWith]
    exact List.map_snd_zip (by rw [length_gather hx, length_gather hy, hn])
  unfold mapPairs
  rw [hz, scatter_gather hy]

end Pairs

end View

namespace Kernel

variable {α ρ : Type} [Scalar α ρ] {x y : View α}

theorem scal_eq (hx : x.Inside) (alpha : α) : scal alpha x = some (x.mapElements (alpha * ·)) := by
  unfold scal
  split_ifs with hc
  · have hl : (x.gather.map (alpha * ·)).toArray.size = x.n.toNat := by
      simp [View.length_gather hx]
    simp only [View.block?_eq hx hc, Option.bind_eq_bind, Option.bind_some, List.map_toArray]
    exact View.setBlock?_eq hx hc hl
  · exact View.mapElements?_eq hx _

/-- Whether the sum over a view is formed under the schedule. -/
def isLong (v : View α) : Bool := v.isContiguous && decide (longLength ≤ v.n.toNat)

/-- The sum of a list of terms, under a schedule if it is long. -/
def total {β : Type} [Zero β] [Add β] (plan : Schedule) (long : Bool) (terms : List β) : β :=
  if long then plan.reduce (· + ·) 0 terms else terms.foldl (· + ·) 0

omit [Scalar α ρ] in
theorem longBlock?_eq (hx : x.Inside) :
    longBlock? x = some (if isLong x then some x.gather.toArray else none) := by
  have hsize : x.gather.toArray.size = x.n.toNat := by
    rw [List.size_toArray, View.length_gather hx]
  unfold longBlock? isLong
  rw [View.contiguous?_eq_ite hx]
  by_cases hc : x.isContiguous <;> by_cases hl : longLength ≤ x.n.toNat <;>
    simp [hc, hl, hsize, Option.filter]

/-- **A sum of products**: the blocks pair the same elements as the reading one by one. -/
theorem dotWith_eq (hx : x.Inside) (hy : y.Inside) (plan : Schedule) (f : α → α) :
    dotWith plan f x y =
      some (total plan (isLong x && y.isContiguous) (products f x.gather y.gather)) := by
  unfold dotWith total
  rw [longBlock?_eq hx, View.contiguous?_eq_ite hy, View.elements?_eq hx, View.elements?_eq hy]
  by_cases hl : isLong x <;> by_cases hc : y.isContiguous <;> simp [hl, hc]

theorem asum_eq [RealScalar ρ] (hx : x.Inside) (plan : Schedule) :
    asum plan x = some (total plan (isLong x) (x.gather.map Scalar.abs1)) := by
  unfold asum total
  rw [longBlock?_eq hx, View.elements?_eq hx]
  by_cases hl : isLong x <;> simp [hl]

variable (hx : x.Inside) (hy : y.Inside) (hn : x.n = y.n)
include hx hy hn

theorem copy_eq : copy x y = some (x.mapPairs (fun a _ => (a, a)) y).2 := by
  have hz : List.zipWith (fun a _ => a) x.gather y.gather = x.gather := by
    rw [← List.map_uncurry_zip_eq_zipWith]
    exact List.map_fst_zip (by rw [View.length_gather hx, View.length_gather hy, hn])
  unfold copy
  split_ifs with hc
  · rw [Bool.and_eq_true] at hc
    have hl : x.gather.toArray.size = y.n.toNat := by
      rw [List.size_toArray, View.length_gather hx, hn]
    simp only [View.block?_eq hx hc.1, Option.bind_eq_bind, Option.bind_some]
    rw [View.setBlock?_eq hy hc.2 hl, View.mapPairs, hz]
  · exact View.updateFrom?_eq hx hy hn _

theorem axpy_eq (alpha : α) : axpy alpha x y =
    some (x.mapPairs (fun a b => (a, if alpha == 0 then b else b + alpha * a)) y).2 := by
  unfold axpy
  split_ifs with h
  · rw [View.mapPairs_snd hx hy hn fun _ _ => rfl]
  · exact View.updateFrom?_eq hx hy hn _

end Kernel

/-! ### Operations -/

variable {α ρ : Type} [RealScalar ρ] [Element α ρ]

namespace UnaryOp

/-- The image of an element under an operation; a reduction changes none. -/
def image (op : UnaryOp α ρ) (a : α) : α :=
  match op with
  | scal alpha => alpha * a
  | scalReal alpha => Scalar.mulReal a alpha
  | _ => a

/-- The answer of the kernel as a fold over the elements. -/
def fold (plan : Schedule) (long : Bool) (op : UnaryOp α ρ) (xs : List α) : Answer α ρ :=
  match op with
  | nrm2 => .real (Kernel.norm xs)
  | asum => .real (Kernel.total plan long (xs.map Scalar.abs1))
  | iamax => .index (Kernel.zeroBased (Kernel.firstPeak (xs.map Scalar.abs1)))
  | _ => .done

/-- The answer of the kernel. -/
def value (plan : Schedule) (op : UnaryOp α ρ) (x : View α) : Answer α ρ :=
  op.fold plan (Kernel.isLong x) x.gather

/-- **The effect of an operation on one view.** -/
theorem compute?_eq {x : View α} (hx : x.Inside) (plan : Schedule) (op : UnaryOp α ρ) :
    op.compute? plan x = some (x.mapElements op.image, op.value plan x) := by
  have hread := View.elements?_eq hx
  have hid := View.mapElements_id hx
  cases op with
  | scal alpha => rw [compute?, Kernel.scal_eq hx]; rfl
  | scalReal alpha => rw [compute?, Kernel.scalReal, View.mapElements?_eq hx]; rfl
  | nrm2 =>
    rw [compute?, Kernel.nrm2, hread]
    exact congrArg (fun v => some (v, _)) hid.symm
  | asum =>
    rw [compute?, Kernel.asum_eq hx]
    exact congrArg (fun v => some (v, _)) hid.symm
  | iamax =>
    rw [compute?, Kernel.iamax, hread]
    exact congrArg (fun v => some (v, _)) hid.symm

end UnaryOp

/-- The image of a pair under a modified rotation, by its flag: the pair stays as it is, or all four
entries of the matrix are used, or the diagonal is one, or the antidiagonal is one and minus one. -/
def Params.image (p : Params ρ) (a b : α) : α × α :=
  if p.flag == -(1 + 1) then (a, b)
  else if p.flag < 0 then
    (a * Scalar.ofReal p.h11 + b * Scalar.ofReal p.h12,
      a * Scalar.ofReal p.h21 + b * Scalar.ofReal p.h22)
  else if p.flag == 0 then (a + b * Scalar.ofReal p.h12, a * Scalar.ofReal p.h21 + b)
  else (a * Scalar.ofReal p.h11 + b, -a + Scalar.ofReal p.h22 * b)

theorem Params.apply_eq_image (p : Params ρ) (a b : α) : p.apply a b = p.image a b := by
  unfold Params.apply Params.form Form.ofFlag Params.image
  split_ifs <;> rfl

theorem Params.image_of_identity {p : Params ρ} (h : p.form = .identity) (a b : α) :
    p.image a b = (a, b) := by
  rw [← Params.apply_eq_image, Params.apply, h]

namespace BinaryOp

/-- The image of a pair of elements under an operation; a reduction changes none. -/
def image (op : BinaryOp α ρ) (a b : α) : α × α :=
  match op with
  | rot c s | rotInPlace c s =>
    (Scalar.mulReal a c + Scalar.mulReal b s, Scalar.mulReal b c - Scalar.mulReal a s)
  | rotm p | rotmInPlace p => p.image a b
  | swap => (b, a)
  | copy => (a, a)
  | axpy alpha => (a, if alpha.getD 1 == 0 then b else b + alpha.getD 1 * a)
  | _ => (a, b)

/-- The answer of the kernel as a fold over the pairs of elements. -/
def fold (plan : Schedule) (long : Bool) (op : BinaryOp α ρ) (xs ys : List α) : Answer α ρ :=
  match op with
  | dot | dotu => .scalar (Kernel.total plan long (Kernel.products id xs ys))
  | dotc => .scalar (Kernel.total plan long (Kernel.products Scalar.conj xs ys))
  | _ => .done

/-- The answer of the kernel. -/
def value (plan : Schedule) (op : BinaryOp α ρ) (x y : View α) : Answer α ρ :=
  op.fold plan (Kernel.isLong x && y.isContiguous) x.gather y.gather

section Views
variable {x y : View α} (hx : x.Inside) (hy : y.Inside) (hn : x.n = y.n)
include hx hy hn

theorem rotm_eq (p : Params ρ) : Kernel.rotm p x y = some (x.mapPairs p.image y) := by
  have hp : (p.apply : α → α → α × α) = p.image := by
    funext a b
    exact p.apply_eq_image a b
  unfold Kernel.rotm
  split_ifs with h
  · have himage := Params.image_of_identity (α := α) h
    refine congrArg some (Prod.ext ?_ ?_)
    · exact (View.mapPairs_fst hx hy hn fun a b => by rw [himage]).symm
    · exact (View.mapPairs_snd hx hy hn fun a b => by rw [himage]).symm
  · rw [View.mapPairs?_eq hx hy hn, hp]

/-- **The effect of an operation on two views.** -/
theorem compute?_eq (plan : Schedule) (op : BinaryOp α ρ) :
    op.compute? plan x y = some (x.mapPairs op.image y, op.value plan x y) := by
  -- An operation that writes only `y` leaves `x` as it is, and a reduction both.
  have hfst : ∀ {f : α → α → α × α}, (∀ a b, (f a b).1 = a) →
      (x, (x.mapPairs f y).2) = x.mapPairs f y := fun hf =>
    Prod.ext (View.mapPairs_fst hx hy hn hf).symm rfl
  have hread : (x, y) = x.mapPairs (fun a b => (a, b)) y :=
    Prod.ext (View.mapPairs_fst hx hy hn fun _ _ => rfl).symm
      (View.mapPairs_snd hx hy hn fun _ _ => rfl).symm
  cases op with
  | rot c s => rw [compute?, Kernel.rot, View.mapPairs?_eq hx hy hn]; rfl
  | rotInPlace c s => rw [compute?, Kernel.rot, View.mapPairs?_eq hx hy hn]; rfl
  | rotm p => rw [compute?, rotm_eq hx hy hn]; rfl
  | rotmInPlace p => rw [compute?, rotm_eq hx hy hn]; rfl
  | swap => rw [compute?, Kernel.swap, View.mapPairs?_eq hx hy hn]; rfl
  | copy =>
    rw [compute?, Kernel.copy_eq hx hy hn, Option.map_some, hfst fun _ _ => rfl]
    rfl
  | axpy alpha =>
    rw [compute?, Kernel.axpy_eq hx hy hn, Option.map_some, hfst fun _ _ => rfl]
    rfl
  | dot => rw [compute?, Kernel.dot, Kernel.dotWith_eq hx hy, Option.map_some, hread]; rfl
  | dotu => rw [compute?, Kernel.dot, Kernel.dotWith_eq hx hy, Option.map_some, hread]; rfl
  | dotc => rw [compute?, Kernel.dotc, Kernel.dotWith_eq hx hy, Option.map_some, hread]; rfl

end Views

end BinaryOp

end Strided
