import Strided.Proofs.Place

/-! # Gathering and scattering

The elements of a view form a list. `gather` reads this list, and `scatter` writes a list into the
window, each entry at the place of its element. On a view inside its buffer the two are inverse to
each other, and `scatter` changes no cell outside the window.

* `elements?_eq`: reading the elements one by one gives the gathered list.
* `gather_scatter`, `scatter_gather`: what was written is read, and writing back what was read
  changes nothing.
* `get?_scatter_place`, `get?_scatter_of_ne`: the cells after a list was written. -/

namespace Strided

/-! ### Lists of results that are all there -/

theorem filterMap_range {α : Type} {f : ℕ → Option α} : ∀ {m : ℕ}, (∀ i < m, ∃ a, f i = some a) →
    ((List.range m).filterMap f).length = m ∧
      ∀ i < m, ((List.range m).filterMap f)[i]? = f i
  | 0, _ => by simp
  | m + 1, h => by
    obtain ⟨hl, he⟩ := filterMap_range fun i (hi : i < m) => h i (by omega)
    obtain ⟨a, ha⟩ := h m (by omega)
    have hs : (List.range (m + 1)).filterMap f = (List.range m).filterMap f ++ [a] := by
      simp [List.range_succ, ha]
    rw [hs]
    refine ⟨by simp [hl], fun i hi => ?_⟩
    rcases Nat.lt_or_ge i m with h' | h'
    · rw [List.getElem?_append_left (by omega), he i h']
    · obtain rfl : i = m := by omega
      rw [List.getElem?_append_right (by omega), hl, ha]
      simp

theorem mapM_eq_filterMap {α β : Type} {f : β → Option α} : ∀ {l : List β},
    (∀ b ∈ l, ∃ a, f b = some a) → l.mapM f = some (l.filterMap f)
  | [], _ => rfl
  | b :: l, h => by
    obtain ⟨a, ha⟩ := h b (by simp)
    rw [List.mapM_cons, ha, mapM_eq_filterMap fun c hc => h c (by simp [hc]),
      List.filterMap_cons_some ha]
    rfl

/-! ### Cells -/

namespace Buffer

variable {α : Type}

/-- Write cell `j`, if there is one. -/
def write (b : Buffer α) (j : ℕ) (a : α) : Buffer α :=
  ⟨b.cells.setIfInBounds j a, by simpa using b.size_lt⟩

@[simp] theorem size_write (b : Buffer α) (j : ℕ) (a : α) :
    (b.write j a).cells.size = b.cells.size := by
  simp [write]

theorem get?_write_self {b : Buffer α} {j : ℕ} (h : j < b.cells.size) (a : α) :
    (b.write j a).get? j = some a :=
  Array.getElem?_setIfInBounds_self_of_lt h

theorem get?_write_of_ne (b : Buffer α) {j k : ℕ} (h : j ≠ k) (a : α) :
    (b.write j a).get? k = b.get? k :=
  Array.getElem?_setIfInBounds_ne h

theorem set?_eq_write {b : Buffer α} {j : ℕ} (h : j < b.cells.size) (a : α) :
    b.set? j a = some (b.write j a) := by
  rw [set?_eq_some_iff]
  exact ⟨h, by simp [write, Array.setIfInBounds, h]⟩

/-- Buffers with the same cells are equal. -/
theorem ext_get? {b c : Buffer α} (h : ∀ j, b.get? j = c.get? j) : b = c :=
  Buffer.ext (Array.ext_getElem? h)

theorem isSome_get? {b : Buffer α} {j : ℕ} (h : j < b.cells.size) : ∃ a, b.get? j = some a :=
  ⟨b.cells[j], Array.getElem?_eq_getElem h⟩

/-- A block inside the buffer can be written; all other cells keep their content. -/
theorem exists_splice? {b : Buffer α} {i : ℕ} {block : Array α}
    (h : i + block.size ≤ b.cells.size) :
    ∃ c, b.splice? i block = some c ∧
      ∀ j, c.get? j = if i ≤ j ∧ j < i + block.size then block[j - i]? else b.get? j := by
  unfold splice?
  rw [dif_pos h]
  refine ⟨_, rfl, fun j => ?_⟩
  have hmin : min i b.cells.size = i := by omega
  unfold get?
  simp only [Array.getElem?_append, Array.getElem?_extract, Array.size_append, Array.size_extract,
    hmin, Nat.min_self, Nat.sub_zero, Nat.zero_add]
  rcases Nat.lt_or_ge j i with h1 | h1
  · rw [if_pos (by omega), if_pos h1, if_pos h1, if_neg (by omega)]
  rcases Nat.lt_or_ge j (i + block.size) with h2 | h2
  · rw [if_pos h2, if_neg (by omega), if_pos ⟨h1, h2⟩]
  · have hout : ¬ (i ≤ j ∧ j < i + block.size) := by omega
    rw [if_neg (by omega), if_neg hout]
    split_ifs with h3
    · rw [Nat.add_sub_cancel' h2]
    · rw [Array.getElem?_eq_none (by omega)]

end Buffer

namespace View

variable {α : Type}

/-! ### Single elements -/

/-- Element `i` of a view. -/
def elem? (v : View α) (i : ℕ) : Option α := v.buffer.get? (v.place i)

/-- Write element `i`. -/
def put (v : View α) (i : ℕ) (a : α) : View α :=
  { v with buffer := v.buffer.write (v.place i) a }

/-- Two views have the same window over buffers of the same size. -/
structure Alike (v w : View α) : Prop where
  offset : v.offset = w.offset
  n : v.n = w.n
  inc : v.inc = w.inc
  size : v.buffer.cells.size = w.buffer.cells.size

theorem Alike.refl (v : View α) : v.Alike v := ⟨rfl, rfl, rfl, rfl⟩

theorem Alike.put {v w : View α} (h : v.Alike w) (i : ℕ) (a : α) : (v.put i a).Alike w :=
  ⟨h.offset, h.n, h.inc, (Buffer.size_write _ _ _).trans h.size⟩

theorem Alike.place {v w : View α} (h : v.Alike w) (i : ℕ) : v.place i = w.place i := by
  unfold View.place window
  rw [h.offset, h.n, h.inc]

theorem Alike.inside {v w : View α} (h : v.Alike w) (hw : w.Inside) : v.Inside := by
  unfold Inside window
  rw [h.offset, h.n, h.inc, h.size]
  exact hw

theorem get?_of_cell? {v : View α} {i : UInt64} {c : ℕ} (h : v.cell? i = some c) :
    v.get? i = v.buffer.get? c := by
  unfold get?
  rw [h]
  rfl

theorem set?_of_cell? {v : View α} {i : UInt64} {c : ℕ} (h : v.cell? i = some c)
    (hc : c < v.buffer.cells.size) (a : α) :
    v.set? i a = some { v with buffer := v.buffer.write c a } := by
  unfold set?
  simp only [h, Option.bind_eq_bind, Option.bind_some, Buffer.set?_eq_write hc]
  rfl

section Inside
variable {v : View α} (hv : v.Inside) {i : ℕ} (hi : i < v.n.toNat)
include hv hi

theorem exists_elem? : ∃ a, v.elem? i = some a := Buffer.isSome_get? (hv.place_lt hi)

theorem get?_eq : v.get? (UInt64.ofNat i) = v.elem? i := get?_of_cell? (cell?_eq hv hi)

theorem set?_eq (a : α) : v.set? (UInt64.ofNat i) a = some (v.put i a) :=
  set?_of_cell? (cell?_eq hv hi) (hv.place_lt hi) a

theorem update?_eq {a : α} (ha : v.elem? i = some a) (f : α → α) :
    v.update? (UInt64.ofNat i) f = some (v.put i (f a)) := by
  unfold update?
  rw [get?_eq hv hi, ha]
  exact set?_eq hv hi (f a)

end Inside

/-! ### The list of elements -/

/-- The elements in logical order. -/
def gather (v : View α) : List α := (List.range v.n.toNat).filterMap v.elem?

/-- Write the entries of a list as the first elements. -/
def scatter (v : View α) (zs : List α) : View α := zs.zipIdx.foldl (fun s e => s.put e.2 e.1) v

theorem scatter_concat (v : View α) (zs : List α) (z : α) :
    v.scatter (zs ++ [z]) = (v.scatter zs).put zs.length z := by
  simp [scatter, List.zipIdx_append]

theorem scatter_take_succ (v : View α) {zs : List α} {k : ℕ} {z : α} (h : zs[k]? = some z) :
    v.scatter (zs.take (k + 1)) = (v.scatter (zs.take k)).put k z := by
  have hk : k < zs.length := by
    by_contra hk
    rw [List.getElem?_eq_none (by omega)] at h
    cases h
  rw [List.take_add_one, h, Option.toList_some, scatter_concat, List.length_take,
    Nat.min_eq_left (by omega)]

theorem alike_scatter (v : View α) (zs : List α) : (v.scatter zs).Alike v := by
  induction zs using List.reverseRecOn with
  | nil => exact Alike.refl v
  | append_singleton zs z ih =>
    rw [scatter_concat]
    exact ih.put zs.length z

/-- A cell where no entry is written keeps its content. -/
theorem get?_scatter_of_ne (v : View α) {zs : List α} {j : ℕ}
    (h : ∀ i < zs.length, v.place i ≠ j) :
    (v.scatter zs).buffer.get? j = v.buffer.get? j := by
  induction zs using List.reverseRecOn with
  | nil => rfl
  | append_singleton zs z ih =>
    simp only [List.length_append, List.length_singleton] at h
    rw [scatter_concat]
    unfold put
    rw [Buffer.get?_write_of_ne, ih fun i hi => h i (by omega)]
    rw [(alike_scatter v zs).place]
    exact h _ (by omega)

theorem elem?_scatter_of_le {v : View α} (hv : v.Inside) {zs : List α} {i : ℕ}
    (hi : i < v.n.toNat) (h : zs.length ≤ i) : (v.scatter zs).elem? i = v.elem? i := by
  unfold elem?
  rw [(alike_scatter v zs).place, get?_scatter_of_ne]
  intro k hk e
  have := hv.place_inj (by omega) hi e
  omega

/-- The place of an element holds the entry that was written for it. -/
theorem get?_scatter_place {v : View α} (hv : v.Inside) {zs : List α}
    (hl : zs.length ≤ v.n.toNat) {i : ℕ} (hi : i < zs.length) :
    (v.scatter zs).buffer.get? (v.place i) = zs[i]? := by
  induction zs using List.reverseRecOn with
  | nil => simp at hi
  | append_singleton zs z ih =>
    simp only [List.length_append, List.length_singleton] at hl hi
    have hal := alike_scatter v zs
    rw [scatter_concat]
    unfold put
    rw [hal.place]
    rcases Nat.lt_or_ge i zs.length with h | h
    · have hne : v.place zs.length ≠ v.place i := fun e => by
        have := hv.place_inj (by omega) (by omega) e
        omega
      rw [Buffer.get?_write_of_ne _ hne, ih (by omega) h, List.getElem?_append_left h]
    · obtain rfl : i = zs.length := by omega
      have hlt : v.place zs.length < (v.scatter zs).buffer.cells.size := by
        rw [hal.size]; exact hv.place_lt (by omega)
      rw [Buffer.get?_write_self hlt]
      simp

/-! ### Reading the list -/

section Inside
variable {v : View α} (hv : v.Inside)
include hv

theorem length_gather : v.gather.length = v.n.toNat :=
  (filterMap_range fun _ hi => exists_elem? hv hi).1

theorem getElem?_gather {i : ℕ} (hi : i < v.n.toNat) : v.gather[i]? = v.elem? i :=
  (filterMap_range fun _ hi => exists_elem? hv hi).2 i hi

/-- **Reading a view.** -/
theorem elements?_eq : v.elements? = some v.gather := by
  have hget : ∀ i ∈ List.range v.n.toNat, v.get? (UInt64.ofNat i) = v.elem? i :=
    fun i hi => get?_eq hv (List.mem_range.mp hi)
  unfold elements? indices
  rw [mapM_eq_filterMap, List.filterMap_map]
  · exact congrArg some (List.filterMap_congr hget)
  · intro k hk
    obtain ⟨i, hi, rfl⟩ := List.mem_map.mp hk
    rw [hget i hi]
    exact exists_elem? hv (List.mem_range.mp hi)

/-- **What was written is read.** -/
theorem gather_scatter {zs : List α} (hl : zs.length = v.n.toNat) : (v.scatter zs).gather = zs := by
  have hal := alike_scatter v zs
  have hin := hal.inside hv
  refine List.ext_getElem? fun i => ?_
  rcases Nat.lt_or_ge i v.n.toNat with hi | hi
  · rw [getElem?_gather hin (by rw [hal.n]; exact hi)]
    unfold elem?
    rw [hal.place, get?_scatter_place hv hl.le (by omega)]
  · rw [List.getElem?_eq_none (by rw [length_gather hin, hal.n]; exact hi),
      List.getElem?_eq_none (by omega)]

theorem elements?_scatter {zs : List α} (hl : zs.length = v.n.toNat) :
    (v.scatter zs).elements? = some zs := by
  rw [elements?_eq ((alike_scatter v zs).inside hv), gather_scatter hv hl]

/-- **Writing back what was read changes nothing.** -/
theorem scatter_gather : v.scatter v.gather = v := by
  have hal := alike_scatter v v.gather
  have hl := length_gather hv
  refine View.ext (Buffer.ext_get? fun j => ?_) hal.offset hal.n hal.inc
  by_cases h : ∃ i < v.n.toNat, v.place i = j
  · obtain ⟨i, hi, rfl⟩ := h
    rw [get?_scatter_place hv hl.le (by omega), getElem?_gather hv hi]
    rfl
  · exact get?_scatter_of_ne v fun i hi e => h ⟨i, by omega, e⟩

end Inside

end View

end Strided
