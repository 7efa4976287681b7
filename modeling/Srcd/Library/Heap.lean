import Mathlib

/-! # Go's `container/heap` on a slice

`container/heap` keeps a slice as a binary heap through the slice's own `Len`, `Less`, `Swap`,
`Push` and `Pop`: no element is less than its parent, at `(j - 1) / 2`. `up` moves an element
towards the root while it is less than its parent, `down` moves one towards the leaves while a
child is less than it. `Push` appends and moves the new element up; `Pop` swaps the first
element to the end, moves the new first one down and takes the last off; `Remove` does the same
for any index, and moves the new element up if it did not move down.

Here the slice is a list, its `Swap` is `List.swap`, its `Push` appends and its `Pop` takes the
last element off, as every heap type of a Go program does; `Less` is a Boolean relation on the
elements. A Go panic on an empty heap is `none`.

When `less` compares a key in a linear order, every operation keeps the elements up to their
order, keeps the heap order, and `Pop` takes off a least element.
-/

namespace Srcd.Library.Heap
set_option autoImplicit false

variable {α : Type}

/-- The parent of index `j`. -/
def parent (j : ℕ) : ℕ := (j - 1) / 2

theorem parent_le (j : ℕ) : parent j ≤ j := by unfold parent; omega

theorem parent_lt {j : ℕ} (hj : 0 < j) : parent j < j := by unfold parent; omega

theorem child_of_parent_eq {k i : ℕ} (hk : 0 < k) (h : parent k = i) :
    k = 2 * i + 1 ∨ k = 2 * i + 2 := by unfold parent at h; omega

theorem pos_of_parent_eq {k i : ℕ} (hi : 0 < i) (h : parent k = i) : 0 < k := by
  unfold parent at h; omega

section Operations
variable (less : α → α → Bool)

/-- `h.Less(i, j)` on the slice; both indices are in range wherever the heap asks. -/
def lessAt (h : List α) (i j : ℕ) : Bool :=
  match h[i]?, h[j]? with
  | some a, some b => less a b
  | _, _ => false

/-- `up(h, j)`. -/
def up (h : List α) (j : ℕ) : List α :=
  if parent j = j ∨ !lessAt less h j (parent j) then h
  else up (h.swap (parent j) j) (parent j)
termination_by j
decreasing_by
  have := parent_le j
  omega

/-- The child of `i` that `down` compares `i` with: the right one if it is below `n` and less
than the left one. -/
def smallerChild (h : List α) (i n : ℕ) : ℕ :=
  if 2 * i + 2 < n ∧ lessAt less h (2 * i + 2) (2 * i + 1) then 2 * i + 2 else 2 * i + 1

theorem smallerChild_bounds {h : List α} {i n : ℕ} (hc : 2 * i + 1 < n) :
    i < smallerChild less h i n ∧ smallerChild less h i n < n := by
  unfold smallerChild
  split <;> omega

theorem parent_smallerChild (h : List α) (i n : ℕ) : parent (smallerChild less h i n) = i := by
  unfold smallerChild parent
  split <;> omega

/-- `down(h, i0, n)`, with the index where the element stops; Go returns whether it is past
`i0`. -/
def down (h : List α) (i n : ℕ) : List α × ℕ :=
  if n ≤ 2 * i + 1 then (h, i)
  else if !lessAt less h (smallerChild less h i n) i then (h, i)
  else down (h.swap i (smallerChild less h i n)) (smallerChild less h i n) n
termination_by n - i
decreasing_by
  have := smallerChild_bounds less (h := h) (Nat.lt_of_not_le ‹_›)
  omega

/-- `heap.Push(h, x)`. -/
def push (h : List α) (x : α) : List α := up less (h ++ [x]) h.length

/-- The slice's own `Pop`: its last element, taken off. -/
def popLast (h : List α) : Option (α × List α) := h.getLast?.map fun x => (x, h.dropLast)

/-- `heap.Pop(h)`. -/
def pop (h : List α) : Option (α × List α) :=
  popLast ((down less (h.swap 0 (h.length - 1)) 0 (h.length - 1)).1)

/-- `heap.Remove(h, i)`, for `i` in range. -/
def remove (h : List α) (i : ℕ) : Option (α × List α) :=
  if h.length - 1 ≠ i then
    let d := down less (h.swap i (h.length - 1)) i (h.length - 1)
    popLast (if i < d.2 then d.1 else up less d.1 i)
  else popLast h

/-- The heap order below `n`: no element is less than its parent. -/
def HeapBelow (h : List α) (n : ℕ) : Prop :=
  ∀ k, k < n → 0 < k → lessAt less h k (parent k) = false

instance (h : List α) (n : ℕ) : Decidable (HeapBelow less h n) :=
  inferInstanceAs (Decidable (∀ k, k < n → 0 < k → lessAt less h k (parent k) = false))

/-- The heap order on the whole slice. -/
def IsHeap (h : List α) : Prop := HeapBelow less h h.length

instance (h : List α) : Decidable (IsHeap less h) := inferInstanceAs (Decidable (HeapBelow ..))

/-- What `up` keeps while it moves the element at `j` below `n`: every other element is in
order with its parent, and the children of `j` are in order with `j`'s parent. -/
structure UpInv (h : List α) (j n : ℕ) : Prop where
  ordered : ∀ k, k < n → 0 < k → k ≠ j → lessAt less h k (parent k) = false
  children : 0 < j → ∀ k, k < n → parent k = j → lessAt less h k (parent j) = false

/-- What `down` keeps while it moves the element at `i` below `n`: every element but `i` and
its children is in order with its parent, and the children of `i` are in order with `i`'s
parent. -/
structure DownInv (h : List α) (i n : ℕ) : Prop where
  ordered : ∀ k, k < n → 0 < k → k ≠ i → parent k ≠ i → lessAt less h k (parent k) = false
  children : 0 < i → ∀ k, k < n → parent k = i → lessAt less h k (parent i) = false

end Operations

/-! ## What the operations move -/

section Frame
variable {less : α → α → Bool}

theorem getElem?_swap {h : List α} {i j : ℕ} (hi : i < h.length) (hj : j < h.length) (k : ℕ) :
    (h.swap i j)[k]? = h[Equiv.swap i j k]? := by
  rw [List.swap_eq_of_lt hi hj]
  simp only [List.getElem?_set, Equiv.swap_apply_def, List.length_set]
  by_cases hki : k = i
  · subst hki
    by_cases hkj : k = j <;> simp_all
  · by_cases hkj : k = j
    · subst hkj
      simp_all
    · simp [hki, hkj, Ne.symm hki, Ne.symm hkj]

theorem getElem?_swap_of_ne {h : List α} {i j k : ℕ} (hki : k ≠ i) (hkj : k ≠ j) :
    (h.swap i j)[k]? = h[k]? := by
  by_cases hi : i < h.length
  · by_cases hj : j < h.length
    · rw [getElem?_swap hi hj, Equiv.swap_apply_of_ne_of_ne hki hkj]
    · rw [List.swap_eq_of_ge_right (Nat.le_of_not_lt hj)]
  · rw [List.swap_eq_of_ge_left (Nat.le_of_not_lt hi)]

theorem lessAt_swap (less : α → α → Bool) {h : List α} {i j : ℕ} (hi : i < h.length)
    (hj : j < h.length) (a b : ℕ) :
    lessAt less (h.swap i j) a b = lessAt less h (Equiv.swap i j a) (Equiv.swap i j b) := by
  simp only [lessAt, getElem?_swap hi hj]

theorem lessAt_of_lt {h : List α} {a b : ℕ} (ha : a < h.length) (hb : b < h.length) :
    lessAt less h a b = less h[a] h[b] := by
  simp [lessAt, ha, hb]

/-- The order of two positions reads only the elements there. -/
theorem lessAt_congr {h h' : List α} {a b : ℕ} (ha : h[a]? = h'[a]?) (hb : h[b]? = h'[b]?) :
    lessAt less h a b = lessAt less h' a b := by
  simp only [lessAt, ha, hb]

theorem HeapBelow.congr {h h' : List α} {n : ℕ} (hh : HeapBelow less h n)
    (heq : ∀ k, k < n → h[k]? = h'[k]?) : HeapBelow less h' n := by
  intro k hk hk0
  have hp := parent_lt hk0
  rw [← lessAt_congr (heq k hk) (heq _ (by omega))]
  exact hh k hk hk0

theorem up_perm (h : List α) (j : ℕ) : (up less h j).Perm h := by
  fun_induction up less h j with
  | case1 => rfl
  | case2 h j _ ih => exact ih.trans (List.swap_perm h _ _)

/-- `up` from `j` moves nothing past `j`. -/
theorem up_getElem?_of_lt (h : List α) {j k : ℕ} (hk : j < k) : (up less h j)[k]? = h[k]? := by
  fun_induction up less h j with
  | case1 => rfl
  | case2 h j _ ih =>
    have := parent_le j
    rw [ih (by omega), getElem?_swap_of_ne (by omega) (by omega)]

theorem down_perm (h : List α) (i n : ℕ) : (down less h i n).1.Perm h := by
  fun_induction down less h i n with
  | case1 | case2 => rfl
  | case3 h i _ _ ih => exact ih.trans (List.swap_perm h _ _)

/-- `down` below `n` moves nothing from `n` on. -/
theorem down_getElem?_of_le (h : List α) (i : ℕ) {n k : ℕ} (hk : n ≤ k) :
    (down less h i n).1[k]? = h[k]? := by
  fun_induction down less h i n with
  | case1 | case2 => rfl
  | case3 h i hc _ ih =>
    have := smallerChild_bounds less (h := h) (Nat.lt_of_not_le hc)
    rw [ih, getElem?_swap_of_ne (by omega) (by omega)]

theorem le_down_index (h : List α) (i n : ℕ) : i ≤ (down less h i n).2 := by
  fun_induction down less h i n with
  | case1 | case2 => exact le_rfl
  | case3 h i hc _ ih =>
    have := smallerChild_bounds less (h := h) (Nat.lt_of_not_le hc)
    omega

/-! ### The slice's `Pop` -/

theorem popLast_eq {h : List α} {n : ℕ} {x : α} (hlen : h.length = n + 1) (hx : h[n]? = some x) :
    popLast h = some (x, h.dropLast) := by
  have hx' : h[h.length - 1]? = some x := by rwa [hlen, Nat.add_sub_cancel]
  simp only [popLast, List.getLast?_eq_getElem?, hx', Option.map_some]

theorem perm_cons_dropLast {h : List α} {n : ℕ} {x : α} (hlen : h.length = n + 1)
    (hx : h[n]? = some x) : (x :: h.dropLast).Perm h := by
  have hx' : h[h.length - 1]? = some x := by rwa [hlen, Nat.add_sub_cancel]
  have happ : h.dropLast ++ [x] = h :=
    List.dropLast_append_getLast? x (by rw [List.getLast?_eq_getElem?, hx']; rfl)
  have hperm := List.perm_append_singleton x h.dropLast
  rw [happ] at hperm
  exact hperm.symm

theorem HeapBelow.isHeap_dropLast {h : List α} {n : ℕ} (hh : HeapBelow less h n)
    (hlen : h.length = n + 1) : IsHeap less h.dropLast := by
  unfold IsHeap
  rw [List.length_dropLast, hlen, Nat.add_sub_cancel]
  exact hh.congr fun k hk => by simp [hlen, hk]

/-- `Pop` takes one element off. -/
theorem length_of_pop {h h' : List α} {x : α} (hp : pop less h = some (x, h')) :
    h'.length + 1 = h.length := by
  obtain ⟨y, hy, hxy⟩ := Option.map_eq_some_iff.1 hp
  cases hxy
  have hne := List.ne_nil_of_mem (List.mem_of_getLast? hy)
  have hpos := List.length_pos_of_ne_nil hne
  rw [(down_perm ..).length_eq, List.length_swap] at hpos
  rw [List.length_dropLast, (down_perm ..).length_eq, List.length_swap]
  omega

theorem HeapBelow.mono {h : List α} {m n : ℕ} (hh : HeapBelow less h n) (hmn : m ≤ n) :
    HeapBelow less h m :=
  fun k hk hk0 => hh k (by omega) hk0

/-- A slice in heap order below its last place: its `Pop` leaves a heap. -/
theorem HeapBelow.popLast {h r : List α} {n : ℕ} {x : α} (hr : HeapBelow less r n)
    (hperm : r.Perm h) (hlen : r.length = n + 1) (hx : r[n]? = some x) :
    ∃ h', Heap.popLast r = some (x, h') ∧ IsHeap less h' ∧ (x :: h').Perm h :=
  ⟨r.dropLast, popLast_eq hlen hx, hr.isHeap_dropLast hlen, (perm_cons_dropLast hlen hx).trans hperm⟩

end Frame

/-! ## The heap order

From here `less` compares a key in a linear order, as `Less` does for every heap of the
repository: a time, or a priority in reverse. -/

section Order
variable {less : α → α → Bool} {β : Type} [LinearOrder β] {key : α → β}
  (hless : ∀ a b, less a b = decide (key a < key b))
include hless

theorem lessAt_iff {h : List α} {a b : ℕ} :
    lessAt less h a b = true ↔ ∃ x y, h[a]? = some x ∧ h[b]? = some y ∧ key x < key y := by
  rcases ha : h[a]? with _ | x <;> rcases hb : h[b]? with _ | y <;> simp [lessAt, ha, hb, hless]

theorem lessAt_irrefl (h : List α) (a : ℕ) : lessAt less h a a = false := by
  rcases ha : h[a]? with _ | x <;> simp [lessAt, ha, hless]

theorem lessAt_asymm {h : List α} {a b : ℕ} (hab : lessAt less h a b = true) :
    lessAt less h b a = false := by
  obtain ⟨x, y, hx, hy, hxy⟩ := (lessAt_iff hless).1 hab
  simp [lessAt, hx, hy, hless, hxy.le]

theorem lessAt_trans {h : List α} {a b c : ℕ} (hab : lessAt less h a b = true)
    (hbc : lessAt less h b c = true) : lessAt less h a c = true := by
  obtain ⟨x, y, hx, hy, hxy⟩ := (lessAt_iff hless).1 hab
  obtain ⟨y', z, hy', hz, hyz⟩ := (lessAt_iff hless).1 hbc
  obtain rfl : y = y' := Option.some_injective _ (hy.symm.trans hy')
  exact (lessAt_iff hless).2 ⟨x, z, hx, hz, hxy.trans hyz⟩

/-- Not being less passes through an element in range. -/
theorem lessAt_ntrans {h : List α} {a b c : ℕ} (hb : b < h.length)
    (hab : lessAt less h a b = false) (hbc : lessAt less h b c = false) :
    lessAt less h a c = false := by
  cases hac : lessAt less h a c
  · rfl
  obtain ⟨x, z, hx, hz, hxz⟩ := (lessAt_iff hless).1 hac
  have hy : h[b]? = some h[b] := List.getElem?_eq_getElem hb
  rcases lt_or_ge (key x) (key h[b]) with hxy | hyx
  · have := (lessAt_iff hless).2 ⟨x, h[b], hx, hy, hxy⟩
    simp_all
  · have := (lessAt_iff hless).2 ⟨h[b], z, hy, hz, lt_of_le_of_lt hyx hxz⟩
    simp_all

/-- Every element of a heap is in order with the root. -/
theorem HeapBelow.root {h : List α} {n k : ℕ} (hh : HeapBelow less h n) (hn : n ≤ h.length)
    (hk : k < n) : lessAt less h k 0 = false := by
  induction k using Nat.strong_induction_on with
  | _ k ih =>
    rcases Nat.eq_zero_or_pos k with rfl | hk0
    · exact lessAt_irrefl hless h 0
    · have hp := parent_lt hk0
      exact lessAt_ntrans hless (by omega) (hh k hk hk0) (ih _ hp (by omega))

/-- No element of a heap is less than its root. -/
theorem IsHeap.root_least {h : List α} (hh : IsHeap less h) (hne : 0 < h.length) {y : α}
    (hy : y ∈ h) : key h[0] ≤ key y := by
  obtain ⟨k, hk, rfl⟩ := List.mem_iff_getElem.1 hy
  have hroot := HeapBelow.root hless hh le_rfl hk
  rw [lessAt_of_lt hk hne, hless] at hroot
  simpa using hroot

/-! ### `up` -/

/-- One swap of `up`: the element moves to its parent's place, and the invariant moves with it. -/
theorem UpInv.swap_parent {h : List α} {j n : ℕ} (inv : UpInv less h j n) (hjn : j < n)
    (hn : n ≤ h.length) (hj : 0 < j) (hlt : lessAt less h j (parent j) = true) :
    UpInv less (h.swap (parent j) j) (parent j) n := by
  have hpj := parent_lt hj
  have hs := lessAt_swap less (h := h) (i := parent j) (j := j) (by omega) (by omega)
  constructor
  · intro k hk hk0 hkp
    rw [hs]
    by_cases hkj : k = j
    · -- the swapped pair: the old parent is now the child
      subst hkj
      rw [Equiv.swap_apply_right, Equiv.swap_apply_left]
      exact lessAt_asymm hless hlt
    rw [Equiv.swap_apply_of_ne_of_ne hkp hkj]
    by_cases hsib : parent k = parent j
    · -- a sibling of `j`: in order with the old parent, which the moved element is less than
      have hord : lessAt less h k (parent j) = false := hsib ▸ inv.ordered k hk hk0 hkj
      rw [hsib, Equiv.swap_apply_left]
      cases hkj' : lessAt less h k j
      · rfl
      · rw [lessAt_trans hless hkj' hlt] at hord
        cases hord
    by_cases hch : parent k = j
    · -- a child of `j`: in order with `j`'s parent
      rw [hch, Equiv.swap_apply_right]
      exact inv.children hj k hk hch
    · rw [Equiv.swap_apply_of_ne_of_ne hsib hch]
      exact inv.ordered k hk hk0 hkj
  · intro hp0 k hk hkp
    have hpp := parent_lt hp0
    have hpok := inv.ordered (parent j) (by omega) hp0 hpj.ne
    rw [hs, Equiv.swap_apply_of_ne_of_ne hpp.ne (by omega)]
    by_cases hkj : k = j
    · subst hkj
      rw [Equiv.swap_apply_right]
      exact hpok
    · have hk0 := pos_of_parent_eq hp0 hkp
      have hkp' : k ≠ parent j := by
        rintro rfl
        exact hpp.ne hkp
      rw [Equiv.swap_apply_of_ne_of_ne hkp' hkj]
      exact lessAt_ntrans hless (by omega) (hkp ▸ inv.ordered k hk hk0 hkj) hpok

theorem up_heap {h : List α} {j n : ℕ} (inv : UpInv less h j n) (hjn : j < n)
    (hn : n ≤ h.length) : HeapBelow less (up less h j) n := by
  fun_induction up less h j with
  | case1 h j hstop =>
    intro k hk hk0
    by_cases hkj : k = j
    · subst hkj
      rcases hstop with hpj | hnot
      · exact absurd hpj (parent_lt hk0).ne
      · simpa using hnot
    · exact inv.ordered k hk hk0 hkj
  | case2 h j hgo ih =>
    have hj : 0 < j := by
      rcases Nat.eq_zero_or_pos j with rfl | hj
      · exact absurd (Or.inl rfl) hgo
      · exact hj
    have hlt : lessAt less h j (parent j) = true := by
      simpa using (not_or.1 hgo).2
    exact ih (inv.swap_parent hless hjn hn hj hlt) (by have := parent_lt hj; omega)
      (by simpa using hn)

/-! ### `down` -/

/-- No child of `i` below `n` is less than the one `down` picks. -/
theorem smallerChild_min {h : List α} {i n k : ℕ} (hk : k < n) (hk0 : 0 < k)
    (hki : parent k = i) : lessAt less h k (smallerChild less h i n) = false := by
  unfold smallerChild
  rcases child_of_parent_eq hk0 hki with rfl | rfl
  · split
    · next hr => exact lessAt_asymm hless hr.2
    · exact lessAt_irrefl hless h _
  · split
    · exact lessAt_irrefl hless h _
    · next hr => simpa [hk] using hr

/-- Where `down` stops at `i`, every child of `i` below `n` is in order with it. -/
theorem children_ordered_of_stop {h : List α} {i n : ℕ} (hn : n ≤ h.length)
    (hc : 2 * i + 1 < n) (hstop : lessAt less h (smallerChild less h i n) i = false) :
    ∀ k, k < n → 0 < k → parent k = i → lessAt less h k i = false := by
  intro k hk hk0 hpk
  have := smallerChild_bounds less (h := h) hc
  exact lessAt_ntrans hless (by omega) (smallerChild_min hless hk hk0 hpk) hstop

/-- One swap of `down`: the smaller child moves up to `i`, and the invariant moves down with the
element, which is now in order with its new parent. -/
theorem DownInv.swap_child {h : List α} {i n : ℕ} (inv : DownInv less h i n) (hn : n ≤ h.length)
    (hc : 2 * i + 1 < n) (hlt : lessAt less h (smallerChild less h i n) i = true) :
    DownInv less (h.swap i (smallerChild less h i n)) (smallerChild less h i n) n ∧
      lessAt less (h.swap i (smallerChild less h i n)) (smallerChild less h i n) i = false := by
  have hpj := parent_smallerChild less h i n
  obtain ⟨hij, hjn⟩ := smallerChild_bounds less (h := h) hc
  have hmin : ∀ k, k < n → 0 < k → parent k = i →
      lessAt less h k (smallerChild less h i n) = false :=
    fun k hk hk0 hpk => smallerChild_min hless hk hk0 hpk
  generalize smallerChild less h i n = j at hlt hpj hij hjn hmin ⊢
  have hs := lessAt_swap less (h := h) (i := i) (j := j) (by omega) (by omega)
  refine ⟨⟨?ordered, ?children⟩, ?moved⟩
  case moved =>
    rw [hs, Equiv.swap_apply_right, Equiv.swap_apply_left]
    exact lessAt_asymm hless hlt
  case ordered =>
    intro k hk hk0 hkj hpk
    rw [hs]
    by_cases hki : k = i
    · -- the child moved to `i`: it was in order with `i`'s parent
      subst hki
      have hp := parent_lt hk0
      rw [Equiv.swap_apply_left, Equiv.swap_apply_of_ne_of_ne hp.ne (by omega)]
      exact inv.children hk0 j hjn hpj
    rw [Equiv.swap_apply_of_ne_of_ne hki hkj]
    by_cases hpi : parent k = i
    · -- the other child of `i`: not less than the one that moved up
      rw [hpi, Equiv.swap_apply_left]
      exact hmin k hk hk0 hpi
    · rw [Equiv.swap_apply_of_ne_of_ne hpi hpk]
      exact inv.ordered k hk hk0 hki hpi
  case children =>
    intro _ k hk hpk
    have hk0 := pos_of_parent_eq (by omega) hpk
    have := parent_lt hk0
    rw [hs, hpj, Equiv.swap_apply_left, Equiv.swap_apply_of_ne_of_ne (by omega) (by omega)]
    have hord := inv.ordered k hk hk0 (by omega) (by omega)
    rwa [hpk] at hord

theorem down_heap {h : List α} {i n : ℕ} (inv : DownInv less h i n)
    (hok : 0 < i → lessAt less h i (parent i) = false) (hn : n ≤ h.length) :
    HeapBelow less (down less h i n).1 n := by
  fun_induction down less h i n with
  | case1 h i hleaf =>
    intro k hk hk0
    by_cases hki : k = i
    · subst hki
      exact hok hk0
    · have hpk : parent k ≠ i := fun hp => by
        rcases child_of_parent_eq hk0 hp with rfl | rfl <;> omega
      exact inv.ordered k hk hk0 hki hpk
  | case2 h i hc hstop =>
    intro k hk hk0
    by_cases hki : k = i
    · subst hki
      exact hok hk0
    by_cases hpk : parent k = i
    · rw [hpk]
      exact children_ordered_of_stop hless hn (Nat.lt_of_not_le hc) (by simpa using hstop)
        k hk hk0 hpk
    · exact inv.ordered k hk hk0 hki hpk
  | case3 h i hc hgo ih =>
    obtain ⟨inv', hok'⟩ := inv.swap_child hless hn (Nat.lt_of_not_le hc) (by simpa using hgo)
    exact ih inv' (fun _ => by rwa [parent_smallerChild]) (by simpa using hn)

/-- Once `down` has moved the element, the order at its start does not matter. -/
theorem down_heap_of_moved {h : List α} {i n : ℕ} (inv : DownInv less h i n)
    (hn : n ≤ h.length) (hmoved : i < (down less h i n).2) :
    HeapBelow less (down less h i n).1 n := by
  by_cases hc : n ≤ 2 * i + 1
  · rw [down, if_pos hc] at hmoved
    exact absurd hmoved (lt_irrefl i)
  by_cases hstop : (!lessAt less h (smallerChild less h i n) i) = true
  · rw [down, if_neg hc, if_pos hstop] at hmoved
    exact absurd hmoved (lt_irrefl i)
  rw [down, if_neg hc, if_neg hstop]
  obtain ⟨inv', hok'⟩ := inv.swap_child hless hn (Nat.lt_of_not_le hc) (by simpa using hstop)
  exact down_heap hless inv' (fun _ => by rwa [parent_smallerChild]) (by simpa using hn)

/-- Where `down` leaves the element at `i`, nothing moved and the children of `i` below `n`
are in order with it. -/
theorem down_of_not_moved {h : List α} {i n : ℕ} (hn : n ≤ h.length)
    (hstay : (down less h i n).2 = i) :
    (down less h i n).1 = h ∧ ∀ k, k < n → 0 < k → parent k = i → lessAt less h k i = false := by
  by_cases hc : n ≤ 2 * i + 1
  · rw [down, if_pos hc]
    refine ⟨rfl, fun k hk hk0 hpk => ?_⟩
    rcases child_of_parent_eq hk0 hpk with rfl | rfl <;> omega
  by_cases hstop : (!lessAt less h (smallerChild less h i n) i) = true
  · rw [down, if_neg hc, if_pos hstop]
    exact ⟨rfl, children_ordered_of_stop hless hn (Nat.lt_of_not_le hc) (by simpa using hstop)⟩
  · -- a swap moves the element past `i`, and `down` never moves it back
    rw [down, if_neg hc, if_neg hstop] at hstay
    have := smallerChild_bounds less (h := h) (Nat.lt_of_not_le hc)
    have : smallerChild less h i n ≤
        (down less (h.swap i (smallerChild less h i n)) (smallerChild less h i n) n).2 :=
      le_down_index _ _ _
    omega

/-! ### `Push`, `Pop` and `Remove` -/

theorem IsHeap.push {h : List α} (hh : IsHeap less h) (x : α) : IsHeap less (push less h x) := by
  have hget : ∀ k, k < h.length → (h ++ [x])[k]? = h[k]? :=
    fun k hk => List.getElem?_append_left hk
  have inv : UpInv less (h ++ [x]) h.length (h.length + 1) := by
    constructor
    · -- every pair before the new element is as it was
      intro k hk hk0 hkn
      have hp := parent_lt hk0
      rw [lessAt_congr (hget k (by omega)) (hget _ (by omega))]
      exact hh k (by omega) hk0
    · -- the new element has no children yet
      intro hpos k hk hpk
      have := parent_lt (pos_of_parent_eq hpos hpk)
      omega
  unfold IsHeap Heap.push
  rw [(up_perm ..).length_eq, List.length_append, List.length_singleton]
  exact up_heap hless inv (by omega) (by simp)

/-- `Pop` takes off the root, which no element is less than, and leaves a heap of the rest. -/
theorem IsHeap.pop {h : List α} (hh : IsHeap less h) (hne : 0 < h.length) :
    ∃ h', pop less h = some (h[0], h') ∧ IsHeap less h' ∧ (h[0] :: h').Perm h := by
  obtain ⟨n, hlen⟩ : ∃ n, h.length = n + 1 := ⟨h.length - 1, by omega⟩
  have hs := lessAt_swap less (h := h) (i := 0) (j := n) hne (by omega)
  have inv : DownInv less (h.swap 0 n) 0 n := by
    constructor
    · -- the pairs off the root and the last place are as they were
      intro k hk hk0 _ hpk
      have hp := parent_lt hk0
      rw [hs, Equiv.swap_apply_of_ne_of_ne hk0.ne' (by omega),
        Equiv.swap_apply_of_ne_of_ne hpk (by omega)]
      exact hh k (by omega) hk0
    · intro h0
      exact absurd h0 (lt_irrefl 0)
  have hd := down_heap hless inv (fun h0 => absurd h0 (lt_irrefl 0)) (by simp [hlen])
  have hdlen : (down less (h.swap 0 n) 0 n).1.length = n + 1 := by
    rw [(down_perm ..).length_eq, List.length_swap, hlen]
  have hlast : (down less (h.swap 0 n) 0 n).1[n]? = some h[0] := by
    rw [down_getElem?_of_le _ _ le_rfl, getElem?_swap hne (by omega), Equiv.swap_apply_right]
    exact List.getElem?_eq_getElem hne
  rw [Heap.pop, hlen, Nat.add_sub_cancel]
  exact hd.popLast ((down_perm ..).trans (List.swap_perm ..)) hdlen hlast

/-- `Remove` takes off the element at `i` and leaves a heap of the rest. -/
theorem IsHeap.remove {h : List α} (hh : IsHeap less h) {i : ℕ} (hi : i < h.length) :
    ∃ h', remove less h i = some (h[i], h') ∧ IsHeap less h' ∧ (h[i] :: h').Perm h := by
  obtain ⟨n, hlen⟩ : ∃ n, h.length = n + 1 := ⟨h.length - 1, by omega⟩
  by_cases hin : n = i
  · -- the last element: only the slice's own `Pop`
    subst hin
    have hx : h[n]? = some h[n] := List.getElem?_eq_getElem hi
    simp only [Heap.remove, hlen, Nat.add_sub_cancel, ne_eq, not_true_eq_false, if_false]
    exact (hh.mono (by omega)).popLast (List.Perm.refl h) hlen hx
  have hs := lessAt_swap less (h := h) (i := i) (j := n) hi (by omega)
  have hkeep : ∀ k, k < n → 0 < k → k ≠ i → parent k ≠ i →
      lessAt less (h.swap i n) k (parent k) = false := by
    intro k hk hk0 hki hpk
    have hp := parent_lt hk0
    rw [hs, Equiv.swap_apply_of_ne_of_ne hki (by omega),
      Equiv.swap_apply_of_ne_of_ne hpk (by omega)]
    exact hh k (by omega) hk0
  have hchildren : 0 < i → ∀ k, k < n → parent k = i →
      lessAt less (h.swap i n) k (parent i) = false := by
    intro hi0 k hk hpk
    have hk0 := pos_of_parent_eq hi0 hpk
    have hp := parent_lt hk0
    have hpi := parent_lt hi0
    rw [hs, Equiv.swap_apply_of_ne_of_ne (by omega) (by omega),
      Equiv.swap_apply_of_ne_of_ne (by omega) (by omega)]
    exact lessAt_ntrans hless hi (hpk ▸ hh k (by omega) hk0) (hh i hi hi0)
  have hlen1 : (h.swap i n).length = n + 1 := by rw [List.length_swap, hlen]
  have hlast : (h.swap i n)[n]? = some h[i] := by
    rw [getElem?_swap hi (by omega), Equiv.swap_apply_right]
    exact List.getElem?_eq_getElem hi
  simp only [Heap.remove, hlen, Nat.add_sub_cancel, ne_eq, hin, not_false_eq_true, if_true]
  by_cases hmoved : i < (down less (h.swap i n) i n).2
  · -- the element moved down
    rw [if_pos hmoved]
    refine (down_heap_of_moved hless ⟨hkeep, hchildren⟩ (by omega) hmoved).popLast
      ((down_perm ..).trans (List.swap_perm ..)) ?_ ?_
    · rw [(down_perm ..).length_eq, hlen1]
    · rw [down_getElem?_of_le _ _ le_rfl, hlast]
  · -- it stayed, and moves up
    rw [if_neg hmoved]
    have hstay := le_antisymm (Nat.le_of_not_lt hmoved) (le_down_index ..)
    obtain ⟨hd, hch⟩ := down_of_not_moved hless (by omega) hstay
    rw [hd]
    have inv : UpInv less (h.swap i n) i n := by
      refine ⟨fun k hk hk0 hki => ?_, hchildren⟩
      by_cases hpk : parent k = i
      · rw [hpk]
        exact hch k hk hk0 hpk
      · exact hkeep k hk hk0 hki hpk
    refine (up_heap hless inv (by omega) (by omega)).popLast
      ((up_perm ..).trans (List.swap_perm ..)) ?_ ?_
    · rw [(up_perm ..).length_eq, hlen1]
    · rw [up_getElem?_of_lt _ (by omega), hlast]

end Order

end Srcd.Library.Heap
