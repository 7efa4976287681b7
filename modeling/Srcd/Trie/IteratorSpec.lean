import Srcd.Trie.Iterator
import Srcd.Trie.Preorder

/-! # The iterator walks the trie in pre-order

The abstraction of a node iterator is the list of nodes it has still to visit, with their paths
(`NodeIterator.toVisit`): before it starts, the whole pre-order of the trie; then, for each state
on the stack from the top down, the subtrees of the children it has not yet gone into. Each
`peek` with `push` takes the head of that list (`peek_walks`); the pops in between change
nothing. `seek` skips what lies below the start key: the subtrees it does not go into are below
the key, as their paths extend a path below it and not on the way to it (`seekLoop_spec`). Since
the pre-order of a canonical trie strictly increases, what is left is the part of the pre-order
at or past the key. `Iterator` reports the values among them.

For the tries the calls build, the iteration from `start` yields every key whose hex path is at
least the hex of `start` without its terminator, each once, in the order of the hex paths
(`iterate_exact`). That is not the order of the keys as bytes where one key extends another:
the shorter comes after, as the value slot of a full node comes after its branches
(`iterate_prefixKeys`).
-/

namespace Srcd.Trie
open Srcd.Library
set_option autoImplicit false

/-! ## What is left to visit -/

/-- The subtrees of the children of a full node from slot `start` on. -/
def childrenFrom (cs : Fin 17 → Node) (start : Int) : List (List Nibble × Node) :=
  ((List.finRange 17).filter fun i => decide (start ≤ (i.val : Int)) && !(cs i).isNil).flatMap
    fun i => (cs i).preorder.map (below [i])

/-- The nodes below a state at `path` that the iterator has still to visit. -/
def IterState.rest (st : IterState) (path : List Nibble) : List (List Nibble × Node) :=
  match st.node with
  | .fullNode cs => (childrenFrom cs (st.index + 1)).map (below path)
  | .shortNode k v => if st.index < 0 then v.preorder.map (below (path ++ k)) else []
  | _ => []

/-- The nodes a stack has still to visit, topmost first. -/
def stackRest : List IterState → List Nibble → List (List Nibble × Node)
  | [], _ => []
  | st :: stack, path => st.rest path ++ stackRest stack (path.take st.pathlen)

/-- What the iterator has still to visit: the whole trie before it starts. -/
def NodeIterator.toVisit (t : Trie) (it : NodeIterator) : List (List Nibble × Node) :=
  match it.stack with
  | [] => t.root.preorder
  | stack => stackRest stack it.path

/-- The iterator walks `t` without error and has `r` left to visit. -/
structure Walks (t : Trie) (it : NodeIterator) (r : List (List Nibble × Node)) : Prop where
  trie : it.trie = some t
  err : it.err = none
  index : ∀ st ∈ it.stack, -1 ≤ st.index
  toVisit : it.toVisit t = r
  noHash : ∀ x ∈ r, x.2.isHash = false

/-- The iterator has `r` left to visit: it walks the trie, or it has ended and `r` is empty. -/
def Visits (t : Trie) (it : NodeIterator) (r : List (List Nibble × Node)) : Prop :=
  Walks t it r ∨ (it.err = some .iteratorEnd ∧ r = [])

theorem map_below_preorder (p : List Nibble) (n : Node) :
    n.preorder.map (below p) = (p, n) :: (n.preorder.map (below p)).tail := by
  cases n <;> simp [Node.preorder, below]

@[simp] theorem below_below (p q : List Nibble) (x : List Nibble × Node) :
    below p (below q x) = below (p ++ q) x := by
  simp [below]

theorem mem_map_below {p : List Nibble} {l : List (List Nibble × Node)} {x : List Nibble × Node}
    (hx : x ∈ l.map (below p)) : p <+: x.1 := by
  obtain ⟨z, -, rfl⟩ := List.mem_map.mp hx
  exact List.prefix_append _ _

/-! ## Children of a full node -/

theorem pairwise_val_finRange :
    (List.finRange 17).Pairwise fun a b => ((a.val : ℕ) : Int) < (b.val : ℕ) :=
  (List.pairwise_lt_finRange 17).imp fun h => Int.ofNat_lt.mpr h

theorem firstChild_eq_head? (cs : Fin 17 → Node) (start : Int) :
    firstChild cs start =
      ((List.finRange 17).filter fun i => decide (start ≤ (i.val : Int)) && !(cs i).isNil).head? :=
  List.head?_filter.symm

theorem childrenFrom_of_firstChild_none {cs : Fin 17 → Node} {start : Int}
    (h : firstChild cs start = none) : childrenFrom cs start = [] := by
  rw [firstChild_eq_head?, List.head?_eq_none_iff] at h
  rw [childrenFrom, h, List.flatMap_nil]

/-- The child `nextChild` finds comes first; from its slot on nothing changes, and past it the
later children are left. -/
theorem childrenFrom_of_firstChild_some {cs : Fin 17 → Node} {start : Int} {i : Fin 17}
    (h : firstChild cs start = some i) :
    childrenFrom cs start = (cs i).preorder.map (below [i]) ++ childrenFrom cs (i.val + 1) ∧
      childrenFrom cs i.val = childrenFrom cs start := by
  rw [firstChild_eq_head?, List.head?_eq_some_iff] at h
  obtain ⟨rest, hrest⟩ := h
  obtain ⟨hfrom, hpast⟩ := filter_threshold_eq_cons pairwise_val_finRange hrest
  have hpast' : ((List.finRange 17).filter fun j =>
      decide ((i.val : Int) + 1 ≤ (j.val : Int)) && !(cs j).isNil) = rest := by
    rw [← hpast]
    exact List.filter_congr fun j _ => by simp [Int.add_one_le_iff]
  refine ⟨?_, ?_⟩
  · rw [childrenFrom, hrest, List.flatMap_cons, childrenFrom, hpast']
  · rw [childrenFrom, childrenFrom, hfrom, hrest]

/-- A fresh state has the whole subtree below its node to visit. -/
theorem rest_fresh (n : Node) (l : ℕ) (path : List Nibble) :
    (IterState.mk n (-1) l).rest path = (n.preorder.map (below path)).tail := by
  cases n with
  | fullNode cs =>
    have hall : childrenFrom cs (-1 + 1) =
        ((List.finRange 17).filter fun i => !(cs i).isNil).flatMap
          fun i => (cs i).preorder.map (below [i]) := by
      rw [childrenFrom]
      congr 1
    simp only [IterState.rest, hall, Node.preorder_fullNode, List.map_cons, List.tail_cons]
  | shortNode k v =>
    simp [IterState.rest, Node.preorder_shortNode]
  | _ => rfl

/-! ## One step of `nextChild` -/

/-- When `nextChild` finds nothing, the state has nothing left to visit. -/
theorem rest_of_nextChild_none {st : IterState} {path : List Nibble} (hidx : -1 ≤ st.index)
    (h : nextChild st path = none) : st.rest path = [] := by
  obtain ⟨node, index, pathlen⟩ := st
  cases node with
  | fullNode cs =>
    simp only [nextChild, Option.map_eq_none_iff] at h
    simp [IterState.rest, childrenFrom_of_firstChild_none h]
  | shortNode k v =>
    simp only [nextChild] at h
    split at h
    · cases h
    · next hlt => simp [IterState.rest, hlt]
  | _ => rfl

/-- What `nextChild` finds: a fresh state of the next node to visit, at its path below the
parent's, and the parent as it was for what is left. -/
theorem nextChild_some {st child st' : IterState} {path cpath : List Nibble}
    (hidx : -1 ≤ st.index) (h : nextChild st path = some (child, cpath, st')) :
    child.index = -1 ∧ child.pathlen = path.length ∧ path <+: cpath ∧ st'.pathlen = st.pathlen ∧
      -1 ≤ st'.index ∧ st'.rest path = st.rest path ∧
      st.rest path = (child.node.preorder.map (below cpath)) ++
        ({ st' with index := st'.index + 1 } : IterState).rest path := by
  obtain ⟨node, index, pathlen⟩ := st
  dsimp only at hidx
  cases node with
  | fullNode cs =>
    simp only [nextChild, Option.map_eq_some_iff, Prod.mk.injEq] at h
    obtain ⟨i, hi, rfl, rfl, rfl⟩ := h
    obtain ⟨hsplit, hsame⟩ := childrenFrom_of_firstChild_some hi
    refine ⟨rfl, rfl, List.prefix_append _ _, rfl, by dsimp only; omega, ?_, ?_⟩
    · simp [IterState.rest, hsame]
    · simp [IterState.rest, hsplit]
  | shortNode k v =>
    simp only [nextChild] at h
    split at h
    · next hlt =>
      simp only [Option.some.injEq, Prod.mk.injEq] at h
      obtain ⟨rfl, rfl, rfl⟩ := h
      have hnone : ¬ index + 1 < 0 := by omega
      refine ⟨rfl, rfl, List.prefix_append _ _, rfl, hidx, rfl, ?_⟩
      simp [IterState.rest, hlt, hnone]
    · cases h
  | _ => cases h

section
variable (nodeOf : List UInt8 → Option Node)

theorem resolve_of_isHash {st : IterState} (h : st.node.isHash = false) (path : List Nibble) :
    st.resolve nodeOf path = .ok st := by
  obtain ⟨node, index, pathlen⟩ := st
  cases node <;> first | rfl | cases h

/-! ## The loop of `peek` -/

/-- With nothing left to visit, the loop of `peek` pops every state and ends. -/
theorem peekLoop_of_nil : ∀ (stack : List IterState) (path : List Nibble),
    (∀ st ∈ stack, -1 ≤ st.index) → stackRest stack path = [] →
      (peekLoop nodeOf stack path).2.2 = .error .iteratorEnd := by
  intro stack
  induction stack with
  | nil => intro path _ _; rfl
  | cons st stack ih =>
    intro path hidx hr
    rw [stackRest, List.append_eq_nil_iff] at hr
    have hnone : nextChild st path = none := by
      cases hnc : nextChild st path with
      | none => rfl
      | some x =>
        obtain ⟨child, cpath, st'⟩ := x
        obtain ⟨-, -, -, -, -, -, hsplit⟩ := nextChild_some (hidx st (by simp)) hnc
        rw [hr.1, map_below_preorder] at hsplit
        cases hsplit
    rw [peekLoop, hnone]
    exact ih _ (fun s hs => hidx s (by simp [hs])) hr.2

/-- The loop of `peek` finds the next node to visit, as a fresh state, and leaves the stack
with the same nodes to visit; pushing the state takes that node off them. -/
theorem peekLoop_of_cons : ∀ (stack : List IterState) (path : List Nibble),
    (∀ st ∈ stack, -1 ≤ st.index) → ∀ {p : List Nibble} {n : Node} {r : List (List Nibble × Node)},
    stackRest stack path = (p, n) :: r → n.isHash = false →
    ∃ top rest path', peekLoop nodeOf stack path = (top :: rest, path', .ok (⟨n, -1, path'.length⟩, p)) ∧
      stackRest (top :: rest) path' = (p, n) :: r ∧
      stackRest (⟨n, -1, path'.length⟩ :: bumpTop (top :: rest)) p = r ∧
      ∀ st ∈ top :: rest, -1 ≤ st.index := by
  intro stack
  induction stack with
  | nil => intro path _ p n r hr; cases hr
  | cons st stack ih =>
    intro path hidx p n r hr hn
    have hst := hidx st (by simp)
    have hidx' : ∀ s ∈ stack, -1 ≤ s.index := fun s hs => hidx s (by simp [hs])
    cases hnc : nextChild st path with
    | none =>
      have hnil := rest_of_nextChild_none hst hnc
      rw [stackRest, hnil, List.nil_append] at hr
      rw [peekLoop, hnc]
      exact ih _ hidx' hr hn
    | some x =>
      obtain ⟨child, cpath, st'⟩ := x
      obtain ⟨hcidx, hclen, hpre, hlen', hidx'', hsame, hsplit⟩ := nextChild_some hst hnc
      rw [stackRest, hsplit, map_below_preorder, List.cons_append, List.cons_append] at hr
      obtain ⟨⟨rfl, rfl⟩, rfl⟩ := List.cons.inj hr
      have hchild : child = ⟨child.node, -1, path.length⟩ := by
        obtain ⟨_, _, _⟩ := child
        simp_all
      refine ⟨st', stack, path, ?_, ?_, ?_, ?_⟩
      · rw [peekLoop, hnc]
        simp only
        rw [resolve_of_isHash nodeOf hn, ← hchild]
      · rw [stackRest, hsame, hsplit]
        conv_lhs => rw [map_below_preorder]
        simp only [hlen', List.cons_append]
      · simp only [bumpTop, stackRest, rest_fresh, ← List.prefix_iff_eq_take.mp hpre, hlen',
          List.append_assoc]
      · intro s hs
        rcases List.mem_cons.mp hs with rfl | hs
        · exact hidx''
        · exact hidx' s hs

/-- The loop of `peek` on a stack with `(p, n) :: r` left: the iterator it leaves walks the trie
with the same left, and pushing the node found leaves `r`. -/
theorem peekLoop_walks {t : Trie} {it : NodeIterator} {stack : List IterState}
    {path p : List Nibble} {n : Node} {r : List (List Nibble × Node)} (ht : it.trie = some t)
    (he : it.err = none) (hidx : ∀ st ∈ stack, -1 ≤ st.index)
    (hr : stackRest stack path = (p, n) :: r) (hnh : ∀ x ∈ (p, n) :: r, x.2.isHash = false) :
    ∃ top rest path', peekLoop nodeOf stack path =
        (top :: rest, path', .ok (⟨n, -1, path'.length⟩, p)) ∧
      Walks t { it with stack := top :: rest, path := path' } ((p, n) :: r) ∧
      Walks t (NodeIterator.push { it with stack := top :: rest, path := path' }
        ⟨n, -1, path'.length⟩ true p) r := by
  obtain ⟨top, rest, path', hloop, hsame, hpush, hidx'⟩ :=
    peekLoop_of_cons nodeOf stack path hidx hr (hnh (p, n) List.mem_cons_self)
  refine ⟨top, rest, path', hloop, ⟨ht, he, hidx', hsame, hnh⟩, ⟨ht, he, ?_, hpush, ?_⟩⟩
  · -- the fresh state, and its parent one index on
    intro st hst
    simp only [NodeIterator.push, ↓reduceIte, bumpTop, List.mem_cons] at hst
    rcases hst with rfl | rfl | hst
    · exact Int.le_refl _
    · have := hidx' top (by simp); dsimp only; omega
    · exact hidx' st (by simp [hst])
  · exact fun x hx => hnh x (List.mem_cons_of_mem _ hx)

/-! ## `peek` and `Next` -/

theorem map_below_nil (l : List (List Nibble × Node)) : l.map (below []) = l := by
  induction l with
  | nil => rfl
  | cons x l ih => simp [ih, below]

/-- On an iterator that walks the trie, `peek` finds the next node to visit and `push` takes it
off what is left. -/
theorem peek_walks {t : Trie} {it : NodeIterator} {p : List Nibble} {n : Node}
    {r : List (List Nibble × Node)} (hw : Walks t it ((p, n) :: r)) :
    ∃ it₀ st hp, peek nodeOf it true = .ok (it₀, .ok (st, hp, p)) ∧ st.node = n ∧
      Walks t it₀ ((p, n) :: r) ∧ Walks t (it₀.push st hp p) r := by
  have hv := hw.toVisit
  cases hs : it.stack with
  | nil =>
    rw [NodeIterator.toVisit, hs, ← map_below_nil t.root.preorder, map_below_preorder,
      map_below_nil] at hv
    obtain ⟨⟨rfl, rfl⟩, rfl⟩ := List.cons.inj hv
    have hroot := hw.noHash _ List.mem_cons_self
    refine ⟨it, ⟨t.root, -1, 0⟩, false, ?_, rfl, hw, ⟨hw.trie, hw.err, ?_, ?_, ?_⟩⟩
    · simp only [peek, hs, hw.trie, @resolve_of_isHash nodeOf ⟨t.root, -1, 0⟩ hroot]
    · intro st hst
      simp only [NodeIterator.push, hs, Bool.false_eq_true, ↓reduceIte, List.mem_singleton] at hst
      subst hst
      exact Int.le_refl _
    · simp [NodeIterator.toVisit, NodeIterator.push, hs, stackRest, rest_fresh, map_below_nil]
    · exact fun x hx => hw.noHash x (List.mem_cons_of_mem _ hx)
  | cons st stack =>
    rw [NodeIterator.toVisit, hs] at hv
    obtain ⟨top, rest, path', hloop, hw₀, hw₁⟩ := peekLoop_walks nodeOf hw.trie hw.err
      (hs ▸ hw.index) hv hw.noHash
    refine ⟨_, _, true, ?_, rfl, hw₀, hw₁⟩
    simp only [peek, hs, if_true, hloop]
    rfl

/-- On an iterator that walks the trie with nothing left, `peek` ends. -/
theorem peek_end {t : Trie} {it : NodeIterator} (hw : Walks t it []) :
    ∃ it₀, peek nodeOf it true = .ok (it₀, .error .iteratorEnd) := by
  have hv := hw.toVisit
  cases hs : it.stack with
  | nil =>
    rw [NodeIterator.toVisit, hs] at hv
    exact absurd hv (Node.preorder_ne_nil _)
  | cons st stack =>
    rw [NodeIterator.toVisit, hs] at hv
    have hend := peekLoop_of_nil nodeOf (st :: stack) it.path (hs ▸ hw.index) hv
    rcases hloop : peekLoop nodeOf (st :: stack) it.path with ⟨stack', path', res⟩
    rw [hloop] at hend
    cases hend
    exact ⟨_, by simp only [peek, hs, if_true, hloop]; rfl⟩

/-- `Next` on an iterator that walks the trie steps to the next node to visit. -/
theorem next_walks {t : Trie} {it : NodeIterator} {p : List Nibble} {n : Node}
    {r : List (List Nibble × Node)} (hw : Walks t it ((p, n) :: r)) (fuel : ℕ) :
    ∃ it', it.next nodeOf fuel true = .ok (true, it') ∧ Walks t it' r ∧ it'.path = p ∧
      ∃ st rest, it'.stack = st :: rest ∧ st.node = n := by
  obtain ⟨it₀, st, hp, hpeek, hst, hw₀, hw₁⟩ := peek_walks nodeOf hw
  refine ⟨NodeIterator.push { it₀ with err := none } st hp p, ?_,
    ⟨hw₁.trie, rfl, hw₁.index, hw₁.toVisit, hw₁.noHash⟩, rfl, st, _, rfl, hst⟩
  simp only [NodeIterator.next, hw.err, NodeIterator.advance, hpeek, except_ok_bind]
  rfl

/-- `Next` on an iterator with nothing left ends it. -/
theorem next_end {t : Trie} {it : NodeIterator} (hv : Visits t it []) (fuel : ℕ) :
    ∃ it', it.next nodeOf fuel true = .ok (false, it') ∧ it'.err = some .iteratorEnd := by
  rcases hv with hw | ⟨he, -⟩
  · obtain ⟨it₀, hpeek⟩ := peek_end nodeOf hw
    refine ⟨{ it₀ with err := some .iteratorEnd }, ?_, rfl⟩
    simp only [NodeIterator.next, hw.err, NodeIterator.advance, hpeek, except_ok_bind]
    rfl
  · exact ⟨it, by simp only [NodeIterator.next, he]; rfl, he⟩

/-! ## The key-value iterator -/

/-- What `Iterator.Next` reports at a node it steps to: at a path that ends in the terminator,
the key and the value there, unless `LeafKey` or `LeafBlob` panics. -/
def leafOf (x : List Nibble × Node) : Option (List UInt8 × List UInt8) :=
  if hasTerm x.1 then
    match x.2, hexToKeybytes x.1 with
    | .valueNode v, some k => some (k, v)
    | _, _ => none
  else none

/-- At every node left to visit whose path ends in the terminator there is a value and a key. -/
def NoPanic (r : List (List Nibble × Node)) : Prop :=
  ∀ x ∈ r, hasTerm x.1 = true → leafOf x ≠ none

theorem NoPanic.sublist {r r' : List (List Nibble × Node)} (h : NoPanic r) (hs : r'.Sublist r) :
    NoPanic r' := fun x hx => h x (hs.subset hx)

theorem leafOf_eq_some {x : List Nibble × Node} {k v : List UInt8}
    (h : leafOf x = some (k, v)) :
    hasTerm x.1 = true ∧ x.2 = .valueNode v ∧ hexToKeybytes x.1 = some k := by
  obtain ⟨q, m⟩ := x
  unfold leafOf at h
  split at h
  · next hterm =>
    split at h
    · next v' k' hm hk =>
      simp only [Option.some.injEq, Prod.mk.injEq] at h
      obtain ⟨rfl, rfl⟩ := h
      exact ⟨hterm, hm, hk⟩
    · cases h
  · cases h

theorem leafOf_of_not_hasTerm {x : List Nibble × Node} (h : hasTerm x.1 = false) :
    leafOf x = none := by
  simp [leafOf, h]

/-- `Iterator.Next` reports the next value left to visit, or, if there is none, ends without an
error. -/
theorem iteratorNext_spec {t : Trie} : ∀ (r : List (List Nibble × Node)) (fuel : ℕ) (it : Iterator),
    Visits t it.nodeIt r → NoPanic r → r.length < fuel →
    (r.filterMap leafOf = [] ∧ ∃ it', it.next nodeOf fuel = .ok (false, it') ∧ it'.err = none) ∨
    (∃ k v r', r.filterMap leafOf = (k, v) :: r'.filterMap leafOf ∧ r'.length < r.length ∧
      NoPanic r' ∧ ∃ it', it.next nodeOf fuel = .ok (true, it') ∧ it'.key = k ∧ it'.value = v ∧
        Visits t it'.nodeIt r') := by
  intro r
  induction r with
  | nil =>
    intro fuel it hv _ hlen
    cases fuel with
    | zero => exact absurd hlen (Nat.lt_irrefl 0)
    | succ fuel =>
      obtain ⟨it', hnext, herr⟩ := next_end nodeOf hv fuel
      refine .inl ⟨rfl, ⟨it', [], [], it'.error⟩, ?_, ?_⟩
      · rw [Iterator.next, hnext, except_ok_bind]
        rfl
      · simp [NodeIterator.error, herr]
  | cons x r ih =>
    intro fuel it hv hnp hlen
    obtain ⟨p, n⟩ := x
    cases fuel with
    | zero => exact absurd hlen (Nat.not_lt_zero _)
    | succ fuel =>
    have hw : Walks t it.nodeIt ((p, n) :: r) := hv.resolve_right fun h => List.cons_ne_nil _ _ h.2
    obtain ⟨it₁, hnext, hw₁, hpath, st, rest, hstack, hst⟩ := next_walks nodeOf hw fuel
    have hnp' : NoPanic r := hnp.sublist (List.sublist_cons_self _ _)
    cases hterm : hasTerm p with
    | true =>
      obtain ⟨⟨k, v⟩, hleaf⟩ := Option.ne_none_iff_exists'.mp (hnp _ List.mem_cons_self hterm)
      obtain ⟨-, hn, hk⟩ := leafOf_eq_some hleaf
      refine .inr ⟨k, v, r, by rw [List.filterMap_cons, hleaf], by simp, hnp', ?_⟩
      obtain ⟨node, index, pathlen⟩ := st
      simp only at hst hn
      subst hst hn
      refine ⟨{ it with nodeIt := it₁, key := k, value := v }, ?_, rfl, rfl, .inl hw₁⟩
      simp only at hk
      simp [Iterator.next, hnext, NodeIterator.leaf, hpath, hterm, NodeIterator.leafKey,
        NodeIterator.leafBlob, hstack, hk]
    | false =>
      have hstep : it.next nodeOf (fuel + 1) = Iterator.next nodeOf fuel { it with nodeIt := it₁ } := by
        simp [Iterator.next, hnext, NodeIterator.leaf, hpath, hterm]
      have hskip : ((p, n) :: r).filterMap leafOf = r.filterMap leafOf := by
        rw [List.filterMap_cons, leafOf_of_not_hasTerm hterm]
      rcases ih fuel { it with nodeIt := it₁ } (.inl hw₁) hnp' (by simpa using hlen) with
        ⟨hnil, it', hnext', herr⟩ | ⟨k, v, r', hr', hlen', hnp'', it', hnext', hk, hv', hvis⟩
      · exact .inl ⟨hskip.trans hnil, it', hstep.trans hnext', herr⟩
      · exact .inr ⟨k, v, r', hskip.trans hr', by simp; omega, hnp'', it', hstep.trans hnext',
          hk, hv', hvis⟩

/-- A loop over `Iterator.Next` sees the values left to visit, in order, and no error. -/
theorem collect_spec {t : Trie} : ∀ (fuel : ℕ) (it : Iterator) (r : List (List Nibble × Node)),
    Visits t it.nodeIt r → NoPanic r → r.length < fuel →
      it.collect nodeOf fuel = .ok (r.filterMap leafOf, none) := by
  intro fuel
  induction fuel with
  | zero => intro _ r _ _ hlen; exact absurd hlen (Nat.not_lt_zero _)
  | succ fuel ih =>
    intro it r hv hnp hlen
    rcases iteratorNext_spec nodeOf r (fuel + 1) it hv hnp hlen with
      ⟨hnil, it', hnext, herr⟩ | ⟨k, v, r', hr', hlen', hnp', it', hnext, hk, hv', hvis⟩
    · simp only [Iterator.collect, hnext, except_ok_bind, hnil, herr, Bool.false_eq_true,
        ↓reduceIte]
      rfl
    · have hrest := ih it' r' hvis hnp' (by omega)
      simp only [Iterator.collect, hnext, except_ok_bind, ↓reduceIte, hrest, hr', hk, hv']
      rfl

/-! ## Seeking -/

/-- Every node left below a state extends the state's path. -/
theorem prefix_of_mem_rest {st : IterState} {path : List Nibble} {x : List Nibble × Node}
    (hx : x ∈ st.rest path) : path <+: x.1 := by
  obtain ⟨node, index, pathlen⟩ := st
  cases node with
  | fullNode cs => exact mem_map_below hx
  | shortNode k v =>
    simp only [IterState.rest] at hx
    split at hx
    · exact (List.prefix_append path k).trans (mem_map_below hx)
    · cases hx
  | _ => cases hx

/-- The iterator on its way to `key` through the pre-order `L`: it walks the trie, has left a
part of `L` that holds all of `L` at or past `key`, and stands below `key`. -/
structure Seeks (key : List Nibble) (L : List (List Nibble × Node)) (t : Trie) (it : NodeIterator)
    (r : List (List Nibble × Node)) : Prop where
  walks : Walks t it r
  sublist : r.Sublist L
  above : r.filter (fun x => decide (key ≤ x.1)) = L.filter fun x => decide (key ≤ x.1)
  path : it.stack ≠ [] → it.path < key

/-- The `peek` of `seek`: it ends only when nothing of `L` is at or past `key`, and otherwise finds
the next node of a part of `L` that still holds all of `L` at or past `key`. -/
theorem seek_peek {key : List Nibble} {L : List (List Nibble × Node)} {t : Trie}
    {it : NodeIterator} {r : List (List Nibble × Node)} (hs : Seeks key L t it r) :
    (∃ it₀, peek nodeOf it (decide (it.path <+: key)) = .ok (it₀, .error .iteratorEnd) ∧
      L.filter (fun x => decide (key ≤ x.1)) = []) ∨
    (∃ it₀ st hp p n r', peek nodeOf it (decide (it.path <+: key)) = .ok (it₀, .ok (st, hp, p)) ∧
      st.node = n ∧ Walks t it₀ ((p, n) :: r') ∧ Walks t (it₀.push st hp p) r' ∧
      ((p, n) :: r').Sublist r ∧
      ((p, n) :: r').filter (fun x => decide (key ≤ x.1)) = L.filter fun x => decide (key ≤ x.1)) := by
  have hw := hs.walks
  by_cases hgo : it.stack = [] ∨ it.path <+: key
  · -- going down, or starting: the next node is the head of what is left
    have hpeek : peek nodeOf it (decide (it.path <+: key)) = peek nodeOf it true := by
      rcases hgo with hnil | hpre
      · simp only [peek, hnil]
      · simp only [hpre, decide_true]
    rw [hpeek]
    cases hr : r with
    | nil =>
      subst hr
      obtain ⟨it₀, hend⟩ := peek_end nodeOf hw
      exact .inl ⟨it₀, hend, hs.above.symm⟩
    | cons x r' =>
      subst hr
      obtain ⟨p, n⟩ := x
      obtain ⟨it₀, st, hp, hpeek', hst, hw₀, hw₁⟩ := peek_walks nodeOf hw
      exact .inr ⟨it₀, st, hp, p, n, r', hpeek', hst, hw₀, hw₁, List.Sublist.refl _, hs.above⟩
  · -- passing a node off the way to `key`: its subtree is popped, and all of it is below `key`
    obtain ⟨hne, hnpre⟩ := not_or.mp hgo
    obtain ⟨top, stack, hstack⟩ := List.exists_cons_of_ne_nil hne
    have hv := hw.toVisit
    simp only [NodeIterator.toVisit, hstack, stackRest] at hv
    have hbelow : ∀ x ∈ top.rest it.path, x.1 < key := fun x hx =>
      lt_of_lt_of_not_prefix (hs.path hne) hnpre (prefix_of_mem_rest hx)
    have hsub : (stackRest stack (it.path.take top.pathlen)).Sublist r :=
      hv ▸ List.sublist_append_right _ _
    have habove : (stackRest stack (it.path.take top.pathlen)).filter
        (fun x => decide (key ≤ x.1)) = L.filter fun x => decide (key ≤ x.1) := by
      have hnil : (top.rest it.path).filter (fun x => decide (key ≤ x.1)) = [] :=
        List.filter_eq_nil_iff.mpr fun x hx => by simpa using hbelow x hx
      rw [← hs.above, ← hv, List.filter_append, hnil, List.nil_append]
    have hidx : ∀ st ∈ stack, -1 ≤ st.index := fun st hst => hw.index st (by simp [hstack, hst])
    have hpop : peek nodeOf it (decide (it.path <+: key)) =
        .ok ({ it with stack := (peekLoop nodeOf stack (it.path.take top.pathlen)).1,
                       path := (peekLoop nodeOf stack (it.path.take top.pathlen)).2.1 },
             (peekLoop nodeOf stack (it.path.take top.pathlen)).2.2.map
               fun x => (x.1, true, x.2)) := by
      simp only [peek, hstack, hnpre, decide_false, Bool.false_eq_true, ↓reduceIte]
    rw [hpop]
    cases hr : stackRest stack (it.path.take top.pathlen) with
    | nil =>
      have hend := peekLoop_of_nil nodeOf stack _ hidx hr
      rw [hr] at habove
      exact .inl ⟨_, by rw [hend]; rfl, habove.symm⟩
    | cons x r' =>
      obtain ⟨p, n⟩ := x
      rw [hr] at hsub habove
      obtain ⟨top', rest', path', hloop, hw₀, hw₁⟩ := peekLoop_walks nodeOf hw.trie hw.err hidx hr
        fun y hy => hw.noHash y (hsub.subset hy)
      refine .inr ⟨_, _, true, p, n, r', ?_, rfl, hw₀, hw₁, hsub, habove⟩
      rw [hloop]
      rfl

/-- `seek` leaves the iterator with what is at or past `key` in the pre-order left to visit. -/
theorem seekLoop_spec (start : List UInt8) {key : List Nibble} {L : List (List Nibble × Node)}
    {t : Trie} (hL : L.Pairwise fun a b => a.1 < b.1) :
    ∀ (fuel : ℕ) (it : NodeIterator) (r : List (List Nibble × Node)), Seeks key L t it r →
      r.length < fuel →
      ∃ it' err, seekLoop nodeOf start key fuel it = .ok (it', err) ∧
        Visits t { it' with err } (L.filter fun x => decide (key ≤ x.1)) := by
  intro fuel
  induction fuel with
  | zero => intro _ r _ hlen; exact absurd hlen (Nat.not_lt_zero _)
  | succ fuel ih =>
    intro it r hs hlen
    rcases seek_peek nodeOf hs with
      ⟨it₀, hpeek, hnone⟩ | ⟨it₀, st, hp, p, n, r', hpeek, hst, hw₀, hw₁, hsub, habove⟩
    · -- the end of the walk: nothing is at or past `key`
      refine ⟨it₀, some .iteratorEnd, ?_, .inr ⟨rfl, hnone⟩⟩
      simp only [seekLoop, hpeek, except_ok_bind]
      rfl
    · by_cases hlt : p < key
      · -- still below `key`: push the node and go on
        have hs' : Seeks key L t (it₀.push st hp p) r' := by
          refine ⟨hw₁, (List.sublist_cons_self _ _).trans (hsub.trans hs.sublist), ?_,
            fun _ => hlt⟩
          rw [← habove, List.filter_cons_of_neg (by simpa using hlt)]
        have hlen' : r'.length < fuel := by
          have := hsub.length_le
          simp only [List.length_cons] at this
          omega
        obtain ⟨it', err, hloop, hvis⟩ := ih _ r' hs' hlen'
        refine ⟨it', err, ?_, hvis⟩
        simp only [seekLoop, hpeek, except_ok_bind, hlt, not_true_eq_false, ↓reduceIte]
        exact hloop
      · -- at or past `key`: stop before it; all that is left is at or past it
        have hsorted := hL.sublist (hsub.trans hs.sublist)
        have hkey : key ≤ p := not_lt.mp hlt
        have hall := Pairwise.filter_le_of_head (f := fun x : List Nibble × Node => x.1) hsorted hkey
        refine ⟨it₀, none, ?_, .inl ?_⟩
        · simp only [seekLoop, hpeek, except_ok_bind, hlt, not_false_eq_true, ↓reduceIte]
          rfl
        · rw [← habove, hall]
          have herr : it₀.err = none := hw₀.err
          cases it₀
          simp only at herr
          subst herr
          exact hw₀

end

/-! ## The tries the calls build -/

/-- A node of the pre-order at a terminated path of a trie the calls build is the value of a
byte key. -/
theorem leaf_of_wf {t : Trie} (hwf : t.Wf) {x : List Nibble × Node} (hx : x ∈ t.root.preorder)
    (hterm : hasTerm x.1 = true) :
    ∃ k v, x = (keybytesToHex k, .valueNode v) ∧ t.contents k = some v := by
  obtain ⟨q, m⟩ := x
  obtain ⟨-, hleaf⟩ := mem_preorder_hasTerm t.root hwf.canon q m hx
  obtain ⟨hq, v, rfl⟩ := hleaf hterm
  have hget := get_of_mem_preorder t.root q v hx
  have hkey : ∃ k, keybytesToHex k = q := by
    by_contra hno
    rw [hwf.outside q hq fun b hb => hno ⟨b, hb⟩] at hget
    cases hget
  obtain ⟨k, rfl⟩ := hkey
  exact ⟨k, v, rfl, hget⟩

theorem leafOf_key_value (k v : List UInt8) :
    leafOf (keybytesToHex k, .valueNode v) = some (k, v) := by
  simp [leafOf, hasTerm_keybytesToHex, hexToKeybytes_keybytesToHex]

theorem noPanic_of_wf {t : Trie} (hwf : t.Wf) : NoPanic t.root.preorder := by
  intro x hx hterm
  obtain ⟨k, v, rfl, -⟩ := leaf_of_wf hwf hx hterm
  simp [leafOf_key_value]

/-- What `leafOf` reports on the pre-order of a trie the calls build: a key and its value. -/
theorem leafOf_of_wf {t : Trie} (hwf : t.Wf) {x : List Nibble × Node} (hx : x ∈ t.root.preorder)
    {k v : List UInt8} (h : leafOf x = some (k, v)) :
    x.1 = keybytesToHex k ∧ t.contents k = some v := by
  obtain ⟨hterm, -, -⟩ := leafOf_eq_some h
  obtain ⟨k', v', rfl, hc⟩ := leaf_of_wf hwf hx hterm
  rw [leafOf_key_value] at h
  obtain ⟨rfl, rfl⟩ := Prod.mk.inj (Option.some.inj h)
  exact ⟨rfl, hc⟩

/-- The values the pre-order of a trie the calls build holds at or past `key`: the keys whose
hex path is at or past `key`, each with its value. -/
theorem mem_filterMap_leafOf {t : Trie} (hwf : t.Wf) (key : List Nibble) (k v : List UInt8) :
    (k, v) ∈ (t.root.preorder.filter fun x => decide (key ≤ x.1)).filterMap leafOf ↔
      t.contents k = some v ∧ key ≤ keybytesToHex k := by
  rw [List.mem_filterMap]
  constructor
  · rintro ⟨x, hx, hleaf⟩
    obtain ⟨hx, hkey⟩ := List.mem_filter.mp hx
    obtain ⟨hpath, hc⟩ := leafOf_of_wf hwf hx hleaf
    exact ⟨hc, hpath ▸ of_decide_eq_true hkey⟩
  · rintro ⟨hc, hkey⟩
    have hmem := mem_preorder_of_get t.root hwf.canon _ v (keybytesToHex_terminated k) hc
    exact ⟨_, List.mem_filter.mpr ⟨hmem, decide_eq_true hkey⟩, leafOf_key_value k v⟩

/-- The values of a trie the calls build come in the order of their hex paths. -/
theorem pairwise_filterMap_leafOf {t : Trie} (hwf : t.Wf) (key : List Nibble) :
    ((t.root.preorder.filter fun x => decide (key ≤ x.1)).filterMap leafOf).Pairwise
      fun a b => keybytesToHex a.1 < keybytesToHex b.1 := by
  have hsorted := (preorder_pairwise t.root (.inl hwf.canon)).filter
    (fun x => decide (key ≤ x.1))
  have hin : ∀ x ∈ t.root.preorder.filter (fun x => decide (key ≤ x.1)), x ∈ t.root.preorder :=
    fun x hx => (List.mem_filter.mp hx).1
  refine (List.Pairwise.and_mem.mp hsorted).filterMap leafOf ?_
  rintro a a' ⟨ha, ha', hlt⟩ b hb b' hb'
  rw [← (leafOf_of_wf hwf (hin a ha) hb).1, ← (leafOf_of_wf hwf (hin a' ha') hb').1]
  exact hlt


section
variable (nodeOf : List UInt8 → Option Node) (keccak : List UInt8 → List UInt8)

theorem seeks_start {t : Trie} (hwf : t.Wf) (key : List Nibble) :
    Seeks key t.root.preorder t ⟨some t, [], [], none⟩ t.root.preorder := by
  refine ⟨⟨rfl, rfl, (fun _ h => by cases h), rfl, fun x hx => ?_⟩, List.Sublist.refl _, rfl,
    fun h => absurd rfl h⟩
  obtain ⟨q, m⟩ := x
  exact (mem_preorder_hasTerm t.root hwf.canon q m hx).1

/-- Iterating over a trie the calls built, from a start key, yields the keys whose hex path is at
least the start key's without its terminator, each with the value `TryGet` finds, in the order
of their hex paths, and no error; enough rounds are one more than the nodes of the trie. -/
theorem iterate_exact (fuel : ℕ) (ops : List Op) (t : Trie)
    (hrun : runOps nodeOf fuel ⟨.nil⟩ ops = .ok t) (hstate : t.hash keccak ≠ emptyState keccak)
    (start : List UInt8) (n : ℕ) (hn : t.root.preorder.length < n) :
    ∃ pairs, t.iterate nodeOf keccak n start = .ok (pairs, none) ∧
      (∀ k v, (k, v) ∈ pairs ↔ t.tryGetKey nodeOf fuel k = (.ok (some v), t) ∧
        (keybytesToHex start).dropLast ≤ keybytesToHex k) ∧
      pairs.Pairwise fun a b => keybytesToHex a.1 < keybytesToHex b.1 := by
  obtain ⟨t', hrun', hwf, -⟩ := runOps_wf nodeOf fuel ops
  obtain rfl : t = t' := Except.ok.inj (hrun.symm.trans hrun')
  have hL : t.root.preorder.Pairwise fun a b => a.1 < b.1 :=
    preorder_pairwise t.root (.inl hwf.canon)
  obtain ⟨it, err, hseek, hvis⟩ := seekLoop_spec nodeOf start hL n _ _
    (seeks_start hwf (keybytesToHex start).dropLast) hn
  have hnew : newNodeIterator nodeOf keccak n t start = .ok { it with err } := by
    simp only [newNodeIterator, if_neg hstate, NodeIterator.seek, hseek, except_ok_bind]
    rfl
  have hcollect := collect_spec nodeOf n (newIterator { it with err }) _ hvis
    ((noPanic_of_wf hwf).sublist List.filter_sublist)
    (lt_of_le_of_lt List.filter_sublist.length_le hn)
  refine ⟨_, ?_, fun k v => ?_, pairwise_filterMap_leafOf hwf (keybytesToHex start).dropLast⟩
  · simp only [Trie.iterate, hnew, except_ok_bind]
    exact hcollect
  · rw [mem_filterMap_leafOf hwf, tryGetKey_canon nodeOf fuel hwf.canon]
    simp

/-- The two keys of `iterate_prefixKeys`, from the empty start key. -/
theorem iterate_exact_prefixKeys :
    ∃ t, runOps (fun _ => none) 0 ⟨.nil⟩ [.update [0x61] [1], .update [0x61, 0x62] [2]] = .ok t ∧
      ∃ pairs, t.iterate (fun _ => none) sampleKeccak 6 [] = .ok (pairs, none) ∧
        (∀ k v, (k, v) ∈ pairs ↔ t.tryGetKey (fun _ => none) 0 k = (.ok (some v), t) ∧
          (keybytesToHex []).dropLast ≤ keybytesToHex k) ∧
        pairs.Pairwise fun a b => keybytesToHex a.1 < keybytesToHex b.1 :=
  ⟨_, rfl, iterate_exact (fun _ => none) sampleKeccak 0
    [.update [0x61] [1], .update [0x61, 0x62] [2]] _ rfl (by decide) [] 6 (by decide)⟩

end

end Srcd.Trie
