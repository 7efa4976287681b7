import Srcd.Trie.Encoding

/-! # Trie nodes (`trie/node.go`)

A node is `nil`, a full node with 17 children (16 branches and the value slot `16`), a short
node with a hex key and a child, the hash of a node stored elsewhere, or a value. The node
flags (cached hash, cache generation, dirty bit) are not modelled: the trie operations of
`Srcd.Trie.Trie` never read them, and the hasher recomputes what they cache.
-/

namespace Srcd.Trie
set_option autoImplicit false

inductive Node where
  | nil
  | fullNode (children : Fin 17 → Node)
  | shortNode (key : List Nibble) (val : Node)
  | hashNode (hash : List UInt8)
  | valueNode (value : List UInt8)

namespace Node

/-- Equality of nodes is decidable: children are compared slot by slot. -/
def decEq : (a b : Node) → Decidable (a = b)
  | .nil, .nil => isTrue rfl
  | .fullNode f, .fullNode g =>
    have : ∀ i, Decidable (f i = g i) := fun i => decEq (f i) (g i)
    decidable_of_iff (∀ i, f i = g i) (by simp [funext_iff])
  | .shortNode k v, .shortNode k' v' =>
    match decEq v v' with
    | isTrue h => decidable_of_iff (k = k') (by simp [h])
    | isFalse h => isFalse fun e => h (shortNode.inj e).2
  | .hashNode h, .hashNode h' => decidable_of_iff (h = h') (by simp)
  | .valueNode v, .valueNode v' => decidable_of_iff (v = v') (by simp)
  | .nil, .fullNode _ | .nil, .shortNode _ _ | .nil, .hashNode _ | .nil, .valueNode _
  | .fullNode _, .nil | .fullNode _, .shortNode _ _ | .fullNode _, .hashNode _
  | .fullNode _, .valueNode _ | .shortNode _ _, .nil | .shortNode _ _, .fullNode _
  | .shortNode _ _, .hashNode _ | .shortNode _ _, .valueNode _ | .hashNode _, .nil
  | .hashNode _, .fullNode _ | .hashNode _, .shortNode _ _ | .hashNode _, .valueNode _
  | .valueNode _, .nil | .valueNode _, .fullNode _ | .valueNode _, .shortNode _ _
  | .valueNode _, .hashNode _ => isFalse fun e => by cases e

instance : DecidableEq Node := decEq

/-- The test `n == nil`. -/
def isNil : Node → Bool
  | .nil => true
  | _ => false

@[simp] theorem isNil_iff (n : Node) : n.isNil = true ↔ n = .nil := by
  cases n <;> simp [isNil]

@[simp] theorem isNil_eq_false_iff (n : Node) : n.isNil = false ↔ n ≠ .nil := by
  cases n <;> simp [isNil]

/-- The test for `hashNode` of the traversals. -/
def isHash : Node → Bool
  | .hashNode _ => true
  | _ => false

end Node

/-- The children of `&fullNode{}`: all `nil`. -/
def emptyChildren : Fin 17 → Node := fun _ => .nil

/-- The loop over the children in `delete`: the only non-nil child, if there is exactly one. -/
inductive ChildPos where
  /-- `pos == -1`: no child -/
  | none
  /-- `pos >= 0` -/
  | one (pos : Fin 17)
  /-- `pos == -2`: more than one child -/
  | several
  deriving DecidableEq, Repr

/-- One round of the loop: `if cld != nil { if pos == -1 { pos = i } else { pos = -2 } }`. -/
def ChildPos.step (cs : Fin 17 → Node) (pos : ChildPos) (i : Fin 17) : ChildPos :=
  if (cs i).isNil then pos
  else match pos with
    | .none => .one i
    | _ => .several

def childPos (cs : Fin 17 → Node) : ChildPos := (List.finRange 17).foldl (ChildPos.step cs) .none

/-- The number of slots holding a node. -/
def childCount (cs : Fin 17 → Node) : ℕ := (List.finRange 17).countP fun i => !(cs i).isNil

/-! ## The child loop of `delete` -/

/-- What the loop yields from `pos` on the non-nil slots still to come. -/
def ChildPos.classify : ChildPos → List (Fin 17) → ChildPos
  | pos, [] => pos
  | .none, [i] => .one i
  | _, _ => .several

theorem foldl_childPos_step (cs : Fin 17 → Node) (l : List (Fin 17)) (pos : ChildPos) :
    l.foldl (ChildPos.step cs) pos = pos.classify (l.filter fun i => !(cs i).isNil) := by
  induction l generalizing pos with
  | nil => cases pos <;> rfl
  | cons i l ih =>
    rw [List.foldl_cons, ih]
    by_cases hi : (cs i).isNil
    · simp [ChildPos.step, hi]
    · rw [List.filter_cons_of_pos (by simpa using hi)]
      cases pos <;> rcases l.filter (fun i => !(cs i).isNil) with _ | ⟨j, _ | ⟨k, rest⟩⟩ <;>
        simp [ChildPos.step, hi, ChildPos.classify]

theorem childPos_eq_classify (cs : Fin 17 → Node) :
    childPos cs = ChildPos.none.classify ((List.finRange 17).filter fun i => !(cs i).isNil) :=
  foldl_childPos_step cs _ _

theorem childPos_eq_several_iff (cs : Fin 17 → Node) : childPos cs = .several ↔ 2 ≤ childCount cs := by
  rw [childPos_eq_classify, childCount, List.countP_eq_length_filter]
  rcases (List.finRange 17).filter (fun i => !(cs i).isNil) with _ | ⟨j, _ | ⟨k, rest⟩⟩ <;>
    simp [ChildPos.classify]

theorem childPos_eq_one {cs : Fin 17 → Node} {i : Fin 17} (h : childPos cs = .one i) :
    cs i ≠ .nil ∧ ∀ j, j ≠ i → cs j = .nil := by
  rw [childPos_eq_classify] at h
  have hl : (List.finRange 17).filter (fun i => !(cs i).isNil) = [i] := by
    rcases hf : (List.finRange 17).filter (fun i => !(cs i).isNil) with _ | ⟨j, _ | ⟨k, rest⟩⟩ <;>
      simp [hf, ChildPos.classify] at h ⊢
    exact h
  have hmem : ∀ j, j ∈ (List.finRange 17).filter (fun i => !(cs i).isNil) ↔ cs j ≠ .nil := by
    intro j
    simp
  refine ⟨(hmem i).mp (by simp [hl]), fun j hj => ?_⟩
  by_contra hne
  have := (hmem j).mpr hne
  rw [hl] at this
  exact hj (List.mem_singleton.mp this)

theorem childPos_ne_none {cs : Fin 17 → Node} (h : 1 ≤ childCount cs) : childPos cs ≠ .none := by
  rw [childPos_eq_classify]
  rw [childCount, List.countP_eq_length_filter] at h
  rcases hf : (List.finRange 17).filter (fun i => !(cs i).isNil) with _ | ⟨j, _ | ⟨k, rest⟩⟩ <;>
    simp_all [ChildPos.classify]

/-- Putting a node into a slot keeps every other slot's node. -/
theorem childCount_le_update (cs : Fin 17 → Node) (k : Fin 17) {nn : Node} (hnn : nn ≠ .nil) :
    childCount cs ≤ childCount (Function.update cs k nn) := by
  apply List.countP_mono_left
  intro i _ hi
  by_cases hik : i = k
  · subst hik
    simpa using hnn
  · simpa [Function.update_of_ne hik] using hi

/-- Emptying one slot of a node with two children leaves one. -/
theorem one_le_childCount_update (cs : Fin 17 → Node) (k : Fin 17) (nn : Node)
    (h : 2 ≤ childCount cs) : 1 ≤ childCount (Function.update cs k nn) := by
  have hother : ∃ i, i ≠ k ∧ cs i ≠ .nil := by
    by_contra hnone
    have hle : childCount cs ≤ (List.finRange 17).countP (fun i => decide (i = k)) := by
      apply List.countP_mono_left
      intro i _ hi
      by_cases hik : i = k
      · simp [hik]
      · exact absurd ⟨i, hik, by simpa using hi⟩ hnone
    have hone : ∀ k : Fin 17, (List.finRange 17).countP (fun i => decide (i = k)) = 1 := by
      decide
    have := hone k
    omega
  obtain ⟨i, hik, hi⟩ := hother
  rw [childCount, Nat.one_le_iff_ne_zero, Ne, List.countP_eq_zero]
  intro hall
  exact hall i (List.mem_finRange i) (by simpa [Function.update_of_ne hik] using hi)

/-- A branch made of two distinct slots has two children. -/
theorem childCount_two_slots (ni ki : Fin 17) (hne : ni ≠ ki) (a b : Node) (ha : a ≠ .nil)
    (hb : b ≠ .nil) : 2 ≤ childCount (Function.update (Function.update emptyChildren ni a) ki b) := by
  have hcount : childCount (Function.update (Function.update emptyChildren ni a) ki b) =
      (List.finRange 17).countP (fun i => decide (i = ni ∨ i = ki)) := by
    apply List.countP_congr
    intro i _
    by_cases hk : i = ki
    · subst hk
      simpa using hb
    · by_cases hn : i = ni
      · subst hn
        simpa [Function.update_of_ne hk] using ha
      · simp [emptyChildren, hk, hn, Node.isNil]
  have htwo : ∀ ni ki : Fin 17, ni ≠ ki →
      (List.finRange 17).countP (fun i => decide (i = ni ∨ i = ki)) = 2 := by
    decide
  exact Nat.le_of_eq (hcount.trans (htwo ni ki hne)).symm

/-- A node with two children has them in two distinct slots. -/
theorem exists_two_children {cs : Fin 17 → Node} (h : 2 ≤ childCount cs) :
    ∃ i j, i ≠ j ∧ cs i ≠ .nil ∧ cs j ≠ .nil := by
  rw [childCount, List.countP_eq_length_filter] at h
  have hnodup := (List.nodup_finRange 17).filter (fun i => !(cs i).isNil)
  have hmem : ∀ j, j ∈ (List.finRange 17).filter (fun i => !(cs i).isNil) → cs j ≠ .nil := by
    intro j hj
    simpa using (List.mem_filter.mp hj).2
  rcases hf : (List.finRange 17).filter (fun i => !(cs i).isNil) with _ | ⟨i, _ | ⟨j, rest⟩⟩
  · rw [hf] at h
    simp at h
  · rw [hf] at h
    simp at h
  · rw [hf] at hnodup hmem
    refine ⟨i, j, fun hij => ?_, hmem i (by simp), hmem j (by simp)⟩
    subst hij
    simp at hnodup

end Srcd.Trie
