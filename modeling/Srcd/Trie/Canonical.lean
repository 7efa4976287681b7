import Srcd.Trie.Trie

/-! # The canonical form of in-memory tries

`Node.get` is what a trie stores: the value found by following a hex key. `Node.Canon` is the
shape every trie built by `TryUpdate`/`TryDelete` has: full nodes have at least two children
and a value only in slot 16, short nodes have a non-empty key and end at a value exactly when
their key is terminated (and lead to a full node otherwise), and there are no hash nodes.

On canonical tries and terminated keys, `tryGet` returns `Node.get` (`tryGetWith_canon`). A
canonical trie never reaches a hash node, so the database and the fuel play no part.
`Rebind n key x nn` says that `nn` holds what `n` holds except `x` under `key`: what
`insert` and `delete` are to do (`Srcd.Trie.Insert`, `Srcd.Trie.Delete`).
-/

namespace Srcd.Trie
set_option autoImplicit false
set_option linter.dupNamespace false

namespace Node

/-- A value slot: empty, or a value. -/
def IsLeaf : Node → Prop
  | .nil => True
  | .valueNode _ => True
  | _ => False

def isFull : Node → Bool
  | .fullNode _ => true
  | _ => false

/-- The value stored under a hex key: the walk `tryGet` makes, without hash nodes. -/
def get : Node → List Nibble → Option (List UInt8)
  | .nil, _ => none
  | .valueNode v, _ => some v
  | .shortNode k v, key => if k <+: key then v.get (key.drop k.length) else none
  | .fullNode cs, i :: key => (cs i).get key
  | .fullNode _, [] => none
  | .hashNode _, _ => none

/-- Canonical form, below a point where the key's terminator is still to come. -/
def Canon : Node → Prop
  | .nil => True
  | .fullNode cs => (∀ i, i ≠ 16 → (cs i).Canon) ∧ (cs 16).IsLeaf ∧ 2 ≤ childCount cs
  | .shortNode key val =>
    key ≠ [] ∧
      ((Terminated key ∧ ∃ v, val = .valueNode v) ∨
        ((∀ x ∈ key, x ≠ 16) ∧ val.isFull ∧ val.Canon))
  | .hashNode _ => False
  | .valueNode _ => False

@[simp] theorem get_nil (key : List Nibble) : Node.nil.get key = none := rfl

@[simp] theorem get_valueNode (v : List UInt8) (key : List Nibble) :
    (Node.valueNode v).get key = some v := rfl

theorem get_shortNode (k : List Nibble) (v : Node) (key : List Nibble) :
    (Node.shortNode k v).get key = if k <+: key then v.get (key.drop k.length) else none := by
  rw [get]

@[simp] theorem get_fullNode_cons (cs : Fin 17 → Node) (i : Fin 17) (key : List Nibble) :
    (Node.fullNode cs).get (i :: key) = (cs i).get key := rfl

/-- A short node over a short node is the short node of the joined keys. -/
theorem get_shortNode_append (k k' : List Nibble) (v : Node) (key : List Nibble) :
    (Node.shortNode (k ++ k') v).get key = (Node.shortNode k (.shortNode k' v)).get key := by
  simp only [get_shortNode]
  by_cases hk : k <+: key
  · obtain ⟨r, rfl⟩ := hk
    have hdrop : (k ++ r).drop (k ++ k').length = r.drop k'.length := by
      rw [List.length_append, ← List.drop_drop, List.drop_left]
    rw [if_pos (List.prefix_append k r), List.drop_left, hdrop]
    simp only [List.prefix_append_right_inj]
  · have : ¬ (k ++ k') <+: key := fun h => hk ((List.prefix_append k k').trans h)
    simp [hk, this]

end Node

/-! ## Terminated keys -/

theorem terminated_prefix_eq {k k' : List Nibble} (hk : Terminated k) (hk' : Terminated k')
    (h : k <+: k') : k = k' := by
  obtain ⟨p, rfl, -⟩ := hk
  exact prefix_eq_of_mem_terminator hk' h (by simp)

/-- Dropping a prefix free of the terminator leaves a terminated key. -/
theorem terminated_drop {k p : List Nibble} (hk : Terminated k) (hp : p <+: k)
    (hfree : ∀ x ∈ p, x ≠ 16) : Terminated (k.drop p.length) := by
  obtain ⟨q, rfl, hq⟩ := hk
  rcases List.prefix_concat_iff.mp hp with h | h
  · exact absurd (h ▸ List.mem_append_right q (List.mem_singleton_self 16)) (fun hm => hfree 16 hm rfl)
  · obtain ⟨r, rfl⟩ := h
    refine ⟨r, by simp, fun x hx => hq x (List.mem_append_right p hx)⟩

theorem terminated_cons {i : Nibble} {r : List Nibble} (h : Terminated (i :: r)) (hi : i ≠ 16) :
    Terminated r := by
  simpa using terminated_drop h (p := [i]) (by simp) (by simpa using hi)

theorem terminated_cons_terminator {r : List Nibble} (h : Terminated (16 :: r)) : r = [] := by
  have := prefix_eq_of_mem_terminator h (p := [16]) (by simp) (by simp)
  simpa using this.symm

/-- A terminated key does not lie inside a key free of the terminator. -/
theorem not_terminated_prefix_free {k p : List Nibble} (hk : Terminated k) (hp : k <+: p)
    (hfree : ∀ x ∈ p, x ≠ 16) : False := by
  obtain ⟨q, rfl, -⟩ := hk
  exact hfree 16 (hp.subset (by simp)) rfl

theorem get_shortNode_value {key k' : List Nibble} (hkey : Terminated key) (hk' : Terminated k')
    (v : List UInt8) :
    (Node.shortNode key (.valueNode v)).get k' = if k' = key then some v else none := by
  rw [Node.get_shortNode]
  by_cases h : k' = key
  · subst h
    simp
  · rw [if_neg (fun hp => h (terminated_prefix_eq hkey hk' hp).symm), if_neg h]

theorem drop_eq_drop_iff {p a b : List Nibble} (ha : p <+: a) (hb : p <+: b) :
    a.drop p.length = b.drop p.length ↔ a = b := by
  obtain ⟨r, rfl⟩ := ha
  obtain ⟨s, rfl⟩ := hb
  simp

/-! ## What an operation changes -/

/-- `nn` holds what `n` holds under every terminated key, except `x` under `key`. -/
def Rebind (n : Node) (key : List Nibble) (x : Option (List UInt8)) (nn : Node) : Prop :=
  ∀ k', Terminated k' → nn.get k' = if k' = key then x else n.get k'

theorem Rebind.congr {n nn nn' : Node} {key : List Nibble} {x : Option (List UInt8)}
    (h : Rebind n key x nn) (heq : ∀ k', nn'.get k' = nn.get k') : Rebind n key x nn' :=
  fun k' hk' => (heq k').trans (h k' hk')

/-- A full node changes under the keys through the slot it changed. -/
theorem rebind_fullNode {cs : Fin 17 → Node} {k : Nibble} {krest : List Nibble}
    {x : Option (List UInt8)} {nn : Node}
    (h : ∀ r, Terminated (k :: r) → nn.get r = if r = krest then x else (cs k).get r) :
    Rebind (.fullNode cs) (k :: krest) x (.fullNode (Function.update cs k nn)) := by
  intro k' hk'
  obtain ⟨j, r, rfl⟩ := List.exists_cons_of_ne_nil (terminated_ne_nil hk')
  rw [Node.get_fullNode_cons, Node.get_fullNode_cons]
  by_cases hjk : j = k
  · subst hjk
    rw [Function.update_self, h r hk']
    simp
  · rw [Function.update_of_ne hjk, if_neg (fun h => hjk (List.cons.inj h).1)]

/-- A short node changes under the keys through its child. -/
theorem rebind_shortNode {nkey key : List Nibble} {nval nn : Node} {x : Option (List UInt8)}
    (hfree : ∀ i ∈ nkey, i ≠ 16) (hpre : nkey <+: key)
    (h : Rebind nval (key.drop nkey.length) x nn) :
    Rebind (.shortNode nkey nval) key x (.shortNode nkey nn) := by
  intro k' hk'
  rw [Node.get_shortNode, Node.get_shortNode]
  by_cases hp : nkey <+: k'
  · rw [if_pos hp, if_pos hp, h _ (terminated_drop hk' hp hfree)]
    simp only [drop_eq_drop_iff hp hpre]
  · have hk : k' ≠ key := fun h => hp (h ▸ hpre)
    rw [if_neg hp, if_neg hp, if_neg hk]

/-- The slots of a canonical full node after one slot took a node fit for it. -/
theorem canon_update {cs : Fin 17 → Node} (hc : (Node.fullNode cs).Canon) {k : Nibble} {nn : Node}
    (hslot : (k ≠ 16 → nn.Canon) ∧ (k = 16 → nn.IsLeaf)) :
    (∀ i, i ≠ 16 → (Function.update cs k nn i).Canon) ∧ (Function.update cs k nn 16).IsLeaf := by
  obtain ⟨hinner, hleaf, -⟩ := hc
  refine ⟨fun i hi => ?_, ?_⟩
  · by_cases hik : i = k
    · subst hik
      simpa using hslot.1 hi
    · simpa [Function.update_of_ne hik] using hinner i hi
  · by_cases hk : (16 : Nibble) = k
    · subst hk
      simpa using hslot.2 rfl
    · simpa [Function.update_of_ne hk] using hleaf

/-! ## Lookup -/

section
variable (nodeOf : List UInt8 → Option Node)

theorem tryGetWith_leaf (rec : Node → List Nibble → ℕ → Except TrieErr GetResult) {n : Node}
    (hn : n.IsLeaf) (key : List Nibble) (pos : ℕ) :
    tryGetWith nodeOf rec n key pos = .ok (n.get (key.drop pos), n, false) := by
  cases n <;> simp_all [Node.IsLeaf, tryGetWith]

/-- `tryGet` on a canonical trie and a terminated key finds `Node.get`, loads nothing and
keeps the trie. -/
theorem tryGetWith_canon (rec : Node → List Nibble → ℕ → Except TrieErr GetResult) :
    ∀ (n : Node), n.Canon → ∀ (key : List Nibble) (pos : ℕ), Terminated (key.drop pos) →
      tryGetWith nodeOf rec n key pos = .ok (n.get (key.drop pos), n, false) := by
  intro n
  induction n with
  | nil => intro _ key pos _; rfl
  | hashNode h => intro hc; exact absurd hc id
  | valueNode v => intro hc; exact absurd hc id
  | shortNode nkey nval ih =>
    intro hc key pos hkey
    obtain ⟨hne, hshape⟩ := hc
    by_cases hpre : nkey <+: key.drop pos
    · -- the key goes on into the child
      have hcond : ¬ (key.length - pos < nkey.length ∨ nkey ≠ (key.drop pos).take nkey.length) := by
        obtain ⟨r, hr⟩ := hpre
        have hlen := congrArg List.length hr
        simp only [List.length_append, List.length_drop] at hlen
        rw [not_or, Nat.not_lt, not_not, ← hr, List.take_left' rfl]
        exact ⟨by omega, rfl⟩
      have hdrop : key.drop (pos + nkey.length) = (key.drop pos).drop nkey.length := by
        rw [List.drop_drop, Nat.add_comm]
      rcases hshape with ⟨hterm, v, rfl⟩ | ⟨hfree, -, hcanon⟩
      · simp only [tryGetWith, if_neg hcond]
        rw [Node.get_shortNode, if_pos hpre]
        rfl
      · have hrec := ih hcanon key (pos + nkey.length)
          (by rw [hdrop]; exact terminated_drop hkey hpre hfree)
        simp only [tryGetWith, if_neg hcond, hrec]
        rw [Node.get_shortNode, if_pos hpre, ← hdrop]
        rfl
    · -- key not found in trie
      have hcond : key.length - pos < nkey.length ∨ nkey ≠ (key.drop pos).take nkey.length := by
        by_contra h
        rw [not_or, Nat.not_lt, not_not] at h
        exact hpre (h.2 ▸ List.take_prefix _ _)
      simp only [tryGetWith, if_pos hcond]
      rw [Node.get_shortNode, if_neg hpre]
  | fullNode cs ih =>
    intro hc key pos hkey
    obtain ⟨hinner, hleaf, -⟩ := hc
    obtain ⟨i, rest, hir⟩ : ∃ i rest, key.drop pos = i :: rest := by
      cases h : key.drop pos with
      | nil => exact absurd h (terminated_ne_nil hkey)
      | cons i rest => exact ⟨i, rest, rfl⟩
    have hget : key[pos]? = some i := by
      rw [← List.head?_drop, hir]
      rfl
    have hdrop : key.drop (pos + 1) = rest := by
      rw [← List.drop_drop, hir]
      rfl
    rw [hir] at hkey
    have hrec : tryGetWith nodeOf rec (cs i) key (pos + 1) = .ok ((cs i).get rest, cs i, false) := by
      by_cases hi : i = 16
      · subst hi
        rw [tryGetWith_leaf nodeOf rec hleaf key (pos + 1), hdrop]
      · rw [ih i (hinner i hi) key (pos + 1) (by rw [hdrop]; exact terminated_cons hkey hi), hdrop]
    simp only [tryGetWith, hget, hrec]
    rw [hir, Node.get_fullNode_cons]
    rfl

end

end Srcd.Trie
