import Srcd.Library.Lex
import Srcd.Trie.Delete

/-! # The nodes of a trie in pre-order

`Node.preorder` lists the nodes of a trie with their hex paths, each node before the subtrees of
its children: the branches of a full node by slot, its value slot last. This is the order a
pre-order walk visits them in. In a canonical trie the paths strictly increase along the list
(`preorder_pairwise`); the nodes at paths that end in the terminator are values, at terminated
paths (`mem_preorder_hasTerm`); and the values are exactly those `get` finds
(`get_of_mem_preorder`, `mem_preorder_of_get`).
-/

namespace Srcd.Trie
open Srcd.Library
set_option autoImplicit false

/-- A node of a subtree, seen from `p` nibbles above it. -/
def below (p : List Nibble) (x : List Nibble × Node) : List Nibble × Node := (p ++ x.1, x.2)

namespace Node

def preorder : Node → List (List Nibble × Node)
  | .fullNode cs => ([], .fullNode cs) ::
      ((List.finRange 17).filter fun i => !(cs i).isNil).flatMap fun i =>
        (cs i).preorder.map (below [i])
  | .shortNode k v => ([], .shortNode k v) :: v.preorder.map (below k)
  | n => [([], n)]

theorem preorder_fullNode (cs : Fin 17 → Node) :
    (Node.fullNode cs).preorder = ([], .fullNode cs) ::
      ((List.finRange 17).filter fun i => !(cs i).isNil).flatMap fun i =>
        (cs i).preorder.map (below [i]) := by
  rw [preorder]

theorem preorder_shortNode (k : List Nibble) (v : Node) :
    (Node.shortNode k v).preorder = ([], .shortNode k v) :: v.preorder.map (below k) := by
  rw [preorder]

theorem preorder_ne_nil (n : Node) : n.preorder ≠ [] := by
  cases n <;> simp [preorder]

theorem mem_preorder_fullNode {cs : Fin 17 → Node} {x : List Nibble × Node} :
    x ∈ (Node.fullNode cs).preorder ↔
      x = ([], .fullNode cs) ∨ ∃ i, cs i ≠ .nil ∧ ∃ z ∈ (cs i).preorder, x = below [i] z := by
  simp [preorder_fullNode, eq_comm (b := x)]

theorem mem_preorder_shortNode {k : List Nibble} {v : Node} {x : List Nibble × Node} :
    x ∈ (Node.shortNode k v).preorder ↔
      x = ([], .shortNode k v) ∨ ∃ z ∈ v.preorder, x = below k z := by
  simp [preorder_shortNode, eq_comm (b := x)]

end Node

theorem nil_lt_of_ne_nil {l : List Nibble} (h : l ≠ []) : [] < l := by
  obtain ⟨a, l, rfl⟩ := List.exists_cons_of_ne_nil h
  exact List.nil_lt_cons a l

theorem hasTerm_append_of_ne_nil (p : List Nibble) {q : List Nibble} (hq : q ≠ []) :
    hasTerm (p ++ q) = hasTerm q := by
  obtain ⟨r, a, rfl⟩ := List.eq_nil_or_concat q |>.resolve_left hq
  simp [hasTerm, ← List.append_assoc]

theorem hasTerm_of_free {p : List Nibble} (hp : ∀ x ∈ p, x ≠ 16) : hasTerm p = false := by
  rw [Bool.eq_false_iff]
  intro h
  obtain ⟨r, rfl⟩ := (hasTerm_iff p).mp h
  exact hp 16 (by simp) rfl

/-! ## Order -/

theorem pairwise_map_below (p : List Nibble) {l : List (List Nibble × Node)}
    (hl : l.Pairwise fun a b => a.1 < b.1) :
    (l.map (below p)).Pairwise fun a b => a.1 < b.1 :=
  List.pairwise_map.mpr (hl.imp fun h => List.append_left_lt h)

/-- Along the pre-order of a canonical node, or of a value slot, the paths strictly increase. -/
theorem preorder_pairwise :
    ∀ n : Node, n.Canon ∨ n.IsLeaf → n.preorder.Pairwise fun a b => a.1 < b.1 := by
  intro n
  induction n with
  | nil => intro _; simp [Node.preorder]
  | valueNode v => intro _; simp [Node.preorder]
  | hashNode h => intro hn; simp [Node.Canon, Node.IsLeaf] at hn
  | shortNode k v ih =>
    intro hn
    have hc : (Node.shortNode k v).Canon := hn.resolve_right id
    obtain ⟨hk, hshape⟩ := hc
    have hv : v.Canon ∨ v.IsLeaf := by
      rcases hshape with ⟨-, w, rfl⟩ | ⟨-, -, hvc⟩
      · exact .inr trivial
      · exact .inl hvc
    rw [Node.preorder_shortNode, List.pairwise_cons]
    refine ⟨?_, pairwise_map_below k (ih hv)⟩
    intro x hx
    obtain ⟨z, -, rfl⟩ := List.mem_map.mp hx
    exact nil_lt_of_ne_nil (by simp [below, hk])
  | fullNode cs ih =>
    intro hn
    have hc : (Node.fullNode cs).Canon := hn.resolve_right id
    obtain ⟨hbranches, hvalue, -⟩ := hc
    have hchild : ∀ i, (cs i).Canon ∨ (cs i).IsLeaf := fun i => by
      by_cases hi : i = 16
      · exact .inr (hi ▸ hvalue)
      · exact .inl (hbranches i hi)
    rw [Node.preorder_fullNode, List.pairwise_cons, List.pairwise_flatMap]
    refine ⟨?_, fun i _ => pairwise_map_below [i] (ih i (hchild i)), ?_⟩
    · intro x hx
      obtain ⟨i, -, hx⟩ := List.mem_flatMap.mp hx
      obtain ⟨z, -, rfl⟩ := List.mem_map.mp hx
      exact List.nil_lt_cons _ _
    · -- subtrees of lower slots come first
      refine ((List.pairwise_lt_finRange 17).filter _).imp fun hij => ?_
      intro x hx y hy
      obtain ⟨z, -, rfl⟩ := List.mem_map.mp hx
      obtain ⟨z', -, rfl⟩ := List.mem_map.mp hy
      exact List.Lex.rel hij

/-! ## Values -/

/-- A value the pre-order meets at a path is what `get` finds there. -/
theorem get_of_mem_preorder :
    ∀ (n : Node) (q : List Nibble) (v : List UInt8), (q, .valueNode v) ∈ n.preorder →
      n.get q = some v := by
  intro n
  induction n with
  | nil => intro q v h; simp [Node.preorder] at h
  | valueNode w => intro q v h; simp [Node.preorder] at h; simp [h.2]
  | hashNode h => intro q v hm; simp [Node.preorder] at hm
  | shortNode k m ih =>
    intro q v h
    rcases Node.mem_preorder_shortNode.mp h with h | ⟨z, hz, hzq⟩
    · cases h
    · obtain ⟨q', m'⟩ := z
      simp only [below, Prod.mk.injEq] at hzq
      obtain ⟨rfl, rfl⟩ := hzq
      rw [Node.get_shortNode, if_pos (List.prefix_append k q'), List.drop_left]
      exact ih q' v hz
  | fullNode cs ih =>
    intro q v h
    rcases Node.mem_preorder_fullNode.mp h with h | ⟨i, -, z, hz, hzq⟩
    · cases h
    · obtain ⟨q', m'⟩ := z
      simp only [below, Prod.mk.injEq] at hzq
      obtain ⟨rfl, rfl⟩ := hzq
      exact ih i q' v hz

/-- In a canonical node every value `get` finds under a terminated key is in the pre-order. -/
theorem mem_preorder_of_get :
    ∀ (n : Node), n.Canon → ∀ (q : List Nibble) (v : List UInt8), Terminated q →
      n.get q = some v → (q, .valueNode v) ∈ n.preorder := by
  intro n
  induction n with
  | nil => intro _ q v _ h; simp at h
  | valueNode w => intro hc; exact absurd hc id
  | hashNode h => intro hc; exact absurd hc id
  | shortNode k m ih =>
    intro hc q v hq h
    obtain ⟨-, hshape⟩ := hc
    rw [Node.get_shortNode] at h
    split at h
    · next hpre =>
      rw [Node.mem_preorder_shortNode]
      refine .inr ?_
      rcases hshape with ⟨hk, w, rfl⟩ | ⟨hfree, -, hmc⟩
      · -- a leaf: the key is the whole of `q`
        obtain rfl := terminated_prefix_eq hk hq hpre
        simp only [Node.get_valueNode, Option.some.injEq] at h
        subst h
        exact ⟨([], .valueNode w), by simp [Node.preorder], by simp [below]⟩
      · have hrest := ih hmc _ v (terminated_drop hq hpre hfree) h
        exact ⟨_, hrest, by simp [below, List.prefix_iff_eq_append.mp hpre]⟩
    · cases h
  | fullNode cs ih =>
    intro hc q v hq h
    obtain ⟨hbranches, hvalue, -⟩ := hc
    obtain ⟨i, q', rfl⟩ := List.exists_cons_of_ne_nil (terminated_ne_nil hq)
    have hget : (cs i).get q' = some v := h
    have hne : cs i ≠ .nil := fun hnil => by simp [hnil] at hget
    rw [Node.mem_preorder_fullNode]
    refine .inr ⟨i, hne, ?_⟩
    by_cases hi : i = 16
    · -- the value slot: a value right there
      subst hi
      obtain rfl := terminated_cons_terminator hq
      rcases hleaf : cs 16 with _ | _ | _ | _ | w <;>
        simp only [hleaf, Node.IsLeaf, ne_eq, not_true_eq_false] at hvalue hne hget
      simp only [Node.get_valueNode, Option.some.injEq] at hget
      subst hget
      exact ⟨([], .valueNode w), by simp [Node.preorder], by simp [below]⟩
    · exact ⟨(q', .valueNode v), ih i (hbranches i hi) q' v (terminated_cons hq hi) hget,
        by simp [below]⟩

/-- In a canonical node the pre-order meets no hash node, and at a path that ends in the
terminator it meets a value, and the path is terminated. -/
theorem mem_preorder_hasTerm :
    ∀ (n : Node), n.Canon → ∀ (q : List Nibble) (m : Node), (q, m) ∈ n.preorder →
      m.isHash = false ∧ (hasTerm q = true → Terminated q ∧ ∃ v, m = .valueNode v) := by
  intro n
  induction n with
  | nil => intro _ q m h; simp [Node.preorder] at h; simp [h.2, Node.isHash, h.1, hasTerm]
  | valueNode w => intro hc; exact absurd hc id
  | hashNode h => intro hc; exact absurd hc id
  | shortNode k c ih =>
    intro hc q m h
    obtain ⟨hk, hshape⟩ := hc
    rcases Node.mem_preorder_shortNode.mp h with h | ⟨⟨q', m'⟩, hz, hzq⟩
    · simp only [Prod.mk.injEq] at h
      obtain ⟨rfl, rfl⟩ := h
      simp [Node.isHash, hasTerm]
    · simp only [below, Prod.mk.injEq] at hzq
      obtain ⟨rfl, rfl⟩ := hzq
      rcases hshape with ⟨hterm, w, rfl⟩ | ⟨hfree, -, hcc⟩
      · simp only [Node.preorder, List.mem_singleton, Prod.mk.injEq] at hz
        obtain ⟨rfl, rfl⟩ := hz
        exact ⟨rfl, fun _ => ⟨by simpa using hterm, w, rfl⟩⟩
      · obtain ⟨hhash, hleaf⟩ := ih hcc q' _ hz
        refine ⟨hhash, fun hterm => ?_⟩
        have hq' : q' ≠ [] := by
          rintro rfl
          rw [List.append_nil, hasTerm_of_free hfree] at hterm
          cases hterm
        rw [hasTerm_append_of_ne_nil k hq'] at hterm
        obtain ⟨hq'term, hval⟩ := hleaf hterm
        exact ⟨terminated_append hfree hq'term, hval⟩
  | fullNode cs ih =>
    intro hc q m h
    obtain ⟨hbranches, hvalue, -⟩ := hc
    rcases Node.mem_preorder_fullNode.mp h with h | ⟨i, hne, ⟨q', m'⟩, hz, hzq⟩
    · simp only [Prod.mk.injEq] at h
      obtain ⟨rfl, rfl⟩ := h
      simp [Node.isHash, hasTerm]
    · simp only [below, Prod.mk.injEq] at hzq
      obtain ⟨rfl, rfl⟩ := hzq
      by_cases hi : i = 16
      · -- the value slot holds a value, at the path `[16]`
        subst hi
        rcases hleaf : cs 16 with _ | _ | _ | _ | w <;> simp only [hleaf, Node.IsLeaf] at hvalue
        · exact absurd hleaf hne
        · rw [hleaf] at hz
          simp only [Node.preorder, List.mem_singleton, Prod.mk.injEq] at hz
          obtain ⟨rfl, rfl⟩ := hz
          exact ⟨rfl, fun _ => ⟨⟨[], rfl, by simp⟩, w, rfl⟩⟩
      · obtain ⟨hhash, hleaf⟩ := ih i (hbranches i hi) q' _ hz
        have hfree : ∀ x ∈ [i], x ≠ 16 := by simpa using hi
        refine ⟨hhash, fun hterm => ?_⟩
        have hq' : q' ≠ [] := by
          rintro rfl
          rw [List.append_nil, hasTerm_of_free hfree] at hterm
          cases hterm
        rw [hasTerm_append_of_ne_nil [i] hq'] at hterm
        obtain ⟨hq'term, hval⟩ := hleaf hterm
        exact ⟨terminated_append hfree hq'term, hval⟩

end Srcd.Trie
