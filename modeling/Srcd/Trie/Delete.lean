import Srcd.Library.ExceptState
import Srcd.Trie.Canonical

/-! # Deletion from a canonical trie

`delete` on a canonical trie and a terminated key succeeds, keeps the trie canonical and
removes the key (`deleteWith_canon`). Canonical form is kept by the two rewrites of the source:
a full node left with one child becomes a short node (and takes that child's key if it is a
short node), and a short node over a short node becomes one short node.
-/

namespace Srcd.Trie
open Srcd.Library
set_option autoImplicit false

/-- What deleting `key` from `n` must give: a canonical trie, not empty if `n` was a full node,
`n` itself when nothing changed, and otherwise `n` without `key`. -/
structure DeletePost (n : Node) (key : List Nibble) (dirty : Bool) (nn : Node) : Prop where
  canon : nn.Canon
  ne_nil : n.isFull → nn ≠ .nil
  clean : dirty = false → nn = n
  get : Rebind n key none nn

theorem rebind_self {n : Node} {key : List Nibble} (h : n.get key = none) : Rebind n key none n := by
  intro k' _
  split_ifs with hk
  · rw [hk, h]
  · rfl

theorem terminated_append {p k : List Nibble} (hfree : ∀ x ∈ p, x ≠ 16) (hk : Terminated k) :
    Terminated (p ++ k) := by
  obtain ⟨q, rfl, hq⟩ := hk
  refine ⟨p ++ q, by simp, fun x hx => ?_⟩
  rcases List.mem_append.mp hx with h | h
  · exact hfree x h
  · exact hq x h

/-- A short node below a key free of the terminator may take that key in front of its own. -/
theorem canon_shortNode_append {p ckey : List Nibble} {cval : Node} (hfree : ∀ x ∈ p, x ≠ 16)
    (hc : (Node.shortNode ckey cval).Canon) : (Node.shortNode (p ++ ckey) cval).Canon := by
  obtain ⟨hne, hshape⟩ := hc
  refine ⟨by simp [hne], ?_⟩
  rcases hshape with ⟨hterm, hv⟩ | ⟨hcfree, hfull, hcanon⟩
  · exact Or.inl ⟨terminated_append hfree hterm, hv⟩
  · refine Or.inr ⟨fun x hx => ?_, hfull, hcanon⟩
    rcases List.mem_append.mp hx with h | h
    · exact hfree x h
    · exact hcfree x h

/-- A full node whose only child is at `pos` holds what a one-nibble short node to it holds. -/
theorem get_collapse {cs : Fin 17 → Node} {pos : Fin 17} (hother : ∀ j, j ≠ pos → cs j = .nil)
    (k' : List Nibble) : (Node.shortNode [pos] (cs pos)).get k' = (Node.fullNode cs).get k' := by
  rw [Node.get_shortNode]
  cases k' with
  | nil => simp [Node.get]
  | cons j r =>
    rw [Node.get_fullNode_cons]
    by_cases hj : j = pos
    · subst hj
      simp
    · rw [if_neg (by simp [List.cons_prefix_cons, Ne.symm hj]), hother j hj, Node.get_nil]

theorem resolve_of_canon (nodeOf : List UInt8 → Option Node) {n : Node} (hc : n.Canon)
    (pfx : List Nibble) : resolve nodeOf n pfx = .ok n := by
  cases n <;> first | exact absurd hc id | rfl

section
variable (nodeOf : List UInt8 → Option Node)
variable (rec : Node → List Nibble → List Nibble → Except TrieErr (Bool × Node))

/-- At the end of the key the value slot is emptied. -/
theorem deleteWith_leaf {n : Node} (hn : n.IsLeaf) (pfx key : List Nibble) :
    ∃ d, deleteWith nodeOf rec n pfx key = .ok (d, .nil) ∧ (d = false → n = .nil) := by
  cases n
  case nil => exact ⟨false, rfl, fun _ => rfl⟩
  case valueNode v => exact ⟨true, rfl, fun h => absurd h Bool.noConfusion⟩
  all_goals exact absurd hn id

/-- `delete` at a full node, through the slot of the key's first nibble: the full node stays
if two children are left, and is replaced by a short node if one is. -/
theorem deleteWith_fullNode_canon {cs : Fin 17 → Node} (hc : (Node.fullNode cs).Canon)
    {pfx : List Nibble} {k : Nibble} {krest : List Nibble} {d : Bool} {nn : Node}
    (hdel : deleteWith nodeOf rec (cs k) (pfx ++ [k]) krest = .ok (d, nn))
    (hslot : (k ≠ 16 → nn.Canon) ∧ (k = 16 → nn.IsLeaf)) (hclean : d = false → nn = cs k)
    (hget : ∀ r, Terminated (k :: r) → nn.get r = if r = krest then none else (cs k).get r) :
    ∃ nn', deleteWith nodeOf rec (.fullNode cs) pfx (k :: krest) = .ok (d, nn') ∧
      DeletePost (.fullNode cs) (k :: krest) d nn' := by
  have hreb := rebind_fullNode hget
  obtain ⟨hslots, hleaf⟩ := canon_update hc hslot
  cases d
  case false =>
    refine ⟨.fullNode cs, ?_, ⟨hc, by simp, fun _ => rfl, ?_⟩⟩
    · simp only [deleteWith, hdel, except_ok_bind]
      rfl
    · rwa [hclean rfl, Function.update_eq_self] at hreb
  case true =>
    have hcount := one_le_childCount_update cs k nn hc.2.2
    rcases hpos : childPos (Function.update cs k nn) with _ | pos | _
    case none => exact absurd hpos (childPos_ne_none hcount)
    case several =>
      refine ⟨.fullNode (Function.update cs k nn), ?_,
        ⟨⟨hslots, hleaf, (childPos_eq_several_iff _).mp hpos⟩, by simp, fun h => absurd h Bool.noConfusion,
          hreb⟩⟩
      simp only [deleteWith, hdel, except_ok_bind, hpos]
      rfl
    case one =>
      obtain ⟨hposne, hother⟩ := childPos_eq_one hpos
      have hcollapse := hreb.congr (get_collapse hother)
      by_cases h16 : pos = 16
      · subst h16
        obtain ⟨v, hv⟩ : ∃ v, Function.update cs k nn 16 = .valueNode v := by
          revert hposne hleaf
          cases Function.update cs k nn 16 <;> simp [Node.IsLeaf]
        refine ⟨.shortNode [16] (Function.update cs k nn 16), ?_,
          ⟨⟨by simp, Or.inl ⟨⟨[], rfl, by simp⟩, v, hv⟩⟩, fun _ => by simp,
            fun h => absurd h Bool.noConfusion, hcollapse⟩⟩
        simp only [deleteWith, hdel, except_ok_bind, hpos]
        rfl
      · have hcanon := hslots pos h16
        have hres := resolve_of_canon nodeOf hcanon pfx
        have hfree : ∀ x ∈ [pos], x ≠ 16 := by simpa using h16
        simp only [deleteWith, hdel, except_ok_bind, hpos, if_pos h16, hres]
        rcases hcs : Function.update cs k nn pos with _ | cs' | ⟨ckey, cval⟩ | _ | _
        · exact absurd hcs hposne
        · rw [hcs] at hcanon hcollapse
          exact ⟨_, rfl, ⟨⟨by simp, Or.inr ⟨hfree, rfl, hcanon⟩⟩, fun _ => by simp,
            fun h => absurd h Bool.noConfusion, hcollapse⟩⟩
        · -- the child is a short node: it takes the nibble in front of its key
          rw [hcs] at hcanon hcollapse
          exact ⟨_, rfl, ⟨canon_shortNode_append hfree hcanon, fun _ => by simp,
            fun h => absurd h Bool.noConfusion,
            hcollapse.congr fun k' => Node.get_shortNode_append [pos] ckey cval k'⟩⟩
        · rw [hcs] at hcanon
          exact absurd hcanon id
        · rw [hcs] at hcanon
          exact absurd hcanon id

/-- `delete` on a canonical trie and a terminated key keeps the trie canonical and removes the
key. -/
theorem deleteWith_canon :
    ∀ (n : Node), n.Canon → ∀ (pfx key : List Nibble), Terminated key →
      ∃ d nn, deleteWith nodeOf rec n pfx key = .ok (d, nn) ∧ DeletePost n key d nn := by
  intro n
  induction n with
  | hashNode h => intro hc; exact absurd hc id
  | valueNode v => intro hc; exact absurd hc id
  | nil =>
    intro _ pfx key _
    exact ⟨false, .nil, rfl, ⟨trivial, fun h => absurd h (by simp [Node.isFull]), fun _ => rfl,
      rebind_self rfl⟩⟩
  | shortNode nkey nval ih =>
    intro hc pfx key hkey
    have hnotfull : ¬ (Node.shortNode nkey nval).isFull := by simp [Node.isFull]
    by_cases hlt : prefixLen key nkey < nkey.length
    · -- the key leaves this node's key: nothing to delete
      have hnp : ¬ nkey <+: key := fun h => by
        rw [prefixLen_comm, (prefixLen_eq_length_iff _ _).mpr h] at hlt
        exact Nat.lt_irrefl _ hlt
      refine ⟨false, _, by simp only [deleteWith, if_pos hlt], ⟨hc, fun h => absurd h hnotfull,
        fun _ => rfl, rebind_self ?_⟩⟩
      rw [Node.get_shortNode, if_neg hnp]
    have hm : prefixLen key nkey = nkey.length :=
      Nat.le_antisymm (prefixLen_le_right _ _) (Nat.not_lt.mp hlt)
    have hpre : nkey <+: key := (prefixLen_eq_length_iff _ _).mp (by rwa [prefixLen_comm])
    obtain ⟨hne, hshape⟩ := hc
    by_cases hlen : prefixLen key nkey = key.length
    · -- the key is this node's key: the node goes
      have heq : nkey = key := hpre.eq_of_length (by omega)
      subst heq
      rcases hshape with ⟨hnterm, v, rfl⟩ | ⟨hfree, -⟩
      · refine ⟨true, .nil, by simp only [deleteWith, if_neg hlt, if_pos hlen], ⟨trivial,
          fun h => absurd h hnotfull, fun h => absurd h Bool.noConfusion, fun k' hk' => ?_⟩⟩
        rw [get_shortNode_value hnterm hk', Node.get_nil]
        split_ifs <;> rfl
      · exact absurd hkey fun h => not_terminated_prefix_free h (List.prefix_refl _) hfree
    rcases hshape with ⟨hnterm, -⟩ | ⟨hfree, hfull, hcanon⟩
    · have heq := terminated_prefix_eq hnterm hkey hpre
      subst heq
      exact absurd hm hlen
    obtain ⟨d, nn, hdel, post⟩ := ih hcanon (pfx ++ key.take nkey.length) (key.drop nkey.length)
      (terminated_drop hkey hpre hfree)
    have hreb := rebind_shortNode hfree hpre post.get
    simp only [deleteWith, if_neg hlt, if_neg hlen, hdel, except_ok_bind]
    cases d
    case false =>
      rw [post.clean rfl] at hreb
      exact ⟨false, _, rfl, ⟨⟨hne, Or.inr ⟨hfree, hfull, hcanon⟩⟩, fun h => absurd h hnotfull,
        fun _ => rfl, hreb⟩⟩
    case true =>
      have hcanon' := post.canon
      have hne' := post.ne_nil hfull
      revert hreb hcanon' hne'
      cases nn with
      | shortNode ckey cval =>
        intro hreb hcanon' _
        exact ⟨true, _, rfl, ⟨canon_shortNode_append hfree hcanon', fun h => absurd h hnotfull,
          fun h => absurd h Bool.noConfusion,
          hreb.congr fun k' => Node.get_shortNode_append nkey ckey cval k'⟩⟩
      | fullNode cs =>
        intro hreb hcanon' _
        exact ⟨true, _, rfl, ⟨⟨hne, Or.inr ⟨hfree, rfl, hcanon'⟩⟩, fun h => absurd h hnotfull,
          fun h => absurd h Bool.noConfusion, hreb⟩⟩
      | nil => intro _ _ h; exact absurd rfl h
      | hashNode _ => intro _ hcanon'; exact absurd hcanon' id
      | valueNode _ => intro _ hcanon'; exact absurd hcanon' id
  | fullNode cs ih =>
    intro hc pfx key hkey
    obtain ⟨k, krest, rfl⟩ := List.exists_cons_of_ne_nil (terminated_ne_nil hkey)
    by_cases hk : k = 16
    · subst hk
      have hrest := terminated_cons_terminator hkey
      subst hrest
      obtain ⟨d, hd, hdc⟩ := deleteWith_leaf nodeOf rec hc.2.1 (pfx ++ [16]) []
      obtain ⟨nn', hfull, post⟩ := deleteWith_fullNode_canon nodeOf rec hc hd
        ⟨fun h => absurd rfl h, fun _ => trivial⟩ (fun h => (hdc h).symm) fun r hr => by
          rw [terminated_cons_terminator hr]
          simp
      exact ⟨d, nn', hfull, post⟩
    · obtain ⟨d, nn, hdel, post⟩ := ih k (hc.1 k hk) (pfx ++ [k]) krest (terminated_cons hkey hk)
      obtain ⟨nn', hfull, post'⟩ := deleteWith_fullNode_canon nodeOf rec hc hdel
        ⟨fun _ => post.canon, fun h => absurd h hk⟩ post.clean
        fun r hr => post.get r (terminated_cons hr hk)
      exact ⟨d, nn', hfull, post'⟩

end

end Srcd.Trie
