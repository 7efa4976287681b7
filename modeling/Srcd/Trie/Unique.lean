import Srcd.Trie.Map

/-! # Canonical tries are determined by what they hold

Two canonical nodes that hold the same value under every terminated key are equal
(`canon_ext`). A short node holds values only under its key, and one leading to a full node
holds two values that part right after its key; a full node holds two values that part at
its first nibble. These fix the key of a short node and rule out the mixed cases; the rest is
induction on the node.

Since every trie built by the calls has the form `Trie.Wf`, the trie the calls build depends
only on the map they write (`history_independent`), and so does its root hash.
-/

namespace Srcd.Trie
open Srcd.Library
set_option autoImplicit false
set_option linter.dupNamespace false

/-- Every key under which `n` holds a value starts with `p`. -/
def KeysUnder (n : Node) (p : List Nibble) : Prop :=
  ∀ k, Terminated k → n.get k ≠ none → p <+: k

/-- `n` holds values under two keys that part right after `p`. -/
def Branches (n : Node) (p : List Nibble) : Prop :=
  ∃ i j k₁ k₂, i ≠ j ∧ p ++ [i] <+: k₁ ∧ p ++ [j] <+: k₂ ∧ Terminated k₁ ∧ Terminated k₂ ∧
    n.get k₁ ≠ none ∧ n.get k₂ ≠ none

/-- Two nodes hold the same values. -/
def Agree (n₁ n₂ : Node) : Prop := ∀ k, Terminated k → n₁.get k = n₂.get k

theorem Agree.symm {n₁ n₂ : Node} (h : Agree n₁ n₂) : Agree n₂ n₁ := fun k hk => (h k hk).symm

theorem KeysUnder.of_agree {n₁ n₂ : Node} {p : List Nibble} (h : Agree n₁ n₂)
    (hu : KeysUnder n₂ p) : KeysUnder n₁ p :=
  fun k hk hv => hu k hk (by rwa [← h k hk])

theorem keysUnder_shortNode (p : List Nibble) (v : Node) : KeysUnder (.shortNode p v) p := by
  intro k _ hv
  rw [Node.get_shortNode] at hv
  by_contra hp
  exact hv (if_neg hp)

/-- Two keys part at one place only. -/
theorem eq_of_prefix_parts {p l : List Nibble} {i j : Nibble} (hi : p ++ [i] <+: l)
    (hj : p ++ [j] <+: l) : i = j := by
  have h := List.prefix_of_prefix_length_le hi hj (by simp)
  have heq := h.eq_of_length (by simp)
  simpa using heq

/-- Values that part after `p` lie under no key longer than `p`. -/
theorem Branches.length_le {n : Node} {p q : List Nibble} (hb : Branches n p)
    (hu : KeysUnder n q) : q.length ≤ p.length := by
  obtain ⟨i, j, k₁, k₂, hij, h₁, h₂, ht₁, ht₂, hv₁, hv₂⟩ := hb
  refine Nat.le_of_not_lt fun hlt => hij (eq_of_prefix_parts (p := p) (l := q) ?_ ?_)
  · exact List.prefix_of_prefix_length_le h₁ (hu k₁ ht₁ hv₁) (by simp; omega)
  · exact List.prefix_of_prefix_length_le h₂ (hu k₂ ht₂ hv₂) (by simp; omega)

/-- A node that holds two values is not a node that holds one. -/
theorem Branches.not_single {n : Node} {p q : List Nibble} (hb : Branches n p)
    (hs : ∀ k, Terminated k → n.get k ≠ none → k = q) : False := by
  obtain ⟨i, j, k₁, k₂, hij, h₁, h₂, ht₁, ht₂, hv₁, hv₂⟩ := hb
  rw [hs k₁ ht₁ hv₁] at h₁
  rw [hs k₂ ht₂ hv₂] at h₂
  exact hij (eq_of_prefix_parts h₁ h₂)

/-! ## Canonical nodes hold values -/

/-- A canonical full node holds a value through each slot that is not empty, given that its
children do. -/
theorem child_key_of {cs : Fin 17 → Node} (hc : (Node.fullNode cs).Canon)
    (ih : ∀ i, i ≠ 16 → cs i ≠ .nil → ∃ r, Terminated r ∧ (cs i).get r ≠ none)
    {i : Nibble} (hi : cs i ≠ .nil) : ∃ r, Terminated (i :: r) ∧ (cs i).get r ≠ none := by
  by_cases h16 : i = 16
  · subst h16
    obtain ⟨a, ha⟩ : ∃ a, cs 16 = .valueNode a := by
      have hleaf := hc.2.1
      revert hi hleaf
      cases cs 16 <;> simp [Node.IsLeaf]
    exact ⟨[], ⟨[], rfl, by simp⟩, by simp [ha]⟩
  · obtain ⟨r, hr, hv⟩ := ih i h16 hi
    exact ⟨r, terminated_append (p := [i]) (by simpa using h16) hr, hv⟩

theorem exists_get_of_canon : ∀ n : Node, n.Canon → n ≠ .nil → ∃ k, Terminated k ∧ n.get k ≠ none := by
  intro n
  induction n with
  | nil => intro _ h; exact absurd rfl h
  | hashNode _ => intro hc; exact absurd hc id
  | valueNode _ => intro hc; exact absurd hc id
  | shortNode p v ih =>
    intro hc _
    rcases hc.2 with ⟨hterm, a, rfl⟩ | ⟨hfree, hfull, hcanon⟩
    · exact ⟨p, hterm, by simp [get_shortNode_value hterm hterm]⟩
    · have hv : v ≠ .nil := by
        rintro rfl
        simp [Node.isFull] at hfull
      obtain ⟨r, hr, hget⟩ := ih hcanon hv
      refine ⟨p ++ r, terminated_append hfree hr, ?_⟩
      rwa [Node.get_shortNode, if_pos (List.prefix_append p r), List.drop_left]
  | fullNode cs ih =>
    intro hc _
    obtain ⟨i, -, -, hi, -⟩ := exists_two_children hc.2.2
    obtain ⟨r, hr, hget⟩ := child_key_of hc (fun i h16 hi => ih i (hc.1 i h16) hi) hi
    exact ⟨i :: r, hr, hget⟩

theorem branches_fullNode {cs : Fin 17 → Node} (hc : (Node.fullNode cs).Canon) :
    Branches (.fullNode cs) [] := by
  have hkey : ∀ i, cs i ≠ .nil → ∃ r, Terminated (i :: r) ∧ (cs i).get r ≠ none := fun i hi =>
    child_key_of hc (fun i h16 hi => exists_get_of_canon (cs i) (hc.1 i h16) hi) hi
  obtain ⟨i, j, hij, hi, hj⟩ := exists_two_children hc.2.2
  obtain ⟨r₁, ht₁, hv₁⟩ := hkey i hi
  obtain ⟨r₂, ht₂, hv₂⟩ := hkey j hj
  exact ⟨i, j, i :: r₁, j :: r₂, hij, by simp, by simp, ht₁, ht₂, hv₁, hv₂⟩

theorem branches_shortNode {p : List Nibble} {v : Node} (hfree : ∀ x ∈ p, x ≠ 16)
    (hfull : v.isFull) (hc : v.Canon) : Branches (.shortNode p v) p := by
  obtain ⟨cs, rfl⟩ : ∃ cs, v = .fullNode cs := by
    cases v <;> simp_all [Node.isFull]
  obtain ⟨i, j, k₁, k₂, hij, h₁, h₂, ht₁, ht₂, hv₁, hv₂⟩ := branches_fullNode hc
  have hget : ∀ k, (Node.shortNode p (.fullNode cs)).get (p ++ k) = (Node.fullNode cs).get k := by
    intro k
    rw [Node.get_shortNode, if_pos (List.prefix_append p k), List.drop_left]
  refine ⟨i, j, p ++ k₁, p ++ k₂, hij, ?_, ?_, terminated_append hfree ht₁,
    terminated_append hfree ht₂, by rwa [hget], by rwa [hget]⟩
  · simpa using h₁
  · simpa using h₂

/-! ## Uniqueness -/

theorem eq_nil_of_agree {n : Node} (hc : n.Canon) (h : Agree n .nil) : n = .nil := by
  by_contra hne
  obtain ⟨k, hk, hv⟩ := exists_get_of_canon n hc hne
  exact hv (h k hk)

/-- A short node and a full node never hold the same values: the full node's values part at
the first nibble, the short node's all start with its key. -/
theorem shortNode_full_disagree {p : List Nibble} {v : Node} {cs : Fin 17 → Node}
    (hp : p ≠ []) (hc : (Node.fullNode cs).Canon) (h : Agree (.shortNode p v) (.fullNode cs)) :
    False := by
  have hlen := (branches_fullNode hc).length_le ((keysUnder_shortNode p v).of_agree h.symm)
  exact hp (List.eq_nil_of_length_eq_zero (by simpa using hlen))

/-- The value slots of two full nodes holding the same values are equal. -/
theorem leaf_ext {a b : Node} (ha : a.IsLeaf) (hb : b.IsLeaf) (h : a.get [] = b.get []) :
    a = b := by
  cases a <;> cases b <;> simp_all [Node.IsLeaf]

theorem canon_ext : ∀ n₁ : Node, n₁.Canon → ∀ n₂ : Node, n₂.Canon → Agree n₁ n₂ → n₁ = n₂ := by
  intro n₁
  induction n₁ with
  | hashNode _ => intro hc; exact absurd hc id
  | valueNode _ => intro hc; exact absurd hc id
  | nil => intro _ n₂ hc₂ h; exact (eq_nil_of_agree hc₂ h.symm).symm
  | shortNode p v ih =>
    intro hc₁ n₂ hc₂ h
    cases n₂ with
    | hashNode _ => exact absurd hc₂ id
    | valueNode _ => exact absurd hc₂ id
    | nil => exact absurd (eq_nil_of_agree hc₁ h) Node.noConfusion
    | fullNode cs => exact (shortNode_full_disagree hc₁.1 hc₂ h).elim
    | shortNode q w =>
      rcases hc₁.2 with ⟨hp, a, rfl⟩ | ⟨hpfree, hvfull, hvcanon⟩ <;>
        rcases hc₂.2 with ⟨hq, b, rfl⟩ | ⟨hqfree, hwfull, hwcanon⟩
      · -- two values: the keys and the values agree
        have hget := h p hp
        rw [get_shortNode_value hp hp, get_shortNode_value hq hp] at hget
        have hpq : p = q := by
          by_contra hne
          rw [if_neg hne] at hget
          simp at hget
        subst hpq
        rw [if_pos rfl, if_pos rfl] at hget
        rw [Option.some.inj hget]
      · -- one value against two
        refine ((branches_shortNode hqfree hwfull hwcanon).not_single (q := p) fun k hk hv => ?_).elim
        rw [← h k hk, get_shortNode_value hp hk] at hv
        by_contra hne
        exact hv (if_neg hne)
      · refine ((branches_shortNode hpfree hvfull hvcanon).not_single (q := q) fun k hk hv => ?_).elim
        rw [h k hk, get_shortNode_value hq hk] at hv
        by_contra hne
        exact hv (if_neg hne)
      · -- two full nodes below: the keys have one length, so they are equal
        have hb₁ := branches_shortNode hpfree hvfull hvcanon
        have hb₂ := branches_shortNode hqfree hwfull hwcanon
        have hle₁ := hb₁.length_le ((keysUnder_shortNode q w).of_agree h)
        have hle₂ := hb₂.length_le ((keysUnder_shortNode p v).of_agree h.symm)
        obtain ⟨i, -, k₁, -, -, h₁, -, ht₁, -, hv₁, -⟩ := hb₁
        have hpk : p <+: k₁ := (List.prefix_append p [i]).trans h₁
        have hqk : q <+: k₁ := (keysUnder_shortNode q w).of_agree h k₁ ht₁ hv₁
        have hpq : p = q :=
          (List.prefix_of_prefix_length_le hpk hqk hle₂).eq_of_length (by omega)
        subst hpq
        have hvw : Agree v w := by
          intro r hr
          have := h (p ++ r) (terminated_append hpfree hr)
          rwa [Node.get_shortNode, Node.get_shortNode, if_pos (List.prefix_append p r),
            if_pos (List.prefix_append p r), List.drop_left] at this
        rw [ih hvcanon w hwcanon hvw]
  | fullNode cs ih =>
    intro hc₁ n₂ hc₂ h
    cases n₂ with
    | hashNode _ => exact absurd hc₂ id
    | valueNode _ => exact absurd hc₂ id
    | nil => exact absurd (eq_nil_of_agree hc₁ h) Node.noConfusion
    | shortNode q w => exact (shortNode_full_disagree hc₂.1 hc₁ h.symm).elim
    | fullNode ds =>
      congr 1
      funext i
      by_cases h16 : i = 16
      · subst h16
        exact leaf_ext hc₁.2.1 hc₂.2.1 (h [16] ⟨[], rfl, by simp⟩)
      · refine ih i (hc₁.1 i h16) (ds i) (hc₂.1 i h16) fun r hr => ?_
        exact h (i :: r) (terminated_append (p := [i]) (by simpa using h16) hr)

/-! ## History independence -/

/-- Tries of the form that hold the same contents are equal. -/
theorem Trie.Wf.ext {t₁ t₂ : Trie} (h₁ : t₁.Wf) (h₂ : t₂.Wf) (h : t₁.contents = t₂.contents) :
    t₁ = t₂ := by
  have hagree : Agree t₁.root t₂.root := by
    intro k hk
    by_cases hb : ∃ b, keybytesToHex b = k
    · obtain ⟨b, rfl⟩ := hb
      exact congrFun h b
    · have hout : ∀ b, keybytesToHex b ≠ k := fun b hb' => hb ⟨b, hb'⟩
      rw [h₁.outside k hk hout, h₂.outside k hk hout]
  cases t₁
  cases t₂
  congr 1
  exact canon_ext _ h₁.canon _ h₂.canon hagree

theorem history_independent (nodeOf₁ nodeOf₂ : List UInt8 → Option Node) (fuel₁ fuel₂ : ℕ)
    (ops₁ ops₂ : List Op)
    (h : MapOp.lastWrite (fun _ => none) (ops₁.map Op.toMapOp) =
      MapOp.lastWrite (fun _ => none) (ops₂.map Op.toMapOp)) :
    ∃ t, runOps nodeOf₁ fuel₁ ⟨.nil⟩ ops₁ = .ok t ∧ runOps nodeOf₂ fuel₂ ⟨.nil⟩ ops₂ = .ok t := by
  obtain ⟨t₁, hrun₁, hwf₁, hc₁⟩ := runOps_wf nodeOf₁ fuel₁ ops₁
  obtain ⟨t₂, hrun₂, hwf₂, hc₂⟩ := runOps_wf nodeOf₂ fuel₂ ops₂
  refine ⟨t₁, hrun₁, ?_⟩
  rw [hrun₂, hwf₁.ext hwf₂ (by rw [hc₁, hc₂, h])]

/-- Two writes to different keys, in either order, write the same map. -/
theorem lastWrite_two_orders :
    MapOp.lastWrite (fun _ => none) ([Op.update [1] [2], .update [3] [4]].map Op.toMapOp) =
      MapOp.lastWrite (fun _ => none) ([Op.update [3] [4], .update [1] [2]].map Op.toMapOp) := by
  funext k
  by_cases h1 : k = [1]
  · subst h1
    decide
  · by_cases h3 : k = [3]
    · subst h3
      decide
    · simp [MapOp.lastWrite, Op.toMapOp, MapOp.key, Ne.symm h1, Ne.symm h3]

theorem history_independent_two_orders :
    MapOp.lastWrite (fun _ => none) ([Op.update [1] [2], .update [3] [4]].map Op.toMapOp) =
        MapOp.lastWrite (fun _ => none) ([Op.update [3] [4], .update [1] [2]].map Op.toMapOp) ∧
      ∃ t, runOps (fun _ => none) 0 ⟨.nil⟩ [.update [1] [2], .update [3] [4]] = .ok t ∧
        runOps (fun _ => none) 0 ⟨.nil⟩ [.update [3] [4], .update [1] [2]] = .ok t :=
  ⟨lastWrite_two_orders, history_independent _ _ 0 0 _ _ lastWrite_two_orders⟩

end Srcd.Trie
