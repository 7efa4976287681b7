import Srcd.Trie.Canonical

/-! # Insertion into a canonical trie

`insert` on a canonical trie and a terminated key succeeds, keeps the trie canonical and binds
the key to the value (`insertWith_canon`). The one hard case is the split of a short node
whose key parts from the inserted key inside it (`split_post`).
-/

namespace Srcd.Trie
set_option autoImplicit false

section
variable (nodeOf : List UInt8 → Option Node)
variable (rec : Node → List Nibble → List Nibble → List UInt8 → Except TrieErr (Bool × Node))
/-- What inserting `value` under `key` into `n` must give: a canonical trie, not empty, a full
node if `n` was one, `n` itself when nothing changed, and otherwise `n` with `key` bound to
`value`. -/
structure InsertPost (n : Node) (key : List Nibble) (value : List UInt8) (dirty : Bool)
    (nn : Node) : Prop where
  canon : nn.Canon
  ne_nil : nn ≠ .nil
  full : n.isFull → nn.isFull
  clean : dirty = false → nn = n
  get : Rebind n key (some value) nn

theorem get_insertNew (s : List Nibble) (x : Node) (r : List Nibble) :
    (insertNew s x).get r = if s <+: r then x.get (r.drop s.length) else none := by
  cases s with
  | nil => simp [insertNew]
  | cons a s => simp [insertNew, Node.get_shortNode]

theorem insertNew_ne_nil (s : List Nibble) {x : Node} (hx : x ≠ .nil) : insertNew s x ≠ .nil := by
  cases s <;> simp [insertNew, hx]

/-- At the end of the key the value node replaces the slot. -/
theorem insertWith_leaf (n : Node) (pfx : List Nibble) (value : List UInt8) :
    ∃ d, insertWith nodeOf rec n pfx [] value = .ok (d, .valueNode value) ∧
      (d = false → n = .valueNode value) := by
  cases n
  case valueNode v =>
    refine ⟨v != value, by simp [insertWith], fun h => ?_⟩
    simpa using h
  all_goals exact ⟨true, rfl, fun h => absurd h Bool.noConfusion⟩

/-- What comes before the last nibble of a terminated key is free of the terminator. -/
theorem take_free {key : List Nibble} (hkey : Terminated key) {m : ℕ} (hm : m < key.length) :
    ∀ x ∈ key.take m, x ≠ 16 := by
  obtain ⟨q, rfl, hq⟩ := hkey
  intro x hx
  rw [List.take_append_of_le_length (by simp at hm; omega)] at hx
  exact hq x (List.mem_of_mem_take hx)

theorem drop_eq_cons_of_getElem {l : List Nibble} {m : ℕ} {x : Nibble} (h : l[m]? = some x) :
    l.drop m = x :: l.drop (m + 1) := by
  obtain ⟨hm, hx⟩ := List.getElem?_eq_some_iff.mp h
  rw [List.drop_eq_getElem_cons hm, hx]

/-- Splitting a canonical short node at the first nibble where its key and the inserted key
differ. -/
theorem split_post {nkey key : List Nibble} {nval : Node} (value : List UInt8)
    (hc : (Node.shortNode nkey nval).Canon) (hkey : Terminated key) {m : ℕ}
    (hm : prefixLen key nkey = m) {ni ki : Nibble}
    (hni : nkey[m]? = some ni) (hki : key[m]? = some ki) :
    InsertPost (.shortNode nkey nval) key value true
      (if m = 0 then .fullNode (Function.update (Function.update emptyChildren ni
          (insertNew (nkey.drop (m + 1)) nval)) ki (insertNew (key.drop (m + 1)) (.valueNode value)))
        else .shortNode (key.take m) (.fullNode (Function.update (Function.update emptyChildren ni
          (insertNew (nkey.drop (m + 1)) nval)) ki (insertNew (key.drop (m + 1)) (.valueNode value))))) := by
  obtain ⟨-, hshape⟩ := hc
  have hspec := prefixLen_spec key nkey
  rw [hm] at hspec
  have hne : ni ≠ ki := fun h => hspec.2 ki ni hki (h ▸ hni) (by rw [h])
  have hmk : m < key.length := (List.getElem?_eq_some_iff.mp hki).1
  have hmn : m < nkey.length := (List.getElem?_eq_some_iff.mp hni).1
  set P := key.take m with hP
  set sk := key.drop (m + 1)
  set sn := nkey.drop (m + 1)
  have hkeyP : key = P ++ ki :: sk := by
    rw [← drop_eq_cons_of_getElem hki, List.take_append_drop]
  have hnkeyP : nkey = P ++ ni :: sn := by
    rw [← drop_eq_cons_of_getElem hni, hspec.1, List.take_append_drop]
  have hPlen : P.length = m := by simp [hP]; omega
  have hPfree : ∀ x ∈ P, x ≠ 16 := take_free hkey hmk
  have hkterm : Terminated (ki :: sk) := by
    have := terminated_drop hkey (p := P) (by rw [hkeyP]; exact List.prefix_append _ _) hPfree
    rwa [hkeyP, List.drop_left] at this
  set A := insertNew sn nval
  set B := insertNew sk (.valueNode value)
  have hBcanon : (ki ≠ 16 → B.Canon) ∧ (ki = 16 → B.IsLeaf) := by
    constructor
    · intro hki16
      have hsk := terminated_cons hkterm hki16
      obtain ⟨a, sk', hsk'⟩ : ∃ a sk', sk = a :: sk' := by
        cases h : sk with
        | nil => exact absurd h (terminated_ne_nil hsk)
        | cons a sk' => exact ⟨a, sk', rfl⟩
      simp only [B, hsk', insertNew]
      exact ⟨by simp, Or.inl ⟨hsk' ▸ hsk, value, rfl⟩⟩
    · intro hki16
      rw [hki16] at hkterm
      simp [B, terminated_cons_terminator hkterm, insertNew, Node.IsLeaf]
  have hAcanon : (ni ≠ 16 → A.Canon) ∧ (ni = 16 → A.IsLeaf) := by
    rcases hshape with ⟨hnterm, v, rfl⟩ | ⟨hfree, hfull, hcanon⟩
    · have hnt : Terminated (ni :: sn) := by
        have := terminated_drop hnterm (p := P) (by rw [hnkeyP]; exact List.prefix_append _ _) hPfree
        rwa [hnkeyP, List.drop_left] at this
      constructor
      · intro hni16
        have hsn := terminated_cons hnt hni16
        obtain ⟨a, sn', hsn'⟩ : ∃ a sn', sn = a :: sn' := by
          cases h : sn with
          | nil => exact absurd h (terminated_ne_nil hsn)
          | cons a sn' => exact ⟨a, sn', rfl⟩
        simp only [A, hsn', insertNew]
        exact ⟨by simp, Or.inl ⟨hsn' ▸ hsn, v, rfl⟩⟩
      · intro hni16
        rw [hni16] at hnt
        simp [A, terminated_cons_terminator hnt, insertNew, Node.IsLeaf]
    · have hni16 : ni ≠ 16 := hfree ni (by rw [hnkeyP]; simp)
      refine ⟨fun _ => ?_, fun h => absurd h hni16⟩
      cases h : sn with
      | nil => simpa [A, h, insertNew] using hcanon
      | cons a sn' =>
        simp only [A, h, insertNew]
        refine ⟨by simp, Or.inr ⟨fun x hx => hfree x ?_, hfull, hcanon⟩⟩
        rw [← h] at hx
        rw [hnkeyP]
        simp [hx]
  have hA : A ≠ .nil := by
    apply insertNew_ne_nil
    rcases hshape with ⟨-, v, rfl⟩ | ⟨-, hfull, -⟩
    · simp
    · intro h
      simp [h, Node.isFull] at hfull
  have hB : B ≠ .nil := insertNew_ne_nil _ (by simp)
  set branch := Function.update (Function.update emptyChildren ni A) ki B
  have hbranch : (Node.fullNode branch).Canon := by
    refine ⟨fun i hi => ?_, ?_, childCount_two_slots ni ki hne A B hA hB⟩
    · by_cases hik : i = ki
      · subst hik
        simpa [branch] using hBcanon.1 hi
      · by_cases hin : i = ni
        · subst hin
          simpa [branch, Function.update_of_ne hik] using hAcanon.1 hi
        · simp [branch, Function.update_of_ne hik, Function.update_of_ne hin, emptyChildren, Node.Canon]
    · by_cases hik : (16 : Nibble) = ki
      · rw [← hik] at hBcanon
        simpa [branch, hik] using hBcanon.2 rfl
      · by_cases hin : (16 : Nibble) = ni
        · rw [← hin] at hAcanon
          have : branch 16 = A := by
            simp only [branch]
            rw [Function.update_of_ne hik, hin, Function.update_self]
          rw [this]
          exact hAcanon.2 rfl
        · simp [branch, Function.update_of_ne hik, Function.update_of_ne hin, emptyChildren, Node.IsLeaf]
  have hres : ∀ k', (if m = 0 then Node.fullNode branch else .shortNode P (.fullNode branch)).get k' =
      (Node.shortNode P (.fullNode branch)).get k' := by
    intro k'
    split_ifs with hm0
    · have : P = [] := by simp [hP, hm0]
      simp [this, Node.get_shortNode]
    · rfl
  refine ⟨?_, ?_, ?_, fun h => absurd h Bool.noConfusion, fun k' hk' => ?_⟩
  · split_ifs with hm0
    · exact hbranch
    · exact ⟨fun h => hm0 (by rw [← hPlen, h]; rfl), Or.inr ⟨hPfree, rfl, hbranch⟩⟩
  · split_ifs <;> simp
  · intro h
    simp [Node.isFull] at h
  · rw [hres, Node.get_shortNode, Node.get_shortNode, hPlen]
    by_cases hPk : P <+: k'
    · obtain ⟨r, rfl⟩ := hPk
      rw [if_pos (List.prefix_append P r), List.drop_left' hPlen]
      obtain ⟨j, r', rfl⟩ : ∃ j r', r = j :: r' := by
        cases r with
        | nil =>
          obtain ⟨q, hq, hq16⟩ := hk'
          exact absurd (hPfree 16 (by rw [List.append_nil] at hq; rw [hq]; simp)) (by simp)
        | cons j r' => exact ⟨j, r', rfl⟩
      have hjterm : Terminated (j :: r') := by
        have := terminated_drop hk' (p := P) (List.prefix_append _ _) hPfree
        rwa [List.drop_left] at this
      rw [Node.get_fullNode_cons, hkeyP, hnkeyP]
      by_cases hjk : j = ki
      · subst hjk
        have hnp : ¬ (P ++ ni :: sn) <+: (P ++ j :: r') := by
          rw [List.prefix_append_right_inj, List.cons_prefix_cons]
          exact fun h => hne h.1
        have hsk : sk <+: r' ↔ r' = sk := by
          constructor
          · intro h
            by_cases hj16 : j = 16
            · rw [hj16] at hkterm hjterm
              rw [terminated_cons_terminator hkterm, terminated_cons_terminator hjterm]
            · exact (terminated_prefix_eq (terminated_cons hkterm hj16)
                (terminated_cons hjterm hj16) h).symm
          · rintro rfl
            exact List.prefix_refl _
        simp only [branch, Function.update_self, B, get_insertNew, Node.get_valueNode, hsk,
          if_neg hnp, List.append_cancel_left_eq, List.cons.injEq, true_and]
      · -- any other slot: what the old node held there
        have hkk : (P ++ j :: r') ≠ (P ++ ki :: sk) := by
          rw [Ne, List.append_cancel_left_eq, List.cons.injEq]
          exact fun h => hjk h.1
        rw [if_neg hkk]
        by_cases hjn : j = ni
        · subst hjn
          have hlen : (P ++ j :: sn).length = P.length + 1 + sn.length := by simp; omega
          simp only [branch, Function.update_of_ne hjk, Function.update_self, A, get_insertNew,
            List.prefix_append_right_inj, List.cons_prefix_cons, true_and]
          by_cases hsn : sn <+: r'
          · rw [if_pos hsn, if_pos hsn]
            congr 1
            rw [hlen, ← List.drop_drop, ← List.drop_drop, List.drop_left, List.drop_one,
              List.tail_cons]
          · rw [if_neg hsn, if_neg hsn]
        · have hnp : ¬ (P ++ ni :: sn) <+: (P ++ j :: r') := by
            rw [List.prefix_append_right_inj, List.cons_prefix_cons]
            exact fun h => hjn h.1.symm
          simp [branch, Function.update_of_ne hjk, Function.update_of_ne hjn, emptyChildren, hnp]
    · -- the key leaves the common prefix: neither node holds it
      have hnp : ¬ nkey <+: k' := fun h =>
        hPk ((show P <+: nkey by rw [hnkeyP]; exact List.prefix_append _ _).trans h)
      have hkk : k' ≠ key := fun h => hPk (h ▸ (show P <+: key by rw [hkeyP]; exact List.prefix_append _ _))
      rw [if_neg hPk, if_neg hkk, if_neg hnp]

/-- `insert` at a short node whose key the inserted key goes past. -/
theorem insertWith_shortNode_match {nkey : List Nibble} {nval : Node} {pfx : List Nibble}
    {a : Nibble} {ks : List Nibble} {value : List UInt8} {d : Bool} {nn : Node}
    (hm : prefixLen (a :: ks) nkey = nkey.length)
    (h : insertWith nodeOf rec nval (pfx ++ (a :: ks).take nkey.length)
      ((a :: ks).drop nkey.length) value = .ok (d, nn))
    (hclean : d = false → nn = nval) :
    insertWith nodeOf rec (.shortNode nkey nval) pfx (a :: ks) value = .ok (d, .shortNode nkey nn) := by
  cases d
  · rw [hclean rfl] at h ⊢
    simp only [insertWith, hm, if_pos, h]
    rfl
  · simp only [insertWith, hm, if_pos, h]
    rfl

/-- `insert` at a full node, through the slot of the key's first nibble. -/
theorem insertWith_fullNode {cs : Fin 17 → Node} {pfx : List Nibble} {k : Nibble}
    {krest : List Nibble} {value : List UInt8} {d : Bool} {nn : Node}
    (h : insertWith nodeOf rec (cs k) (pfx ++ [k]) krest value = .ok (d, nn))
    (hclean : d = false → nn = cs k) :
    insertWith nodeOf rec (.fullNode cs) pfx (k :: krest) value =
      .ok (d, .fullNode (Function.update cs k nn)) := by
  cases d
  · rw [hclean rfl] at h ⊢
    rw [Function.update_eq_self]
    simp only [insertWith, h]
    rfl
  · simp only [insertWith, h]
    rfl

/-- A canonical full node whose slot `k` took the result of inserting the rest of the key. -/
theorem insertPost_fullNode {cs : Fin 17 → Node} (hc : (Node.fullNode cs).Canon) {k : Nibble}
    {krest : List Nibble} {value : List UInt8} {d : Bool} {nn : Node}
    (hslot : (k ≠ 16 → nn.Canon) ∧ (k = 16 → nn.IsLeaf)) (hne : nn ≠ .nil)
    (hclean : d = false → nn = cs k)
    (hget : ∀ r, Terminated (k :: r) → nn.get r = if r = krest then some value else (cs k).get r) :
    InsertPost (.fullNode cs) (k :: krest) value d (.fullNode (Function.update cs k nn)) := by
  obtain ⟨hslots, hleaf⟩ := canon_update hc hslot
  exact ⟨⟨hslots, hleaf, Nat.le_trans hc.2.2 (childCount_le_update cs k hne)⟩, by simp, fun _ => rfl,
    fun h => by rw [hclean h, Function.update_eq_self], rebind_fullNode hget⟩

/-- `insert` on a canonical trie and a terminated key keeps the trie canonical and binds the
key to the value. -/
theorem insertWith_canon :
    ∀ (n : Node), n.Canon → ∀ (pfx key : List Nibble) (value : List UInt8), Terminated key →
      ∃ d nn, insertWith nodeOf rec n pfx key value = .ok (d, nn) ∧ InsertPost n key value d nn := by
  intro n
  induction n with
  | hashNode h => intro hc; exact absurd hc id
  | valueNode v => intro hc; exact absurd hc id
  | nil =>
    intro _ pfx key value hkey
    obtain ⟨a, ks, rfl⟩ := List.exists_cons_of_ne_nil (terminated_ne_nil hkey)
    refine ⟨true, .shortNode (a :: ks) (.valueNode value), rfl,
      ⟨⟨by simp, Or.inl ⟨hkey, value, rfl⟩⟩, by simp, fun h => absurd h (by simp [Node.isFull]),
        fun h => absurd h Bool.noConfusion, fun k' hk' => ?_⟩⟩
    rw [get_shortNode_value hkey hk', Node.get_nil]
  | shortNode nkey nval ih =>
    intro hc pfx key value hkey
    obtain ⟨a, ks, rfl⟩ := List.exists_cons_of_ne_nil (terminated_ne_nil hkey)
    have hnotfull : ¬ (Node.shortNode nkey nval).isFull := by simp [Node.isFull]
    by_cases hm : prefixLen (a :: ks) nkey = nkey.length
    · have hpre : nkey <+: a :: ks :=
        (prefixLen_eq_length_iff _ _).mp (by rwa [prefixLen_comm])
      obtain ⟨hne, hshape⟩ := hc
      rcases hshape with ⟨hnterm, v, rfl⟩ | ⟨hfree, hfull, hcanon⟩
      · -- the key ends at this node's value
        have heq : nkey = a :: ks := terminated_prefix_eq hnterm hkey hpre
        obtain ⟨d, hd, hdc⟩ := insertWith_leaf nodeOf rec (.valueNode v)
          (pfx ++ (a :: ks).take nkey.length) value
        have hdrop : (a :: ks).drop nkey.length = [] := by rw [heq, List.drop_length]
        rw [← hdrop] at hd
        refine ⟨d, .shortNode nkey (.valueNode value),
          insertWith_shortNode_match nodeOf rec hm hd (fun h => (hdc h).symm),
          ⟨⟨hne, Or.inl ⟨hnterm, value, rfl⟩⟩, by simp, fun h => absurd h hnotfull,
            fun h => by rw [← hdc h], fun k' hk' => ?_⟩⟩
        rw [get_shortNode_value hnterm hk', get_shortNode_value hnterm hk', heq]
        split_ifs <;> rfl
      · -- the key goes on into the full node below
        obtain ⟨d, nn, hins, post⟩ := ih hcanon (pfx ++ (a :: ks).take nkey.length)
          ((a :: ks).drop nkey.length) value (terminated_drop hkey hpre hfree)
        refine ⟨d, .shortNode nkey nn, insertWith_shortNode_match nodeOf rec hm hins post.clean,
          ⟨⟨hne, Or.inr ⟨hfree, post.full hfull, post.canon⟩⟩, by simp, fun h => absurd h hnotfull,
            fun h => by rw [post.clean h], rebind_shortNode hfree hpre post.get⟩⟩
    · -- the keys part inside this node's key: a branch
      have hlen : prefixLen (a :: ks) nkey < nkey.length :=
        Nat.lt_of_le_of_ne (prefixLen_le_right _ _) hm
      have hklen : prefixLen (a :: ks) nkey < (a :: ks).length := by
        refine Nat.lt_of_le_of_ne (prefixLen_le_left _ _) fun h => ?_
        have hkp : (a :: ks) <+: nkey := (prefixLen_eq_length_iff _ _).mp h
        rcases hc.2 with ⟨hnterm, -⟩ | ⟨hfree, -⟩
        · exact hm (by rw [h, terminated_prefix_eq hkey hnterm hkp])
        · exact not_terminated_prefix_free hkey hkp hfree
      refine ⟨true, _, ?_, split_post value hc hkey rfl (List.getElem?_eq_getElem hlen)
        (List.getElem?_eq_getElem hklen)⟩
      simp only [insertWith, if_neg hm, List.getElem?_eq_getElem hlen,
        List.getElem?_eq_getElem hklen]
      split_ifs <;> rfl
  | fullNode cs ih =>
    intro hc pfx key value hkey
    obtain ⟨k, krest, rfl⟩ := List.exists_cons_of_ne_nil (terminated_ne_nil hkey)
    by_cases hk : k = 16
    · subst hk
      have hrest := terminated_cons_terminator hkey
      subst hrest
      obtain ⟨d, hd, hdc⟩ := insertWith_leaf nodeOf rec (cs 16) (pfx ++ [16]) value
      refine ⟨d, _, insertWith_fullNode nodeOf rec hd (fun h => (hdc h).symm),
        insertPost_fullNode hc ⟨fun h => absurd rfl h, fun _ => trivial⟩ (by simp)
          (fun h => (hdc h).symm) fun r hr => ?_⟩
      rw [terminated_cons_terminator hr]
      simp
    · obtain ⟨d, nn, hins, post⟩ := ih k (hc.1 k hk) (pfx ++ [k]) krest value (terminated_cons hkey hk)
      exact ⟨d, _, insertWith_fullNode nodeOf rec hins post.clean,
        insertPost_fullNode hc ⟨fun _ => post.canon, fun h => absurd h hk⟩ post.ne_nil post.clean
          fun r hr => post.get r (terminated_cons hr hk)⟩

end

end Srcd.Trie
