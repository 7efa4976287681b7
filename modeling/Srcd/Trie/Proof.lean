import Srcd.Library.FiniteMap
import Srcd.Trie.Collapsed
import Srcd.Trie.Map

/-! # Merkle proofs (`trie/proof.go`)

`Prove` collects the nodes on the path to a key and writes to a proof database the encoding of
each one that is stored on its own, under its hash: the root, and every node whose encoding is
not shorter than a hash. `VerifyProof` starts from a root hash, decodes the node the database
holds under the hash it wants, and walks the node (`get`) through the nodes embedded in it until
it finds a value, no value, or the hash of the next node to read.

For a trie that the calls built and that is not empty, `VerifyProof` finds in the proof of a
key what `TryGet` finds (`verifyProof_prove`), given a hash of 32 bytes that does not collide on
the encodings of the trie's nodes, and encodings that fit RLP's sizes. The empty trie is
different: `Prove` writes nothing and `VerifyProof` fails on the missing root node
(`verifyProof_emptyTrie`).

The loop of `VerifyProof` goes round for as long as the database leads it to hash nodes; `fuel`
bounds its rounds. A proof is a map from hashes to encodings: `memDb` is what `Get` reads after
the `Put`s of `Prove` in a fresh memory database.
-/

namespace Srcd.Trie
open Srcd.Library
set_option autoImplicit false
set_option linter.dupNamespace false

inductive ProofErr where
  /-- `proof node %d (hash %064x) missing` -/
  | missingNode (i : ℕ) (hash : List UInt8)
  /-- `bad proof node %d: %v` -/
  | badNode (i : ℕ) (err : NodeErr)
  /-- a Go runtime panic: `get` indexes an empty key at a full node -/
  | panic
  /-- the bound on the rounds of the loop ran out (no Go counterpart) -/
  | fuelExhausted
  deriving DecidableEq, Repr

/-! ## Proving -/

section
variable (nodeOf : List UInt8 → Option Node)

/-- The first loop of `Prove`, with `rec` for the node loaded at a hash node: the nodes on the
path to `key`. -/
def provePathWith (rec : Node → List Nibble → Except TrieErr (List Node)) :
    Node → List Nibble → Except TrieErr (List Node)
  | _, [] => .ok []
  | .nil, _ => .ok []
  | .shortNode nkey nval, key =>
    if key.length < nkey.length ∨ nkey ≠ key.take nkey.length then
      -- The trie doesn't contain the key.
      .ok [.shortNode nkey nval]
    else (provePathWith rec nval (key.drop nkey.length)).map (.shortNode nkey nval :: ·)
  | .fullNode cs, i :: key => (provePathWith rec (cs i) key).map (.fullNode cs :: ·)
  | .hashNode h, key => do
    let tn ← resolveHash nodeOf h []
    rec tn key
  | .valueNode _, _ :: _ => .error .invalidNode

def provePath : ℕ → Node → List Nibble → Except TrieErr (List Node)
  | 0 => provePathWith nodeOf fun _ _ => .error .fuelExhausted
  | fuel + 1 => provePathWith nodeOf (provePath fuel)

variable (keccak : List UInt8 → List UInt8)

/-- The second loop of `Prove` from the `i`-th node on: the `Put`s into the proof database. The
root, and a node whose reference is a hash, is written under its hash; `fromLevel` skips the
first of them. -/
def proofWrites : ℕ → ℕ → List Node → List (List UInt8 × List UInt8)
  | _, _, [] => []
  | i, fromLevel, n :: ns =>
    let n := hashChildren keccak n
    let hn := store keccak n false
    if hn.isHash = true ∨ i = 0 then
      if fromLevel > 0 then proofWrites (i + 1) (fromLevel - 1) ns
      else
        let enc := n.toItem.encode
        let hash := match hn with
          | .hashNode h => h
          | _ => keccak enc
        (hash, enc) :: proofWrites (i + 1) fromLevel ns
    else proofWrites (i + 1) fromLevel ns

/-- `Prove`: the `Put`s it makes, in order. -/
def Trie.prove (fuel : ℕ) (t : Trie) (key : List UInt8) (fromLevel : ℕ) :
    Except TrieErr (List (List UInt8 × List UInt8)) :=
  (provePath nodeOf fuel t.root (keybytesToHex key)).map (proofWrites keccak 0 fromLevel)

end

/-- A fresh memory database after the `Put`s of `writes`, as `Get` reads it. -/
def memDb (writes : List (List UInt8 × List UInt8)) : List UInt8 → Option (List UInt8) :=
  MapOp.lastWrite (fun _ => none) (writes.map fun w => .put w.1 w.2)

/-! ## Verifying -/

/-- `get` of `proof.go`: the walk of a decoded node along a key. A nil key of the source is the
empty list. -/
def get : Node → List Nibble → Except ProofErr (List Nibble × Node)
  | .shortNode nkey nval, key =>
    if key.length < nkey.length ∨ nkey ≠ key.take nkey.length then .ok ([], .nil)
    else get nval (key.drop nkey.length)
  | .fullNode cs, i :: key => get (cs i) key
  | .fullNode _, [] => .error .panic
  | .hashNode h, key => .ok (key, .hashNode h)
  | .nil, key => .ok (key, .nil)
  | .valueNode v, _ => .ok ([], .valueNode v)

/-- Go's `copy(dst, src)`: the first bytes of `dst` overwritten by those of `src`. -/
def copyBytes (dst src : List UInt8) : List UInt8 := src.take dst.length ++ dst.drop src.length

/-- The loop of `VerifyProof` from round `i` on. -/
def verifyLoop (proofDb : List UInt8 → Option (List UInt8)) :
    ℕ → ℕ → List UInt8 → List Nibble → Except ProofErr (Option (List UInt8) × ℕ)
  | 0, _, _, _ => .error .fuelExhausted
  | fuel + 1, i, wantHash, key =>
    match proofDb wantHash with
    | none => .error (.missingNode i wantHash)
    | some buf =>
      -- the bound on nested embedded nodes: each one takes bytes of the buffer
      match decodeNode buf.length buf with
      | .error err => .error (.badNode i err)
      | .ok n => do
        let (keyrest, cld) ← get n key
        match cld with
        | .nil => pure (none, i)
        | .hashNode h => verifyLoop proofDb fuel (i + 1) (copyBytes wantHash h) keyrest
        | .valueNode v => pure (some v, i + 1)
        -- no case of the switch: the loop goes round again
        | _ => verifyLoop proofDb fuel (i + 1) wantHash key

/-- `VerifyProof`: the value and the number of proof nodes read. -/
def verifyProof (fuel : ℕ) (rootHash key : List UInt8) (proofDb : List UInt8 → Option (List UInt8)) :
    Except ProofErr (Option (List UInt8) × ℕ) :=
  verifyLoop proofDb fuel 0 rootHash (keybytesToHex key)

/-- The empty trie holds no value, but its proof is empty and `VerifyProof` reports the root
node missing. -/
theorem verifyProof_emptyTrie :
    (Trie.mk .nil).tryGetKey (fun _ => none) 0 [1] = (.ok none, ⟨.nil⟩) ∧
    (Trie.mk .nil).prove (fun _ => none) sampleKeccak 0 [1] 0 = .ok [] ∧
    verifyProof 1 ((Trie.mk .nil).hash sampleKeccak) [1] (memDb []) =
      .error (.missingNode 0 emptyRoot) :=
  ⟨rfl, rfl, rfl⟩

/-! ## Paths -/

/-- `n` leads to `m` along `key`, with `r` left of the key: the nodes the walks of `Prove` and
of `get` pass. -/
inductive Along : Node → List Nibble → Node → List Nibble → Prop
  | refl (n : Node) (key : List Nibble) : Along n key n key
  | short {nkey key r : List Nibble} {nval m : Node} :
      nkey <+: key → Along nval (key.drop nkey.length) m r → Along (.shortNode nkey nval) key m r
  | full {cs : Fin 17 → Node} {i : Nibble} {key r : List Nibble} {m : Node} :
      Along (cs i) key m r → Along (.fullNode cs) (i :: key) m r

/-- The nodes of a trie, the root first. -/
def Node.subnodes : Node → List Node
  | .shortNode k v => .shortNode k v :: v.subnodes
  | .fullNode cs => .fullNode cs :: (List.finRange 17).flatMap fun i => (cs i).subnodes
  | n => [n]

theorem Node.mem_subnodes_self (n : Node) : n ∈ n.subnodes := by
  cases n <;> simp [Node.subnodes]

theorem Node.not_isInner_of_isLeaf {n : Node} (h : n.IsLeaf) : ¬ n.IsInner := by
  cases n <;> simp_all [Node.IsLeaf, Node.IsInner]

theorem Node.AllValues.of_mem_subnodes {P : List UInt8 → Prop} :
    ∀ {n m : Node}, n.AllValues P → m ∈ n.subnodes → m.AllValues P := by
  intro n
  induction n with
  | shortNode k v ih =>
    intro m h hm
    rcases List.mem_cons.mp hm with rfl | hm
    · exact h
    · exact ih h hm
  | fullNode cs ih =>
    intro m h hm
    rcases List.mem_cons.mp hm with rfl | hm
    · exact h
    · obtain ⟨i, -, hi⟩ := List.mem_flatMap.mp hm
      exact ih i (h i) hi
  | nil | hashNode _ | valueNode _ =>
    intro m h hm
    rw [List.mem_singleton.mp hm]
    exact h

namespace Along

theorem get_eq {n m : Node} {key r : List Nibble} (h : Along n key m r) :
    n.get key = m.get r := by
  induction h with
  | refl => rfl
  | short hp _ ih => rw [Node.get_shortNode, if_pos hp, ih]
  | full _ ih => rw [Node.get_fullNode_cons, ih]

theorem trans {a b c : Node} {k r s : List Nibble} (h₁ : Along a k b r) (h₂ : Along b r c s) :
    Along a k c s := by
  induction h₁ with
  | refl => exact h₂
  | short hp _ ih => exact .short hp (ih h₂)
  | full _ ih => exact .full (ih h₂)

theorem length_le {n m : Node} {key r : List Nibble} (h : Along n key m r) :
    r.length ≤ key.length := by
  induction h with
  | refl => exact le_refl _
  | short _ _ ih =>
    simp only [List.length_drop] at ih
    omega
  | full _ ih =>
    simp only [List.length_cons]
    omega

theorem mem_subnodes {n m : Node} {key r : List Nibble} (h : Along n key m r) :
    m ∈ n.subnodes := by
  induction h with
  | refl n _ => exact n.mem_subnodes_self
  | short _ _ ih => exact List.mem_cons_of_mem _ ih
  | full _ ih => exact List.mem_cons_of_mem _ (List.mem_flatMap.mpr ⟨_, List.mem_finRange _, ih⟩)

/-- Nothing lies below a leaf. -/
theorem eq_of_isLeaf {n m : Node} {key r : List Nibble} (h : Along n key m r) (hn : n.IsLeaf) :
    m = n := by
  cases h with
  | refl => rfl
  | short => cases hn
  | full => cases hn

/-- Along a terminated key through a canonical node, the inner nodes reached are canonical and
the key left at them is terminated. -/
theorem canon {n m : Node} {key r : List Nibble} (h : Along n key m r) :
    n.Canon → Terminated key → m.IsInner → m.Canon ∧ Terminated r := by
  induction h with
  | refl => exact fun hc hkey _ => ⟨hc, hkey⟩
  | short hp hrest ih =>
    intro hc hkey hm
    obtain ⟨-, ⟨-, w, rfl⟩ | ⟨hfree, -, hvc⟩⟩ := hc
    · rw [hrest.eq_of_isLeaf trivial] at hm
      cases hm
    · exact ih hvc (terminated_drop hkey hp hfree) hm
  | @full cs i key r m hrest ih =>
    intro hc hkey hm
    by_cases hi : i = 16
    · subst hi
      rw [hrest.eq_of_isLeaf hc.2.1] at hm
      exact absurd hm (Node.not_isInner_of_isLeaf hc.2.1)
    · exact ih (hc.1 i hi) (terminated_cons hkey hi) hm

end Along

/-- The test of `Prove` and `get` at a short node: the key does not start with the node's key. -/
theorem mismatch_iff (nkey key : List Nibble) :
    (key.length < nkey.length ∨ nkey ≠ key.take nkey.length) ↔ ¬ nkey <+: key := by
  rw [List.prefix_iff_eq_take]
  constructor
  · rintro (h | h) he
    · have := congrArg List.length he
      simp only [List.length_take] at this
      omega
    · exact h he
  · exact Or.inr

/-! ## The path `Prove` collects -/

section
variable (nodeOf : List UInt8 → Option Node) (rec : Node → List Nibble → Except TrieErr (List Node))

/-- `Prove` collects every inner node the key passes before its end. -/
theorem Along.mem_provePathWith {n m : Node} {key r : List Nibble} (h : Along n key m r)
    (hm : m.IsInner) (hr : r ≠ []) {nodes : List Node}
    (hp : provePathWith nodeOf rec n key = .ok nodes) : m ∈ nodes := by
  induction h generalizing nodes with
  | refl n key =>
    obtain ⟨x, xs, rfl⟩ := List.exists_cons_of_ne_nil hr
    cases n with
    | shortNode nkey nval =>
      simp only [provePathWith] at hp
      split at hp
      · cases hp
        exact List.mem_singleton_self _
      · obtain ⟨nodes', -, rfl⟩ := except_map_eq_ok hp
        exact List.mem_cons_self
    | fullNode cs =>
      simp only [provePathWith] at hp
      obtain ⟨nodes', -, rfl⟩ := except_map_eq_ok hp
      exact List.mem_cons_self
    | _ => cases hm
  | @short nkey key r nval m hpre hrest ih =>
    have hkey : key ≠ [] := by
      rintro rfl
      have := hrest.length_le
      simp only [List.drop_nil, List.length_nil] at this
      exact hr (List.eq_nil_of_length_eq_zero (by omega))
    obtain ⟨x, xs, rfl⟩ := List.exists_cons_of_ne_nil hkey
    simp only [provePathWith, if_neg ((mismatch_iff _ _).not.mpr (not_not.mpr hpre))] at hp
    obtain ⟨nodes', hp', rfl⟩ := except_map_eq_ok hp
    exact List.mem_cons_of_mem _ (ih hm hr hp')
  | full hrest ih =>
    simp only [provePathWith] at hp
    obtain ⟨nodes', hp', rfl⟩ := except_map_eq_ok hp
    exact List.mem_cons_of_mem _ (ih hm hr hp')

/-- On a canonical trie and a terminated key the first loop of `Prove` succeeds: it starts at
the root and collects inner nodes of the trie. -/
theorem provePathWith_canon :
    ∀ {n : Node}, n.Canon → ∀ {key : List Nibble}, Terminated key →
      ∃ nodes, provePathWith nodeOf rec n key = .ok nodes ∧
        (∀ x ∈ nodes, x ∈ n.subnodes ∧ x.IsInner) ∧ (n.IsInner → nodes.head? = some n) := by
  intro n
  induction n with
  | nil =>
    intro _ key hkey
    obtain ⟨x, xs, rfl⟩ := List.exists_cons_of_ne_nil (terminated_ne_nil hkey)
    exact ⟨[], rfl, by simp, fun h => absurd h id⟩
  | hashNode _ => intro hc; exact absurd hc id
  | valueNode _ => intro hc; exact absurd hc id
  | shortNode nkey nval ih =>
    intro hc key hkey
    obtain ⟨x, xs, hx⟩ := List.exists_cons_of_ne_nil (terminated_ne_nil hkey)
    have hself : Node.shortNode nkey nval ∈ (Node.shortNode nkey nval).subnodes :=
      Node.mem_subnodes_self _
    by_cases hpre : nkey <+: key
    · obtain ⟨-, ⟨hterm, w, rfl⟩ | ⟨hfree, -, hvc⟩⟩ := hc
      · -- a leaf: its key is the rest of the key
        have hend : key.drop nkey.length = [] := by
          rw [terminated_prefix_eq hterm hkey hpre, List.drop_length]
        refine ⟨[.shortNode nkey (.valueNode w)], ?_, by simp [hself, Node.IsInner], fun _ => rfl⟩
        rw [hx]
        simp only [provePathWith, if_neg ((mismatch_iff _ _).not.mpr (not_not.mpr (hx ▸ hpre)))]
        rw [← hx, hend]
        rfl
      · obtain ⟨nodes, hp, hsub, -⟩ := ih hvc (terminated_drop hkey hpre hfree)
        refine ⟨.shortNode nkey nval :: nodes, ?_, ?_, fun _ => rfl⟩
        · rw [hx]
          simp only [provePathWith, if_neg ((mismatch_iff _ _).not.mpr (not_not.mpr (hx ▸ hpre)))]
          rw [← hx, hp]
          rfl
        · intro y hy
          rcases List.mem_cons.mp hy with rfl | hy
          · exact ⟨hself, trivial⟩
          · exact ⟨List.mem_cons_of_mem _ (hsub y hy).1, (hsub y hy).2⟩
    · refine ⟨[.shortNode nkey nval], ?_, by simp [hself, Node.IsInner], fun _ => rfl⟩
      rw [hx]
      simp only [provePathWith, if_pos ((mismatch_iff _ _).mpr (hx ▸ hpre))]
  | fullNode cs ih =>
    intro hc key hkey
    obtain ⟨i, key', rfl⟩ := List.exists_cons_of_ne_nil (terminated_ne_nil hkey)
    have hself : Node.fullNode cs ∈ (Node.fullNode cs).subnodes := Node.mem_subnodes_self _
    obtain ⟨nodes, hp, hsub⟩ : ∃ nodes, provePathWith nodeOf rec (cs i) key' = .ok nodes ∧
        ∀ x ∈ nodes, x ∈ (cs i).subnodes ∧ x.IsInner := by
      by_cases hi : i = 16
      · subst hi
        rw [terminated_cons_terminator hkey]
        exact ⟨[], by cases cs 16 <;> rfl, by simp⟩
      · obtain ⟨nodes, hp, hsub, -⟩ := ih i (hc.1 i hi) (terminated_cons hkey hi)
        exact ⟨nodes, hp, hsub⟩
    refine ⟨.fullNode cs :: nodes, by simp only [provePathWith, hp]; rfl, ?_, fun _ => rfl⟩
    intro y hy
    rcases List.mem_cons.mp hy with rfl | hy
    · exact ⟨hself, trivial⟩
    · exact ⟨List.mem_cons_of_mem _ (List.mem_flatMap.mpr ⟨i, List.mem_finRange _, (hsub y hy).1⟩),
        (hsub y hy).2⟩

end

/-! ## What `get` finds in a collapsed node -/

/-- The node `get` stops at for a value found or not found. -/
def valueNodeOf : Option (List UInt8) → Node
  | none => .nil
  | some v => .valueNode v

theorem get_shortNode_of_prefix_key {nkey key : List Nibble} (nval : Node) (hp : nkey <+: key) :
    get (.shortNode nkey nval) key = get nval (key.drop nkey.length) := by
  rw [get, if_neg ((mismatch_iff _ _).not.mpr (not_not.mpr hp))]

theorem get_shortNode_of_not_prefix_key {nkey key : List Nibble} (nval : Node) (hp : ¬ nkey <+: key) :
    get (.shortNode nkey nval) key = .ok ([], .nil) := by
  rw [get, if_pos ((mismatch_iff _ _).mpr hp)]

section
variable (keccak : List UInt8 → List UInt8)

/-- What `get` finds on the collapsed form of `m` along `key`: the value `m` holds there, or the
hash of a node `m'` below `m` on the path whose encoding stands on its own, with the key left at
`m'`. -/
def Found (m : Node) (key : List Nibble) (res : List Nibble × Node) : Prop :=
  res.2 = valueNodeOf (m.get key) ∨
    ∃ m', Along m key m' res.1 ∧ res.1.length < key.length ∧ m'.IsInner ∧
      32 ≤ (encodeCollapsed keccak m').length ∧ res.2 = .hashNode (keccak (encodeCollapsed keccak m'))

/-- From a node one step below `m`, `get` walks on through the reference to it: through the
collapsed node if it is embedded, or it stops at its hash. -/
theorem found_of_child {m f : Node} {key key' : List Nibble} (hstep : Along m key f key')
    (hlt : key'.length < key.length) (hf : f.IsInner)
    (ih : (encodeCollapsed keccak f).length < 32 →
      ∃ res, get (hashChildren keccak f) key' = .ok res ∧ Found keccak f key' res) :
    ∃ res, get (hash keccak f false) key' = .ok res ∧ Found keccak m key res := by
  rw [hash_of_isInner keccak hf]
  split
  · next hsmall =>
    obtain ⟨res, hget, hfound⟩ := ih hsmall
    refine ⟨res, hget, ?_⟩
    rcases hfound with hval | ⟨m', halong, hlen, hm', henc, hres⟩
    · exact .inl (by rw [hval, hstep.get_eq])
    · exact .inr ⟨m', hstep.trans halong, by omega, hm', henc, hres⟩
  · next hbig =>
    refine ⟨(key', .hashNode (keccak (encodeCollapsed keccak f))), by rw [get], ?_⟩
    exact .inr ⟨f, hstep, hlt, hf, by omega, rfl⟩

/-- `get` on the collapsed form of a canonical node, along a terminated key. -/
theorem get_hashChildren :
    ∀ {m : Node}, m.Canon → m.IsInner → ∀ {key : List Nibble}, Terminated key →
      ∃ res, get (hashChildren keccak m) key = .ok res ∧ Found keccak m key res := by
  intro m
  induction m with
  | nil | hashNode _ | valueNode _ => intro _ hm; cases hm
  | shortNode nkey nval ih =>
    intro hc _ key hkey
    obtain ⟨hne, ⟨hterm, w, rfl⟩ | ⟨hfree, hfull, hvc⟩⟩ := hc
    · -- a leaf: the value is in place
      refine ⟨if nkey <+: key then ([], .valueNode w) else ([], .nil), ?_, .inl ?_⟩
      · by_cases hp : nkey <+: key
        · rw [if_pos hp]
          exact (get_shortNode_of_prefix_key _ hp).trans (by rw [get])
        · rw [if_neg hp]
          exact get_shortNode_of_not_prefix_key _ hp
      · rw [Node.get_shortNode]
        split <;> rfl
    · have hf : nval.IsInner := by cases nval <;> simp_all [Node.isFull, Node.IsInner]
      rw [hashChildren_shortNode_inner keccak nkey hf]
      by_cases hp : nkey <+: key
      · rw [get_shortNode_of_prefix_key _ hp]
        have hlt : (key.drop nkey.length).length < key.length := by
          have : 0 < nkey.length := List.length_pos_iff.mpr hne
          have := hp.length_le
          simp only [List.length_drop]
          omega
        exact found_of_child keccak (.short hp (.refl _ _)) hlt hf
          (fun _ => ih hvc hf (terminated_drop hkey hp hfree))
      · refine ⟨([], .nil), get_shortNode_of_not_prefix_key _ hp, .inl ?_⟩
        rw [Node.get_shortNode, if_neg hp]
        rfl
  | fullNode cs ih =>
    intro hc _ key hkey
    obtain ⟨hinner, hleaf, -⟩ := hc
    obtain ⟨i, key', rfl⟩ := List.exists_cons_of_ne_nil (terminated_ne_nil hkey)
    have hcol : get (hashChildren keccak (.fullNode cs)) (i :: key') =
        get (if i.val < 16 ∧ (cs i).isNil = false then hash keccak (cs i) false else cs i) key' := by
      rw [hashChildren, get]
      rfl
    rw [hcol]
    by_cases hi : i = 16
    · -- the value slot, and the end of the key
      subst hi
      rw [terminated_cons_terminator hkey, if_neg (by simp)]
      refine ⟨([], valueNodeOf ((cs 16).get [])), ?_, .inl rfl⟩
      cases hc16 : cs 16 with
      | nil => rfl
      | valueNode w => rfl
      | _ => rw [hc16] at hleaf; cases hleaf
    · have hi16 : i.val < 16 := by
        have := i.isLt
        have : i.val ≠ 16 := fun h => hi (Fin.ext h)
        omega
      by_cases hnil : cs i = .nil
      · refine ⟨(key', .nil), ?_, .inl ?_⟩
        · rw [if_neg (by simp [hnil]), hnil, get]
        · rw [Node.get_fullNode_cons, hnil]
          rfl
      · rw [if_pos ⟨hi16, (Node.isNil_eq_false_iff _).mpr hnil⟩]
        have hf := Node.isInner_of_canon (hinner i hi) hnil
        exact found_of_child keccak (.full (.refl _ _)) (by simp) hf
          (fun _ => ih i (hinner i hi) hf (terminated_cons hkey hi))

end

/-! ## The writes of `Prove` -/

theorem Node.isHash_of_isInner {n : Node} (h : n.IsInner) : n.isHash = false := by
  cases n <;> first | rfl | cases h

section
variable (keccak : List UInt8 → List UInt8)

/-- `keccak` does not collide on the encodings of the inner nodes of `n`. -/
def NoCollision (n : Node) : Prop :=
  ∀ a ∈ n.subnodes, ∀ b ∈ n.subnodes, a.IsInner → b.IsInner →
    keccak (encodeCollapsed keccak a) = keccak (encodeCollapsed keccak b) →
      encodeCollapsed keccak a = encodeCollapsed keccak b

instance (n : Node) : Decidable (NoCollision keccak n) :=
  inferInstanceAs (Decidable (∀ a ∈ n.subnodes, ∀ b ∈ n.subnodes, a.IsInner → b.IsInner →
    keccak (encodeCollapsed keccak a) = keccak (encodeCollapsed keccak b) →
      encodeCollapsed keccak a = encodeCollapsed keccak b))

/-- The encodings of the inner nodes of `n` fit RLP's eight-byte sizes. -/
def EncodingsFit (n : Node) : Prop :=
  ∀ a ∈ n.subnodes, a.IsInner → (encodeCollapsed keccak a).length < 256 ^ 8

instance (n : Node) : Decidable (EncodingsFit keccak n) :=
  inferInstanceAs (Decidable (∀ a ∈ n.subnodes, a.IsInner →
    (encodeCollapsed keccak a).length < 256 ^ 8))

/-- One node of the second loop of `Prove`, with nothing skipped: the root and a node with a
hash reference are written under the hash of their encoding. -/
theorem proofWrites_cons {x : Node} (hx : x.IsInner) (i : ℕ) (ns : List Node) :
    proofWrites keccak i 0 (x :: ns) =
      (if 32 ≤ (encodeCollapsed keccak x).length ∨ i = 0 then
        [(keccak (encodeCollapsed keccak x), encodeCollapsed keccak x)] else []) ++
      proofWrites keccak (i + 1) 0 ns := by
  have hci := hashChildren_isInner keccak hx
  rw [proofWrites, store_of_isInner keccak hci]
  simp only [encodeCollapsed, gt_iff_lt, lt_self_iff_false, if_false]
  by_cases hsmall : (hashChildren keccak x).toItem.encode.length < 32
  · -- embedded: written only as the root, under the hash `Prove` computes itself
    simp only [hsmall, and_self, if_true, Node.isHash_of_isInner hci, Bool.false_eq_true,
      false_or, Nat.not_le.mpr hsmall]
    split
    · split
      · next heq =>
        rw [heq] at hci
        cases hci
      · rfl
    · rfl
  · simp only [hsmall, false_and, if_false, Node.isHash, true_or, if_true, Nat.not_lt.mp hsmall]
    rfl

/-- Every write of `Prove` is the encoding of one of the nodes under its hash. -/
theorem mem_proofWrites {nodes : List Node} (hin : ∀ x ∈ nodes, x.IsInner) {i : ℕ}
    {w : List UInt8 × List UInt8} (hw : w ∈ proofWrites keccak i 0 nodes) :
    ∃ x ∈ nodes, w = (keccak (encodeCollapsed keccak x), encodeCollapsed keccak x) := by
  induction nodes generalizing i with
  | nil => cases hw
  | cons x ns ih =>
    rw [proofWrites_cons keccak (hin x List.mem_cons_self)] at hw
    rcases List.mem_append.mp hw with hw | hw
    · split at hw
      · exact ⟨x, List.mem_cons_self, List.mem_singleton.mp hw⟩
      · cases hw
    · obtain ⟨y, hy, rfl⟩ := ih (fun y hy => hin y (List.mem_cons_of_mem _ hy)) hw
      exact ⟨y, List.mem_cons_of_mem _ hy, rfl⟩

theorem head_mem_proofWrites {x : Node} (hx : x.IsInner) (ns : List Node) :
    (keccak (encodeCollapsed keccak x), encodeCollapsed keccak x) ∈
      proofWrites keccak 0 0 (x :: ns) := by
  rw [proofWrites_cons keccak hx, if_pos (Or.inr rfl)]
  exact List.mem_append_left _ (List.mem_singleton_self _)

theorem stored_mem_proofWrites {nodes : List Node} (hin : ∀ x ∈ nodes, x.IsInner) {m : Node}
    (hm : m ∈ nodes) (h32 : 32 ≤ (encodeCollapsed keccak m).length) (i : ℕ) :
    (keccak (encodeCollapsed keccak m), encodeCollapsed keccak m) ∈
      proofWrites keccak i 0 nodes := by
  induction nodes generalizing i with
  | nil => cases hm
  | cons x ns ih =>
    rw [proofWrites_cons keccak (hin x List.mem_cons_self)]
    rcases List.mem_cons.mp hm with rfl | hm
    · rw [if_pos (Or.inl h32)]
      exact List.mem_append_left _ (List.mem_singleton_self _)
    · exact List.mem_append_right _
        (ih (fun y hy => hin y (List.mem_cons_of_mem _ hy)) hm (i + 1))

/-- Under the hash of a node it wrote, the proof holds that node's encoding: no other node the
proof holds has an encoding with the same hash. -/
theorem memDb_proofWrites {root : Node} (hinj : NoCollision keccak root) {nodes : List Node}
    (hsub : ∀ x ∈ nodes, x ∈ root.subnodes ∧ x.IsInner) {m : Node} (hm : m ∈ root.subnodes)
    (hmi : m.IsInner)
    (hw : (keccak (encodeCollapsed keccak m), encodeCollapsed keccak m) ∈
      proofWrites keccak 0 0 nodes) :
    memDb (proofWrites keccak 0 0 nodes) (keccak (encodeCollapsed keccak m)) =
      some (encodeCollapsed keccak m) := by
  apply MapOp.lastWrite_of_forall
  · exact ⟨.put _ _, List.mem_map.mpr ⟨_, hw, rfl⟩, rfl⟩
  · intro op hop hkey
    obtain ⟨w, hw', rfl⟩ := List.mem_map.mp hop
    obtain ⟨x, hx, rfl⟩ := mem_proofWrites keccak (fun y hy => (hsub y hy).2) hw'
    rw [hinj x (hsub x hx).1 m hm (hsub x hx).2 hmi hkey]
    rfl

/-! ## The loop of `VerifyProof` -/

theorem copyBytes_of_length {dst src : List UInt8} (h : src.length = dst.length) :
    copyBytes dst src = src := by
  rw [copyBytes, ← h, List.take_length, List.drop_eq_nil_of_le (le_of_eq h.symm), List.append_nil]

/-! One round of the loop: the node under the wanted hash decoded and walked by `get`, then
the end of the walk, or the next round. -/

section
variable {db : List UInt8 → Option (List UInt8)} {fuel i : ℕ} {wantHash buf : List UInt8}
  {key r : List Nibble} {n : Node}

theorem verifyLoop_succ_nil (hdb : db wantHash = some buf) (hdec : decodeNode buf.length buf = .ok n)
    (hget : get n key = .ok (r, .nil)) :
    verifyLoop db (fuel + 1) i wantHash key = .ok (none, i) := by
  simp only [verifyLoop, hdb, hdec, hget, except_ok_bind]
  rfl

theorem verifyLoop_succ_valueNode {v : List UInt8} (hdb : db wantHash = some buf)
    (hdec : decodeNode buf.length buf = .ok n) (hget : get n key = .ok (r, .valueNode v)) :
    verifyLoop db (fuel + 1) i wantHash key = .ok (some v, i + 1) := by
  simp only [verifyLoop, hdb, hdec, hget, except_ok_bind]
  rfl

theorem verifyLoop_succ_hashNode {h : List UInt8} (hdb : db wantHash = some buf)
    (hdec : decodeNode buf.length buf = .ok n) (hget : get n key = .ok (r, .hashNode h)) :
    verifyLoop db (fuel + 1) i wantHash key = verifyLoop db fuel (i + 1) (copyBytes wantHash h) r := by
  simp only [verifyLoop, hdb, hdec, hget, except_ok_bind]

end

/-- From a node stored on its own on the path, the loop finds what the node holds along the
rest of the key, in a number of rounds it reports. The induction is on a bound on the length of
the key left, which every hash the loop follows shortens. -/
theorem verifyLoop_found (hlen : ∀ x, (keccak x).length = 32) {root : Node} (hc : root.Canon)
    (hval : root.AllValues (· ≠ [])) (hfit : EncodingsFit keccak root) {key0 : List Nibble}
    (hkey0 : Terminated key0) {db : List UInt8 → Option (List UInt8)}
    (hdb : ∀ m r, Along root key0 m r → m.IsInner →
      (m = root ∨ 32 ≤ (encodeCollapsed keccak m).length) →
        db (keccak (encodeCollapsed keccak m)) = some (encodeCollapsed keccak m)) :
    ∀ n m r, r.length ≤ n → Along root key0 m r → m.IsInner →
      (m = root ∨ 32 ≤ (encodeCollapsed keccak m).length) → ∀ i, ∃ d, ∀ fuel, d < fuel →
        verifyLoop db fuel i (keccak (encodeCollapsed keccak m)) r = .ok (m.get r, i + d) := by
  intro n
  induction n with
  | zero =>
    intro m r hr halong hm _ _
    have hterm := (halong.canon hc hkey0 hm).2
    exact absurd (List.eq_nil_of_length_eq_zero (by omega)) (terminated_ne_nil hterm)
  | succ n ih =>
    intro m r hr halong hm hstored i
    obtain ⟨hmc, hterm⟩ := halong.canon hc hkey0 hm
    have hsub := halong.mem_subnodes
    have hmnil : m ≠ .nil := by
      rintro rfl
      cases hm
    have hdec : decodeNode (encodeCollapsed keccak m).length (encodeCollapsed keccak m) =
        .ok (hashChildren keccak m) := by
      have := decodeNode_encodeCollapsed keccak hlen hmc hmnil (hval.of_mem_subnodes hsub)
        (hfit m hsub hm) _ [] le_rfl
      rwa [List.append_nil] at this
    have hdbm := hdb m r halong hm hstored
    obtain ⟨⟨r', c⟩, hget, hfound⟩ := get_hashChildren keccak hmc hm hterm
    rcases hfound with hc' | ⟨m', halong', hlt, hm', h32, hc'⟩
    · -- the walk ends in this node: a value, or none
      simp only at hc'
      cases hv : m.get r with
      | none =>
        rw [hc', hv] at hget
        refine ⟨0, fun fuel hfuel => ?_⟩
        obtain ⟨f, rfl⟩ : ∃ f, fuel = f + 1 := ⟨fuel - 1, by omega⟩
        exact verifyLoop_succ_nil hdbm hdec hget
      | some v =>
        rw [hc', hv] at hget
        refine ⟨1, fun fuel hfuel => ?_⟩
        obtain ⟨f, rfl⟩ : ∃ f, fuel = f + 1 := ⟨fuel - 1, by omega⟩
        exact verifyLoop_succ_valueNode hdbm hdec hget
    · -- the walk goes on at the next stored node, with a shorter key
      simp only at hc' hlt halong'
      rw [hc'] at hget
      obtain ⟨d, hd⟩ := ih m' r' (by omega) (halong.trans halong') hm' (.inr h32) (i + 1)
      refine ⟨d + 1, fun fuel hfuel => ?_⟩
      obtain ⟨f, rfl⟩ : ∃ f, fuel = f + 1 := ⟨fuel - 1, by omega⟩
      rw [verifyLoop_succ_hashNode hdbm hdec hget, copyBytes_of_length (by rw [hlen, hlen]),
        hd f (by omega), ← halong'.get_eq, Nat.add_assoc, Nat.add_comm 1 d]

end

/-! ## Proofs of the tries the calls build -/

/-- Every value a canonical node holds is found under some terminated key. -/
theorem allValues_of_get {P : List UInt8 → Prop} :
    ∀ {n : Node}, n.Canon → (∀ hk, Terminated hk → ∀ v, n.get hk = some v → P v) →
      n.AllValues P := by
  intro n
  induction n with
  | nil => exact fun _ _ => trivial
  | hashNode _ | valueNode _ => intro hc; exact absurd hc id
  | shortNode nkey nval ih =>
    intro hc h
    obtain ⟨-, ⟨hterm, w, rfl⟩ | ⟨hfree, -, hvc⟩⟩ := hc
    · exact h nkey hterm w (by rw [get_shortNode_value hterm hterm, if_pos rfl])
    · refine ih hvc fun hk hk' v hv => h (nkey ++ hk) (terminated_append hfree hk') v ?_
      rw [Node.get_shortNode, if_pos (List.prefix_append _ _), List.drop_left]
      exact hv
  | fullNode cs ih =>
    intro hc h i
    by_cases hi : i = 16
    · subst hi
      have hleaf := hc.2.1
      cases hc16 : cs 16 with
      | nil => trivial
      | valueNode w =>
        exact h [16] ⟨[], rfl, by simp⟩ w (by rw [Node.get_fullNode_cons, hc16]; rfl)
      | _ => rw [hc16] at hleaf; cases hleaf
    · refine ih i (hc.1 i hi) fun hk hk' v hv => h (i :: hk) ?_ v hv
      obtain ⟨p, rfl, hp⟩ := hk'
      exact ⟨i :: p, rfl, by simpa [hi] using hp⟩

/-- The values of a trie of the form are those of its contents. -/
theorem Trie.Wf.allValues {t : Trie} (hwf : t.Wf) {P : List UInt8 → Prop}
    (h : ∀ k v, t.contents k = some v → P v) : t.root.AllValues P := by
  refine allValues_of_get hwf.canon fun hk hterm v hv => ?_
  by_cases hb : ∃ b, keybytesToHex b = hk
  · obtain ⟨b, rfl⟩ := hb
    exact h b v hv
  · rw [hwf.outside hk hterm (fun b hb' => hb ⟨b, hb'⟩)] at hv
    cases hv

/-- The calls write no empty value: `TryUpdate` with one deletes. -/
theorem lastWrite_ops_ne_nil {ops : List Op} {k v : List UInt8}
    (h : MapOp.lastWrite (fun _ => none) (ops.map Op.toMapOp) k = some v) : v ≠ [] := by
  rcases MapOp.lastWrite_eq_some h with h | ⟨op, hop, hw⟩
  · cases h
  · obtain ⟨o, -, rfl⟩ := List.mem_map.mp hop
    cases o with
    | update k' v' =>
      by_cases hv' : v'.length ≠ 0
      · rw [Op.toMapOp, if_pos hv'] at hw
        obtain rfl : v' = v := Option.some.inj hw
        exact fun h => hv' (by rw [h]; rfl)
      · rw [Op.toMapOp, if_neg hv'] at hw
        cases hw
    | delete k' => cases hw

section
variable (nodeOf : List UInt8 → Option Node) (keccak : List UInt8 → List UInt8)

/-- On a trie of the form whose values are not empty, the proof `Prove` writes for a key leads
`VerifyProof` from the root hash to the value the trie holds under the key. -/
theorem verifyProof_of_wf (hlen : ∀ x, (keccak x).length = 32) {t : Trie} (hwf : t.Wf)
    (hne : t.root ≠ .nil) (hval : ∀ k v, t.contents k = some v → v ≠ [])
    (hinj : NoCollision keccak t.root) (hfit : EncodingsFit keccak t.root) (fuel : ℕ)
    (k : List UInt8) :
    ∃ writes n, t.prove nodeOf keccak fuel k 0 = .ok writes ∧
      ∀ fuel', n < fuel' → verifyProof fuel' (t.hash keccak) k (memDb writes) =
        .ok (t.contents k, n) := by
  have hroot := Node.isInner_of_canon hwf.canon hne
  have hkey := keybytesToHex_terminated k
  obtain ⟨nodes, hpath, hsub, hhead⟩ : ∃ nodes,
      provePath nodeOf fuel t.root (keybytesToHex k) = .ok nodes ∧
        (∀ x ∈ nodes, x ∈ t.root.subnodes ∧ x.IsInner) ∧
        (t.root.IsInner → nodes.head? = some t.root) := by
    cases fuel <;> exact provePathWith_canon nodeOf _ hwf.canon hkey
  have hdb : ∀ m r, Along t.root (keybytesToHex k) m r → m.IsInner →
      (m = t.root ∨ 32 ≤ (encodeCollapsed keccak m).length) →
        memDb (proofWrites keccak 0 0 nodes) (keccak (encodeCollapsed keccak m)) =
          some (encodeCollapsed keccak m) := by
    intro m r halong hm hstored
    have hr : r ≠ [] := terminated_ne_nil (halong.canon hwf.canon hkey hm).2
    have hmem : m ∈ nodes := by
      cases fuel <;> exact halong.mem_provePathWith nodeOf _ hm hr hpath
    apply memDb_proofWrites keccak hinj hsub halong.mem_subnodes hm
    rcases hstored with rfl | h32
    · obtain ⟨ns, rfl⟩ : ∃ ns, nodes = t.root :: ns := by
        cases nodes with
        | nil => cases hhead hroot
        | cons x ns => exact ⟨ns, by rw [Option.some.inj (hhead hroot)]⟩
      exact head_mem_proofWrites keccak hroot ns
    · exact stored_mem_proofWrites keccak (fun y hy => (hsub y hy).2) hmem h32 0
  obtain ⟨d, hd⟩ := verifyLoop_found keccak hlen hwf.canon (hwf.allValues hval) hfit hkey hdb _
    t.root _ le_rfl (.refl _ _) hroot (.inl rfl) 0
  refine ⟨proofWrites keccak 0 0 nodes, d, by rw [Trie.prove, hpath]; rfl, fun fuel' hf => ?_⟩
  rw [verifyProof, Trie.hash_of_isInner keccak hroot (hlen _), hd fuel' hf, Nat.zero_add]
  rfl

theorem verifyProof_prove (fuel : ℕ) (ops : List Op) (hlen : ∀ x, (keccak x).length = 32)
    (t : Trie) (hrun : runOps nodeOf fuel ⟨.nil⟩ ops = .ok t) (hne : t.root ≠ .nil)
    (hinj : NoCollision keccak t.root) (hfit : EncodingsFit keccak t.root) (k : List UInt8) :
    ∃ v writes n, t.tryGetKey nodeOf fuel k = (.ok v, t) ∧
      t.prove nodeOf keccak fuel k 0 = .ok writes ∧
      ∀ fuel', n < fuel' → verifyProof fuel' (t.hash keccak) k (memDb writes) = .ok (v, n) := by
  obtain ⟨t', hrun', hwf, hcontents⟩ := runOps_wf nodeOf fuel ops
  obtain rfl : t' = t := Except.ok.inj (hrun'.symm.trans hrun)
  have hval : ∀ k v, t'.contents k = some v → v ≠ [] := fun k v h =>
    lastWrite_ops_ne_nil (by rw [← hcontents]; exact h)
  obtain ⟨writes, n, hprove, hverify⟩ :=
    verifyProof_of_wf nodeOf keccak hlen hwf hne hval hinj hfit fuel k
  exact ⟨t'.contents k, writes, n, tryGetKey_canon nodeOf fuel hwf.canon k, hprove, hverify⟩

/-- Two keys under one branch node. The forty-byte value under `01` makes its leaf too long to
embed, so the branch refers to it by hash and `Prove` writes it after the root. -/
def twoKeyOps : List Op := [.update [1] (List.replicate 40 7), .update [0x10] [3]]

def twoKeyTrie : Trie := (runOps (fun _ => none) 0 ⟨.nil⟩ twoKeyOps).toOption.getD ⟨.nil⟩

theorem verifyProof_prove_hashedChild :
    twoKeyTrie.root = .fullNode ![.shortNode [1, 16] (.valueNode (List.replicate 40 7)),
      .shortNode [0, 16] (.valueNode [3]), .nil, .nil, .nil, .nil, .nil, .nil, .nil, .nil, .nil,
      .nil, .nil, .nil, .nil, .nil, .nil] ∧
    (twoKeyTrie.prove (fun _ => none) lengthKeccak 0 [1] 0).map List.length = .ok 2 ∧
    ∃ v writes n,
      twoKeyTrie.tryGetKey (fun _ => none) 0 [1] = (.ok v, twoKeyTrie) ∧
      twoKeyTrie.prove (fun _ => none) lengthKeccak 0 [1] 0 = .ok writes ∧
      ∀ fuel', n < fuel' →
        verifyProof fuel' (twoKeyTrie.hash lengthKeccak) [1] (memDb writes) = .ok (v, n) :=
  ⟨by decide, rfl, verifyProof_prove (fun _ => none) lengthKeccak 0 twoKeyOps length_lengthKeccak
    twoKeyTrie rfl (by decide) (by decide) (by decide) [1]⟩

end

end Srcd.Trie
