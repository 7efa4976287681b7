import Srcd.Trie.Node

/-! # Trie operations (`trie/trie.go`)

`tryGet`, `insert` and `delete` recurse over the node; at a hash node they load the node from
the database (`resolveHash`) and go on with it. The database is the parameter `nodeOf`
(`db.node`: the decoded node stored under a hash, if any). A node loaded that way is not a
part of the one being walked, so each operation is written once as `…With rec`, whose hash
case hands the loaded node to `rec`, and the operation itself ties the knot with a bound
`fuel` on the number of hash nodes resolved along one path.

A Go runtime panic (an index out of range, or the `default` case of a type switch) is
`TrieErr.outOfRange` or `TrieErr.invalidNode`; no trie the operations build reaches one.
Hash nodes hold 32 bytes, so `common.BytesToHash` is the identity on them.
-/

namespace Srcd.Trie
set_option autoImplicit false
set_option linter.dupNamespace false

inductive TrieErr where
  /-- `MissingNodeError` -/
  | missingNode (nodeHash : List UInt8) (path : List Nibble)
  /-- Go panics: index out of range -/
  | outOfRange
  /-- Go panics: `invalid node` -/
  | invalidNode
  /-- the bound on hash nodes resolved along one path ran out (no Go counterpart) -/
  | fuelExhausted
  deriving DecidableEq, Repr

/-- A trie: its root node. `originalRoot`, `cachegen` and `cachelimit` only feed the node
flags and are not modelled. -/
structure Trie where
  root : Node

/-- The root hash of the empty trie, `keccak256(rlp(""))`. -/
def emptyRoot : List UInt8 :=
  [0x56, 0xe8, 0x1f, 0x17, 0x1b, 0xcc, 0x55, 0xa6, 0xff, 0x83, 0x45, 0xe6, 0x92, 0xc0, 0xf8, 0x6e,
    0x5b, 0x48, 0xe0, 0x1b, 0x99, 0x6c, 0xad, 0xc0, 0x01, 0x62, 0x2f, 0xb5, 0xe3, 0x63, 0xb4, 0x21]

/-- `common.Hash{}`. -/
def zeroHash : List UInt8 := List.replicate 32 0

section
variable (nodeOf : List UInt8 → Option Node)

/-- `resolveHash`. -/
def resolveHash (n : List UInt8) (pfx : List Nibble) : Except TrieErr Node :=
  match nodeOf n with
  | some node => .ok node
  | none => .error (.missingNode n pfx)

/-- `resolve`: load a hash node, keep any other node. -/
def resolve (n : Node) (pfx : List Nibble) : Except TrieErr Node :=
  match n with
  | .hashNode h => resolveHash nodeOf h pfx
  | n => .ok n

/-- `New`: a trie with the given root hash, its root node loaded from the database. -/
def Trie.new (root : List UInt8) : Except TrieErr Trie :=
  if root ≠ zeroHash ∧ root ≠ emptyRoot then do
    let rootnode ← resolveHash nodeOf root []
    pure ⟨rootnode⟩
  else pure ⟨.nil⟩

/-! ## Lookup -/

/-- The result of `tryGet`: the value, the node with the loaded hash nodes put in, and whether a
hash node was loaded. -/
abbrev GetResult := Option (List UInt8) × Node × Bool

/-- `tryGet`, with `rec` for the node loaded at a hash node. -/
def tryGetWith (rec : Node → List Nibble → ℕ → Except TrieErr GetResult) :
    Node → List Nibble → ℕ → Except TrieErr GetResult
  | .nil, _, _ => .ok (none, .nil, false)
  | .valueNode v, _, _ => .ok (some v, .valueNode v, false)
  | .shortNode nkey nval, key, pos =>
    if key.length - pos < nkey.length ∨ nkey ≠ (key.drop pos).take nkey.length then
      -- key not found in trie
      .ok (none, .shortNode nkey nval, false)
    else do
      let (value, newnode, didResolve) ← tryGetWith rec nval key (pos + nkey.length)
      if didResolve then pure (value, .shortNode nkey newnode, true)
      else pure (value, .shortNode nkey nval, false)
  | .fullNode cs, key, pos =>
    match key[pos]? with
    | none => .error .outOfRange
    | some i => do
      let (value, newnode, didResolve) ← tryGetWith rec (cs i) key (pos + 1)
      if didResolve then pure (value, .fullNode (Function.update cs i newnode), true)
      else pure (value, .fullNode cs, false)
  | .hashNode h, key, pos => do
    let child ← resolveHash nodeOf h (key.take pos)
    let (value, newnode, _) ← rec child key pos
    pure (value, newnode, true)

def tryGet : ℕ → Node → List Nibble → ℕ → Except TrieErr GetResult
  | 0 => tryGetWith nodeOf fun _ _ _ => .error .fuelExhausted
  | fuel + 1 => tryGetWith nodeOf (tryGet fuel)

/-- `TryGet`: the value stored under a key; the root takes the loaded hash nodes. -/
def Trie.tryGetKey (fuel : ℕ) (t : Trie) (key : List UInt8) :
    Except TrieErr (Option (List UInt8)) × Trie :=
  match tryGet nodeOf fuel t.root (keybytesToHex key) 0 with
  | .ok (value, newroot, didResolve) => (.ok value, if didResolve then ⟨newroot⟩ else t)
  | .error err => (.error err, t)

/-! ## Insertion -/

/-- `t.insert(nil, prefix, key, value)`, which returns at once. -/
def insertNew (key : List Nibble) (value : Node) : Node :=
  match key with
  | [] => value
  | _ => .shortNode key value

/-- `insert` of the value node `value`, with `rec` for the node loaded at a hash node. -/
def insertWith (rec : Node → List Nibble → List Nibble → List UInt8 → Except TrieErr (Bool × Node)) :
    Node → List Nibble → List Nibble → List UInt8 → Except TrieErr (Bool × Node)
  | n, _, [], value =>
    match n with
    | .valueNode v => .ok (v != value, .valueNode value)
    | _ => .ok (true, .valueNode value)
  | .shortNode nkey nval, pfx, key, value =>
    let matchlen := prefixLen key nkey
    -- If the whole key matches, keep this short node as is and only update the value.
    if matchlen = nkey.length then do
      let (dirty, nn) ← insertWith rec nval (pfx ++ key.take matchlen) (key.drop matchlen) value
      if !dirty then return (false, .shortNode nkey nval)
      return (true, .shortNode nkey nn)
    else
      -- Otherwise branch out at the index where they differ.
      match nkey[matchlen]?, key[matchlen]? with
      | some ni, some ki =>
        let branch := Function.update (Function.update emptyChildren ni
          (insertNew (nkey.drop (matchlen + 1)) nval)) ki
          (insertNew (key.drop (matchlen + 1)) (.valueNode value))
        -- Replace this shortNode with the branch if it occurs at index 0.
        if matchlen = 0 then .ok (true, .fullNode branch)
        else .ok (true, .shortNode (key.take matchlen) (.fullNode branch))
      | _, _ => .error .outOfRange
  | .fullNode cs, pfx, k :: krest, value => do
    let (dirty, nn) ← insertWith rec (cs k) (pfx ++ [k]) krest value
    if !dirty then return (false, .fullNode cs)
    return (true, .fullNode (Function.update cs k nn))
  | .nil, _, key, value => .ok (true, .shortNode key (.valueNode value))
  | .hashNode h, pfx, key, value => do
    -- We've hit a part of the trie that isn't loaded yet. Load the node and insert into it.
    let rn ← resolveHash nodeOf h pfx
    let (dirty, nn) ← rec rn pfx key value
    if !dirty then return (false, rn)
    return (true, nn)
  | .valueNode _, _, _ :: _, _ => .error .invalidNode

def insert : ℕ → Node → List Nibble → List Nibble → List UInt8 → Except TrieErr (Bool × Node)
  | 0 => insertWith nodeOf fun _ _ _ _ => .error .fuelExhausted
  | fuel + 1 => insertWith nodeOf (insert fuel)

/-! ## Deletion -/

/-- `delete`, with `rec` for the node loaded at a hash node. -/
def deleteWith (rec : Node → List Nibble → List Nibble → Except TrieErr (Bool × Node)) :
    Node → List Nibble → List Nibble → Except TrieErr (Bool × Node)
  | .shortNode nkey nval, pfx, key =>
    let matchlen := prefixLen key nkey
    if matchlen < nkey.length then .ok (false, .shortNode nkey nval)
    else if matchlen = key.length then .ok (true, .nil)
    else do
      -- The key is longer than n.Key. Remove the remaining suffix from the subtrie.
      let (dirty, child) ← deleteWith rec nval (pfx ++ key.take nkey.length) (key.drop nkey.length)
      if !dirty then return (false, .shortNode nkey nval)
      match child with
      -- Deleting from the subtrie reduced it to another short node. Merge the nodes.
      | .shortNode ckey cval => return (true, .shortNode (nkey ++ ckey) cval)
      | child => return (true, .shortNode nkey child)
  | .fullNode cs, pfx, key =>
    match key with
    | [] => .error .outOfRange
    | k :: krest => do
      let (dirty, nn) ← deleteWith rec (cs k) (pfx ++ [k]) krest
      if !dirty then return (false, .fullNode cs)
      let cs := Function.update cs k nn
      match childPos cs with
      | .one pos =>
        if pos ≠ 16 then do
          -- If the remaining entry is a short node, it replaces n and its key gets the
          -- missing nibble tacked to the front.
          let cnode ← resolve nodeOf (cs pos) pfx
          match cnode with
          | .shortNode ckey cval => return (true, .shortNode (pos :: ckey) cval)
          | _ => return (true, .shortNode [pos] (cs pos))
        else
          -- Otherwise, n is replaced by a one-nibble short node containing the child.
          return (true, .shortNode [pos] (cs pos))
      | _ => return (true, .fullNode cs)
  | .valueNode _, _, _ => .ok (true, .nil)
  | .nil, _, _ => .ok (false, .nil)
  | .hashNode h, pfx, key => do
    -- We've hit a part of the trie that isn't loaded yet. Load the node and delete from it.
    let rn ← resolveHash nodeOf h pfx
    let (dirty, nn) ← rec rn pfx key
    if !dirty then return (false, rn)
    return (true, nn)

def delete : ℕ → Node → List Nibble → List Nibble → Except TrieErr (Bool × Node)
  | 0 => deleteWith nodeOf fun _ _ _ => .error .fuelExhausted
  | fuel + 1 => deleteWith nodeOf (delete fuel)

/-- `TryUpdate`: an empty value deletes the key. On an error the trie is left as it was. -/
def Trie.tryUpdate (fuel : ℕ) (t : Trie) (key value : List UInt8) : Except TrieErr Trie :=
  let k := keybytesToHex key
  if value.length ≠ 0 then do
    let (_, n) ← insert nodeOf fuel t.root [] k value
    pure ⟨n⟩
  else do
    let (_, n) ← delete nodeOf fuel t.root [] k
    pure ⟨n⟩

/-- `TryDelete`. -/
def Trie.tryDelete (fuel : ℕ) (t : Trie) (key : List UInt8) : Except TrieErr Trie := do
  let (_, n) ← delete nodeOf fuel t.root [] (keybytesToHex key)
  pure ⟨n⟩

end

end Srcd.Trie
