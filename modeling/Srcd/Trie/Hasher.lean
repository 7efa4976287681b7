import Srcd.Rlp.Item
import Srcd.Trie.Trie

/-! # Hashing (`trie/hasher.go`)

The hasher collapses a trie bottom-up. Each child of a short or full node is replaced by its
reference (`hashChildren`): the collapsed child itself when its RLP encoding is shorter than
32 bytes, so that it is embedded in its parent, and the hash of the encoding otherwise
(`store`). The root is always hashed, and its hash is the trie's `Hash`. The hash function is
the parameter `keccak`, any function from byte strings to byte strings.

A collapsed short node keeps its key in hex form: the `hexToCompact` that `hashChildren` applies
to the key is applied where the key is written, in `Node.toItem`. The node flags, and with them
the cached hash a later `hash` call reuses, are not modelled: the hash is computed again, which
is the hash the cache holds.
-/

namespace Srcd.Trie
open Srcd.Rlp
set_option autoImplicit false
set_option linter.dupNamespace false

/-- The RLP item `rlp.Encode` writes for a node of a collapsed trie. A full node writes its empty
children as empty strings (`nilValueNode`); a nil node anywhere else is a nil interface, which
the encoder writes as the empty list. -/
def Node.toItem : Node → Item
  | .nil => .list []
  | .valueNode v => .str v
  | .hashNode h => .str h
  | .shortNode k v => .list [.str (hexToCompact k), v.toItem]
  | .fullNode cs =>
    .list ((List.finRange 17).map fun i => if (cs i).isNil then .str [] else (cs i).toItem)

/-- `common.BytesToHash`: the last 32 bytes, padded with zeros on the left. -/
def bytesToHash (b : List UInt8) : List UInt8 :=
  List.replicate (32 - b.length) 0 ++ b.drop (b.length - 32)

theorem bytesToHash_of_length {b : List UInt8} (h : b.length = 32) : bytesToHash b = b := by
  simp [bytesToHash, h]

section
variable (keccak : List UInt8 → List UInt8)

/-- `store` without a database: a node is replaced by the hash of its encoding, unless the
encoding is shorter than 32 bytes and `force` is not set. Nil and hash nodes are kept. -/
def store (n : Node) (force : Bool) : Node :=
  match n with
  | .nil => .nil
  | .hashNode h => .hashNode h
  | n =>
    let enc := n.toItem.encode
    if enc.length < 32 ∧ force = false then n else .hashNode (keccak enc)

/-- `hashChildren`, the collapsed node: the child of a short node, unless it is a value, and
the branches of a full node that are not nil are replaced by their references. -/
def hashChildren : Node → Node
  | .shortNode k (.valueNode v) => .shortNode k (.valueNode v)
  | .shortNode k v => .shortNode k (store keccak (hashChildren v) false)
  | .fullNode cs => .fullNode fun i =>
    if i.val < 16 ∧ (cs i).isNil = false then store keccak (hashChildren (cs i)) false else cs i
  | n => n

/-- `hash` without a database: the reference to a node. -/
def hash (n : Node) (force : Bool) : Node := store keccak (hashChildren keccak n) force

/-- The encoding `store` hashes: that of the collapsed node. -/
def encodeCollapsed (n : Node) : List UInt8 := (hashChildren keccak n).toItem.encode

/-- `hashRoot` without a database. -/
def Trie.hashRoot (t : Trie) : Node :=
  match t.root with
  | .nil => .hashNode emptyRoot
  | root => hash keccak root true

/-- `Hash`. The root's reference is always a hash node (`store` hashes every node but nil when
forced), so the type assertion `hash.(hashNode)` of the source holds and the last case is never
taken. -/
def Trie.hash (t : Trie) : List UInt8 :=
  match t.hashRoot keccak with
  | .hashNode h => bytesToHash h
  | _ => zeroHash

/-! ## References -/

/-- A node that is written as a list: a short or a full node. -/
def Node.IsInner : Node → Prop
  | .shortNode _ _ => True
  | .fullNode _ => True
  | _ => False

instance (n : Node) : Decidable n.IsInner :=
  match n with
  | .shortNode _ _ => isTrue trivial
  | .fullNode _ => isTrue trivial
  | .nil => isFalse id
  | .hashNode _ => isFalse id
  | .valueNode _ => isFalse id

theorem hashChildren_isInner {n : Node} (h : n.IsInner) : (hashChildren keccak n).IsInner := by
  cases n with
  | shortNode k v => cases v <;> trivial
  | fullNode cs => trivial
  | _ => cases h

theorem store_of_isInner {n : Node} (h : n.IsInner) (force : Bool) :
    store keccak n force =
      if n.toItem.encode.length < 32 ∧ force = false then n
      else .hashNode (keccak n.toItem.encode) := by
  cases n with
  | shortNode k v => rfl
  | fullNode cs => rfl
  | _ => cases h

/-- The reference to an inner node: the collapsed node if its encoding is short, its hash
otherwise. -/
theorem hash_of_isInner {n : Node} (h : n.IsInner) :
    hash keccak n false =
      if (encodeCollapsed keccak n).length < 32 then hashChildren keccak n
      else .hashNode (keccak (encodeCollapsed keccak n)) := by
  rw [hash, store_of_isInner keccak (hashChildren_isInner keccak h)]
  simp only [and_true]
  rfl

theorem hash_force_of_isInner {n : Node} (h : n.IsInner) :
    hash keccak n true = .hashNode (keccak (encodeCollapsed keccak n)) := by
  rw [hash, store_of_isInner keccak (hashChildren_isInner keccak h)]
  simp [encodeCollapsed]

theorem hashChildren_shortNode_inner (k : List Nibble) {v : Node} (hv : v.IsInner) :
    hashChildren keccak (.shortNode k v) = .shortNode k (hash keccak v false) := by
  cases v with
  | shortNode _ _ => rfl
  | fullNode _ => rfl
  | _ => cases hv

/-- The root hash of a trie with an inner root is the hash of the root's collapsed encoding. -/
theorem Trie.hash_of_isInner {t : Trie} (h : t.root.IsInner)
    (hlen : (keccak (encodeCollapsed keccak t.root)).length = 32) :
    t.hash keccak = keccak (encodeCollapsed keccak t.root) := by
  have hroot : t.hashRoot keccak = .hashNode (keccak (encodeCollapsed keccak t.root)) := by
    rw [Trie.hashRoot]
    split
    · next hnil => rw [hnil] at h; cases h
    · exact hash_force_of_isInner keccak h
  rw [Trie.hash, hroot]
  exact bytesToHash_of_length hlen

end

/-! ## A hash for examples -/

/-- Keccak-256 on the inputs the examples of this development hash, and zeros elsewhere: the
empty string (`emptyState`), the root `C4 82 20 01 02` of the trie that holds `02` under the key
`01`, and the root of the trie that holds `01` under `61` and `02` under `61 62`. -/
def sampleKeccak (x : List UInt8) : List UInt8 :=
  if x = [] then
    [0xc5, 0xd2, 0x46, 0x01, 0x86, 0xf7, 0x23, 0x3c, 0x92, 0x7e, 0x7d, 0xb2, 0xdc, 0xc7, 0x03, 0xc0,
      0xe5, 0x00, 0xb6, 0x53, 0xca, 0x82, 0x27, 0x3b, 0x7b, 0xfa, 0xd8, 0x04, 0x5d, 0x85, 0xa4, 0x70]
  else if x = [0xC4, 0x82, 0x20, 0x01, 0x02] then
    [0x40, 0xd0, 0xcb, 0x72, 0x09, 0x88, 0x92, 0x56, 0x0f, 0x0a, 0x6e, 0x34, 0x9b, 0xdc, 0x55, 0xb8,
      0x05, 0x01, 0x97, 0x8f, 0x96, 0x5f, 0x19, 0x94, 0xd0, 0x57, 0x08, 0x68, 0x50, 0xad, 0xab, 0xb7]
  else if x = [0xd7, 0x82, 0x00, 0x61, 0xd3, 0x80, 0x80, 0x80, 0x80, 0x80, 0x80, 0xc2, 0x32, 0x02,
      0x80, 0x80, 0x80, 0x80, 0x80, 0x80, 0x80, 0x80, 0x80, 0x01] then
    [0xe2, 0x00, 0x23, 0x96, 0x37, 0x97, 0xc7, 0x49, 0xde, 0xd4, 0xef, 0xee, 0x16, 0x33, 0x96, 0x83,
      0x29, 0x77, 0x4e, 0x93, 0x3f, 0x8e, 0x15, 0x3c, 0x90, 0x8f, 0x28, 0xd3, 0xc9, 0xf3, 0xb4, 0x4f]
  else List.replicate 32 0

/-- A 32-byte hash that tells inputs apart by their length: enough for examples whose hashed
encodings all differ in length. -/
def lengthKeccak (x : List UInt8) : List UInt8 := UInt8.ofNat x.length :: List.replicate 31 0

theorem length_lengthKeccak (x : List UInt8) : (lengthKeccak x).length = 32 := by
  simp [lengthKeccak]

end Srcd.Trie
