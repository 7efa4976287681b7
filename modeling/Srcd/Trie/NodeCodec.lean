import Srcd.Rlp.Raw
import Srcd.Trie.Node

/-! # Decoding stored nodes (`trie/node.go`)

`decodeNode` reads a node from the RLP encoding the database and the proofs hold: a list of two
values is a short node (compact key, then a value or a reference), a list of seventeen a full
node (sixteen references, then the value). A reference is empty, a 32-byte hash, or a node
embedded in place when its encoding is shorter than a hash.

The node flags `decodeNode` fills from its `hash` and `cachegen` arguments are not modelled. An
embedded node is decoded by a nested call; `fuel` bounds the depth of that nesting and nothing
else, so on a buffer without embedded lists it plays no part.

`compactToHex` panics on an empty compact key, and `decodeShort` hands it the key as read from
the input: the list `C2 80 80` makes `decodeNode` panic (`decodeNode_emptyKey_panics`).
-/

namespace Srcd.Trie
open Srcd.Rlp Srcd.Rlp.Raw
set_option autoImplicit false

inductive NodeErr where
  /-- an error of the RLP functions, returned as it is -/
  | rlp (err : Err)
  /-- `decode error: %v` -/
  | decode (err : Err)
  /-- `invalid number of list elements: %v` -/
  | invalidCount (c : ℕ)
  /-- `invalid value node: %v` -/
  | invalidValueNode (err : Err)
  /-- `oversized embedded node (size is %d bytes, want size < %d)` -/
  | oversizedEmbedded (size : ℕ)
  /-- `invalid RLP string size %d (want 0 or 32)` -/
  | invalidStringSize (size : ℕ)
  /-- `decodeError`: an error and the positions of the children it came through -/
  | decodeError (what : NodeErr) (stack : List String)
  /-- a Go runtime panic -/
  | panic
  /-- the bound on nested embedded nodes ran out (no Go counterpart) -/
  | fuelExhausted
  deriving DecidableEq, Repr

/-- `hashLen`: the size of a hash. -/
def hashLen : ℕ := 32

/-- `wrapError`: push `ctx` on the path of a decoding error. A panic unwinds past it. -/
def wrapError (err : NodeErr) (ctx : String) : NodeErr :=
  match err with
  | .decodeError what stack => .decodeError what (stack ++ [ctx])
  | .panic => .panic
  | .fuelExhausted => .fuelExhausted
  | err => .decodeError err [ctx]

/-- The children of `decodeFull`: sixteen references, then the value if it is not empty. -/
def fullChildren (refs : List Node) (val : List UInt8) : Fin 17 → Node := fun i =>
  if i.val < 16 then refs.getD i.val .nil
  else if val.length > 0 then .valueNode val else .nil

mutual
def decodeNode (fuel : ℕ) (buf : List UInt8) : Except NodeErr Node :=
  if buf.length = 0 then .error (.rlp .unexpectedEOF)
  else
    match splitList buf with
    | .error err => .error (.decode err)
    | .ok (elems, _) =>
      -- an error of `CountValues` is dropped and the count is then 0
      match (countValues elems).toOption.getD 0 with
      | 2 => (decodeShort fuel elems).mapError (wrapError · "short")
      | 17 => (decodeFull fuel elems).mapError (wrapError · "full")
      | c => .error (.invalidCount c)
termination_by (fuel, 3, 0)

def decodeShort (fuel : ℕ) (elems : List UInt8) : Except NodeErr Node :=
  match splitString elems with
  | .error err => .error (.rlp err)
  | .ok (kbuf, rest) =>
    match compactToHex kbuf with
    | none => .error .panic
    | some key =>
      if hasTerm key then
        -- value node
        match splitString rest with
        | .error err => .error (.invalidValueNode err)
        | .ok (val, _) => .ok (.shortNode key (.valueNode val))
      else
        match decodeRef fuel rest with
        | .error err => .error (wrapError err "val")
        | .ok (r, _) => .ok (.shortNode key r)
termination_by (fuel, 2, 0)

def decodeFull (fuel : ℕ) (elems : List UInt8) : Except NodeErr Node :=
  match decodeRefs fuel 0 elems 16 with
  | .error err => .error err
  | .ok (refs, elems) =>
    match splitString elems with
    | .error err => .error (.rlp err)
    | .ok (val, _) => .ok (.fullNode (fullChildren refs val))
termination_by (fuel, 2, 0)

/-- The loop of `decodeFull` over children `i` to `i + k - 1`. -/
def decodeRefs (fuel i : ℕ) (elems : List UInt8) : ℕ → Except NodeErr (List Node × List UInt8)
  | 0 => .ok ([], elems)
  | k + 1 =>
    match decodeRef fuel elems with
    | .error err => .error (wrapError err s!"[{i}]")
    | .ok (cld, rest) =>
      (decodeRefs fuel (i + 1) rest k).map fun (clds, rest) => (cld :: clds, rest)
termination_by k => (fuel, 1, k)

def decodeRef (fuel : ℕ) (buf : List UInt8) : Except NodeErr (Node × List UInt8) :=
  match split buf with
  | .error err => .error (.rlp err)
  | .ok (kind, val, rest) =>
    if kind = .list then
      -- 'embedded' node reference. The encoding must be smaller than a hash.
      let size := buf.length - rest.length
      if size > hashLen then .error (.oversizedEmbedded size)
      else
        match fuel with
        | 0 => .error .fuelExhausted
        | fuel + 1 => (decodeNode fuel buf).map fun n => (n, rest)
    else if kind = .string ∧ val.length = 0 then .ok (.nil, rest)
    else if kind = .string ∧ val.length = 32 then .ok (.hashNode val, rest)
    else .error (.invalidStringSize val.length)
termination_by (fuel, 0, 0)
end

/-- A short node whose compact key is the empty string: Go's `compactToHex` slices
`[16][2:]` and panics. -/
theorem decodeNode_emptyKey_panics (fuel : ℕ) :
    decodeNode fuel [0xC2, 0x80, 0x80] = .error .panic := by
  have hcount : countValues [0x80, 0x80] = .ok 2 := by
    rw [countValues_of_readKind (List.cons_ne_nil _ _)
      (show readKind [0x80, 0x80] = .ok (.string, 1, 0) by decide)]
    rw [show List.drop (1 + 0) [0x80, 0x80] = [(0x80 : UInt8)] from rfl,
      countValues_of_readKind (List.cons_ne_nil _ _)
        (show readKind [0x80] = .ok (.string, 1, 0) by decide)]
    rw [show List.drop (1 + 0) [(0x80 : UInt8)] = [] from rfl, countValues_nil]
    rfl
  have hshort : decodeShort fuel [0x80, 0x80] = .error .panic := by
    rw [decodeShort, show splitString [0x80, 0x80] = .ok ([], [0x80]) by decide]
    rfl
  rw [decodeNode, if_neg (by decide), show splitList [0xC2, 0x80, 0x80] = .ok ([0x80, 0x80], [])
    by decide]
  simp only [hcount, hshort]
  rfl

end Srcd.Trie
