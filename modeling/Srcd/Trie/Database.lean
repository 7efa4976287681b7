import Mathlib
import Srcd.Trie.Trie

/-! # The node cache in front of the disk (`trie/database.go`)

`Database` keeps the nodes written by commits in a map from hash to `cachedNode`, each with a
count of its parents and the external children it references. A flush-list threads the
cached nodes in insertion order through their `flushPrev`/`flushNext` hashes, from `oldest`
to `newest`; the entry under the zero hash is the meta-root that holds the references to
trie roots. `reference` and `dereference` keep the counts, and `dereference` garbage-collects
a node whose count drops to zero, unlinking it from the flush-list.

Go maps are modelled by `AList`s; an access through a missing map entry (a nil
`*cachedNode`) is a panic. `dereference` recurses into the children of a deleted node; `fuel`
bounds that depth. The counters are `uint16` as in the source.

When `dereference` deletes the newest node it unlinks it from its predecessor but leaves
`newest` naming it, so the next `insert` writes through a missing entry
(`dereference_newest_then_insert_panics`).
-/

namespace Srcd.Trie
set_option autoImplicit false
set_option linter.dupNamespace false

abbrev Hash := List UInt8

inductive DbErr where
  /-- a Go runtime panic (nil pointer dereference) -/
  | panic
  /-- the bound on the depth of `dereference` ran out (no Go counterpart) -/
  | fuelExhausted
  deriving DecidableEq, Repr

/-- The content of a cache entry: an RLP blob (`rawNode`), or a collapsed trie node whose
caches `simplifyNode` dropped. -/
inductive Cached where
  | raw (blob : List UInt8)
  | node (n : Node)
  deriving DecidableEq

/-- `gatherChildren`: the hash nodes inside a collapsed node; the value slot holds none. -/
def gatherChildren : Node → List Hash
  | .shortNode _ v => gatherChildren v
  | .fullNode cs => (List.finRange 16).flatMap fun i => gatherChildren (cs i.castSucc)
  | .hashNode h => [h]
  | .valueNode _ => []
  | .nil => []

structure CachedNode where
  node : Cached
  size : UInt16
  parents : UInt16
  /-- external children and their reference counts; `none` is the nil map -/
  children : Option (AList fun _ : Hash => UInt16)
  flushPrev : Hash
  flushNext : Hash
  deriving DecidableEq

/-- `childs`: the external children, then the hash nodes inside the node. -/
def CachedNode.childs (n : CachedNode) : List Hash :=
  (n.children.map AList.keys).getD [] ++
    match n.node with
    | .raw _ => []
    | .node x => gatherChildren x

structure Database where
  nodes : AList fun _ : Hash => CachedNode
  oldest : Hash
  newest : Hash
  nodesSize : ℕ
  deriving DecidableEq

/-- `common.HashLength`. -/
def hashLength : ℕ := 32

/-- The meta-root `{}`: an empty entry under the zero hash. -/
def metaRoot : CachedNode := ⟨.node .nil, 0, 0, none, zeroHash, zeroHash⟩

/-- `NewDatabase`. -/
def Database.new : Database := ⟨AList.insert zeroHash metaRoot ∅, zeroHash, zeroHash, 0⟩

namespace Database

/-- Write `f` of the entry under `h` back, or panic if there is none. -/
def modify (db : Database) (h : Hash) (f : CachedNode → CachedNode) : Except DbErr Database :=
  match db.nodes.lookup h with
  | none => .error .panic
  | some n => .ok { db with nodes := db.nodes.insert h (f n) }

/-- `insert`: cache a collapsed node or blob under `hash`, count it as a parent of its cached
children, and append it to the flush-list. -/
def insert (db : Database) (hash : Hash) (blob : List UInt8) (node : Cached) : Except DbErr Database :=
  -- If the node's already cached, skip
  if (db.nodes.lookup hash).isSome then .ok db
  else
    let entry : CachedNode := ⟨node, UInt16.ofNat blob.length, 0, none, db.newest, zeroHash⟩
    let nodes := entry.childs.foldl (fun nodes child =>
      match nodes.lookup child with
      | some c => nodes.insert child { c with parents := c.parents + 1 }
      | none => nodes) db.nodes
    let db : Database := { db with nodes := nodes.insert hash entry,
                                   nodesSize := db.nodesSize + hashLength + entry.size.toNat }
    -- Update the flush-list endpoints
    if db.oldest = zeroHash then .ok { db with oldest := hash, newest := hash }
    else (db.modify db.newest fun n => { n with flushNext := hash }).map
      fun db => { db with newest := hash }

/-- `InsertBlob`. -/
def insertBlob (db : Database) (hash blob : List UInt8) : Except DbErr Database :=
  db.insert hash blob (.raw blob)

/-- `reference`: a reference from `parent` to `child`; only the meta-root may hold one twice. -/
def reference (db : Database) (child parent : Hash) : Except DbErr Database :=
  -- If the node does not exist, it's a node pulled from disk, skip
  if (db.nodes.lookup child).isNone then .ok db
  else
    match db.nodes.lookup parent with
    | none => .error .panic
    | some p =>
      let present := match p.children with
        | none => false
        | some cs => (cs.lookup child).isSome
      if present = true ∧ parent ≠ zeroHash then .ok db
      else do
        let db ← db.modify parent fun p => { p with children := some (p.children.getD ∅) }
        let db ← db.modify child fun n => { n with parents := n.parents + 1 }
        db.modify parent fun p =>
          let cs := p.children.getD ∅
          { p with children := some (cs.insert child ((cs.lookup child).getD 0 + 1)) }

/-- The reference count of `child` in `parent` lowered by one, if it is held. -/
def dropChild (child : Hash) (p : CachedNode) : CachedNode :=
  match p.children with
  | some cs =>
    let c := (cs.lookup child).getD 0
    if c > 0 then
      { p with children := some (if c - 1 = 0 then cs.erase child else cs.insert child (c - 1)) }
    else p
  | none => p

/-- `dereference`: drop the reference from `parent` to `child`; a child left without parents
leaves the flush-list, drops its own references and is deleted. -/
def dereference : ℕ → Database → Hash → Hash → Except DbErr Database
  | 0, _, _, _ => .error .fuelExhausted
  | fuel + 1, db, child, parent => do
    -- Dereference the parent-child
    let db ← db.modify parent (dropChild child)
    -- If the child does not exist, it's a previously committed node.
    match db.nodes.lookup child with
    | none => pure db
    | some node =>
      let node := { node with parents := node.parents - 1 }
      let db : Database := { db with nodes := db.nodes.insert child node }
      if node.parents = 0 then do
        -- Remove the node from the flush-list
        let db ← if child = db.oldest then pure { db with oldest := node.flushNext }
          else do
            let db ← db.modify node.flushPrev fun n => { n with flushNext := node.flushNext }
            db.modify node.flushNext fun n => { n with flushPrev := node.flushPrev }
        -- Dereference all children and delete the node
        let db ← node.childs.foldlM (fun db hash => dereference fuel db hash child) db
        pure { db with nodes := db.nodes.erase child,
                       nodesSize := db.nodesSize - (hashLength + node.size.toNat) }
      else pure db

end Database

/-- A call that changes the reference counts of the node database: `InsertBlob`, `Reference` and
`Dereference`. -/
inductive DbOp where
  /-- `InsertBlob(hash, blob)` -/
  | insertBlob (hash blob : List UInt8)
  /-- `Reference(child, parent)` -/
  | reference (child parent : Hash)
  /-- `Dereference(root)` -/
  | dereference (root : Hash)
  deriving DecidableEq, Repr

def DbOp.apply (fuel : ℕ) (db : Database) : DbOp → Except DbErr Database
  | .insertBlob hash blob => db.insertBlob hash blob
  | .reference child parent => db.reference child parent
  | .dereference root => Database.dereference fuel db root zeroHash

def runDb (fuel : ℕ) (ops : List DbOp) : Except DbErr Database :=
  ops.foldlM (DbOp.apply fuel) Database.new

/-- Two blobs, the newer referenced from the meta-root and dereferenced again: `newest` still
names the deleted node, and the next insert panics on it. -/
theorem dereference_newest_then_insert_panics (fuel : ℕ) :
    (∃ db, runDb (fuel + 1) [.insertBlob (List.replicate 32 1) [1],
        .insertBlob (List.replicate 32 2) [2], .reference (List.replicate 32 2) zeroHash,
        .dereference (List.replicate 32 2)] = .ok db ∧
      db.newest = List.replicate 32 2 ∧ db.nodes.lookup (List.replicate 32 2) = none) ∧
    runDb (fuel + 1) [.insertBlob (List.replicate 32 1) [1],
        .insertBlob (List.replicate 32 2) [2], .reference (List.replicate 32 2) zeroHash,
        .dereference (List.replicate 32 2), .insertBlob (List.replicate 32 3) [3]] =
      .error .panic :=
  ⟨⟨_, rfl, rfl, rfl⟩, rfl⟩

end Srcd.Trie
