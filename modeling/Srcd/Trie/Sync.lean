import Mathlib
import Srcd.Library.Heap
import Srcd.Library.GoMap
import Srcd.Trie.Database
import Srcd.Trie.NodeCodec
import Srcd.Trie.Iterator

/-! # Downloading a trie node by node (`trie/sync.go`)

`Sync` fetches a trie it does not have. It keeps a request for each node it waits for, and a
priority queue of the hashes still to hand out, deepest first. `Process` takes delivered nodes:
it decodes each one and requests the children that neither the membatch nor the database has;
a node none of whose children it waits for is committed into the membatch, and a committed node
releases each parent it was the last missing child of. `Commit` writes the membatch out in the
order of completion, children before their parents.

The requests live on a heap of their own: a `*request` is an index into `reqs`, as are the
`parents` of a request, so that a write through one pointer is seen through every other. The
queue is `prque`, a `container/heap` whose `Less` puts the greater priority first; a request's
priority is its depth (a `float32` in Go, exact for every depth a trie has). The database is
read through `db`, which holds the bytes stored under a key; `callback` is the leaf callback, of
which a request carries the one of the scheduler or none.

`commit` recurses into the parents it completes; `fuel` bounds that depth, and `Process` gives it
one more than the number of requests ever made, which never runs out (`commit_isSome`).
-/

namespace Srcd.Trie
open Srcd.Library
set_option autoImplicit false

/-- `request`. -/
structure Request where
  hash : Hash
  /-- `data`: `nil` until the node is delivered -/
  data : Option (List UInt8)
  raw : Bool
  /-- `parents`: the `*request`s, indices on the heap of requests -/
  parents : List ℕ
  depth : ℕ
  deps : ℤ
  /-- whether `callback` is the leaf callback of the scheduler, or `nil` -/
  callback : Bool
  deriving DecidableEq, Repr

instance : Inhabited Request := ⟨⟨[], none, false, [], 0, 0, false⟩⟩

/-- `SyncResult`. -/
structure SyncResult where
  hash : Hash
  data : List UInt8
  deriving DecidableEq, Repr

/-- An item of `prque`: a hash and its priority, the depth of its request. -/
structure PrqueItem where
  value : Hash
  priority : ℕ
  deriving DecidableEq, Repr

/-- `sstack.Less`: the greater priority comes out first. -/
def PrqueItem.less (a b : PrqueItem) : Bool := decide (b.priority < a.priority)

/-- `Sync`, with the two fields of its `syncMemBatch` (`batch`, `order`) inlined. -/
structure Sync where
  reqs : List Request
  requests : GoMap Hash ℕ
  batch : GoMap Hash (List UInt8)
  order : List Hash
  queue : List PrqueItem
  deriving DecidableEq, Repr

inductive SyncErr (ε : Type) where
  /-- `ErrNotRequested`, `not requested` -/
  | notRequested
  /-- `ErrAlreadyProcessed`, `already processed` -/
  | alreadyProcessed
  /-- an error of `decodeNode`, returned as it is -/
  | node (err : NodeErr)
  /-- an error of the leaf callback, returned as it is -/
  | callback (err : ε)
  /-- a Go panic: `sub-trie ancestor not found: %x` -/
  | subTrieAncestorNotFound (parent : Hash)
  /-- a Go panic: `raw-entry ancestor not found: %x` -/
  | rawEntryAncestorNotFound (parent : Hash)
  /-- a Go panic: `unknown node: %+v` -/
  | unknownNode
  /-- the bound on the depth of `commit` ran out (no Go counterpart) -/
  | fuelExhausted
  deriving DecidableEq, Repr

namespace Sync

/-- A scheduler with no requests and an empty membatch. -/
def empty : Sync := ⟨[], [], [], [], []⟩

/-- The request a pointer points to. -/
def get (s : Sync) (p : ℕ) : Request := s.reqs.getD p default

/-- A write through a pointer. -/
def modify (s : Sync) (p : ℕ) (f : Request → Request) : Sync :=
  { s with reqs := s.reqs.modify p f }

/-- `schedule`: a request for a hash already requested only adds its parents to the old one. -/
def schedule (s : Sync) (req : Request) : Sync :=
  match s.requests.get? req.hash with
  | some old => s.modify old fun o => { o with parents := o.parents ++ req.parents }
  | none =>
    { s with
      reqs := s.reqs ++ [req]
      queue := Heap.push PrqueItem.less s.queue ⟨req.hash, req.depth⟩
      requests := s.requests.set req.hash s.reqs.length }

section Requests
variable {ε : Type} (db : Hash → Option (List UInt8))

/-- The tail of `AddSubTrie` and `AddRawEntry`: the request linked to its parent, unless the
parent is the zero hash, and scheduled. A parent with no request is a panic, `err`. -/
def link (err : Hash → SyncErr ε) (s : Sync) (req : Request) (parent : Hash) :
    Except (SyncErr ε) Sync :=
  if parent ≠ zeroHash then
    match s.requests.get? parent with
    | none => .error (err parent)
    | some a =>
      .ok ((s.modify a fun r => { r with deps := r.deps + 1 }).schedule
        { req with parents := req.parents ++ [a] })
  else .ok (s.schedule req)

/-- `AddSubTrie`; `cb` says whether the new request carries the leaf callback. -/
def addSubTrie (s : Sync) (root : Hash) (depth : ℕ) (parent : Hash) (cb : Bool) :
    Except (SyncErr ε) Sync :=
  if root = emptyRoot then .ok s
  else if s.batch.contains root then .ok s
  else
    -- a missing key reads as `nil`, on which `decodeNode` fails
    let blob := (db root).getD []
    if (decodeNode blob.length blob).isOk then .ok s
    else s.link .subTrieAncestorNotFound ⟨root, none, false, [], depth, 0, cb⟩ parent

/-- `AddRawEntry`. -/
def addRawEntry (keccak : List UInt8 → List UInt8) (s : Sync) (hash : Hash) (depth : ℕ)
    (parent : Hash) : Except (SyncErr ε) Sync :=
  if hash = emptyState keccak then .ok s
  else if s.batch.contains hash then .ok s
  else if (db hash).isSome then .ok s
  else s.link .rawEntryAncestorNotFound ⟨hash, none, true, [], depth, 0, false⟩ parent

/-- `NewSync`: an empty scheduler, then `AddSubTrie(root, 0, common.Hash{}, callback)`. -/
def newSync (root : Hash) (cb : Bool) : Except (SyncErr ε) Sync :=
  empty.addSubTrie db root 0 zeroHash cb

end Requests

/-- The loop of `Missing`, from the hashes taken so far: an empty queue pops nothing. -/
def missingLoop (max : ℕ) (requests : List Hash) (queue : List PrqueItem) :
    List Hash × List PrqueItem :=
  match _hp : Heap.pop PrqueItem.less queue with
  | none => (requests, queue)
  | some (item, rest) =>
    if max = 0 ∨ requests.length < max then missingLoop max (requests ++ [item.value]) rest
    else (requests, queue)
termination_by queue.length
decreasing_by have := Heap.length_of_pop _hp; omega

/-- `Missing`. -/
def missing (s : Sync) (max : ℕ) : List Hash × Sync :=
  let (requests, queue) := missingLoop max [] s.queue
  (requests, { s with queue })

/-! ## Committing -/

/-- The writes of `commit`: the request's data into the membatch, its hash out of the requests. -/
def store (s : Sync) (req : Request) : Sync :=
  { s with
    batch := s.batch.set req.hash (req.data.getD [])
    order := s.order ++ [req.hash]
    requests := s.requests.delete req.hash }

/-- One parent in the loop of `commit`: one dependency fewer, and the parent committed by `commit`
when that was its last. -/
def release (commit : Sync → ℕ → Option Sync) (s : Sync) (a : ℕ) : Option Sync :=
  let s := s.modify a fun r => { r with deps := r.deps - 1 }
  if (s.get a).deps = 0 then commit s a else some s

/-- `commit`. -/
def commit : ℕ → Sync → ℕ → Option Sync
  | 0, _, _ => none
  | fuel + 1, s, p => (s.get p).parents.foldlM (release (commit fuel)) (s.store (s.get p))

/-- The bound `Process` gives `commit`. -/
def commitFuel (s : Sync) : ℕ := s.reqs.length + 1

/-- `commit` as `Process` calls it, after which the item counts as committed. -/
def commitReq {ε : Type} (s : Sync) (p : ℕ) : Sync × Except (SyncErr ε) Bool :=
  match s.commit s.commitFuel p with
  | some s => (s, .ok true)
  | none => (s, .error .fuelExhausted)

/-! ## Processing delivered nodes -/

/-- The children `children` gathers from a decoded node, each with its depth; `none` is the
panic on a node that is neither short nor full. -/
def childrenOf (req : Request) : Node → Option (List (Node × ℕ))
  | .shortNode key val => some [(val, req.depth + key.length)]
  | .fullNode cs =>
    some (((List.finRange 17).filter fun i => cs i ≠ .nil).map fun i => (cs i, req.depth + 1))
  | _ => none

section Process
variable {ε : Type} (db : Hash → Option (List UInt8)) (callback : List UInt8 → Hash → Except ε Unit)

/-- The leaf callback on a child that is a value, for a request that carries the callback. -/
def notifyLeaf (req : Request) (child : Node) : Except (SyncErr ε) Unit :=
  match req.callback, child with
  | true, .valueNode v => (callback v req.hash).mapError .callback
  | _, _ => .ok ()

/-- The request for a child that is a hash neither the membatch nor the database has. -/
def childRequest (s : Sync) (p : ℕ) (req : Request) (child : Node × ℕ) : List Request :=
  match child.1 with
  | .hashNode node =>
    let hash := bytesToHash node
    if s.batch.contains hash then []
    else if (db node).isSome then []
    else [⟨hash, none, false, [p], child.2, 0, req.callback⟩]
  | _ => []

/-- One child in the loop of `children`. -/
def childStep (s : Sync) (p : ℕ) (req : Request) (requests : List Request) (child : Node × ℕ) :
    Except (SyncErr ε) (List Request) :=
  (notifyLeaf callback req child.1).bind fun _ => .ok (requests ++ s.childRequest db p req child)

/-- `children`, of the request at `p`. -/
def children (s : Sync) (p : ℕ) (object : Node) : Except (SyncErr ε) (List Request) :=
  match childrenOf (s.get p) object with
  | none => .error .unknownNode
  | some cs => cs.foldlM (s.childStep db callback p (s.get p)) []

/-- One item of the loop of `Process`: the state after it, and whether it was committed or the
error that ends the loop. -/
def processItem (s : Sync) (item : SyncResult) : Sync × Except (SyncErr ε) Bool :=
  match s.requests.get? item.hash with
  | none => (s, .error .notRequested)
  | some p =>
    if (s.get p).data.isSome then (s, .error .alreadyProcessed)
    else if (s.get p).raw then (s.modify p fun r => { r with data := some item.data }).commitReq p
    else
      match decodeNode item.data.length item.data with
      | .error err => (s, .error (.node err))
      | .ok node =>
        let s := s.modify p fun r => { r with data := some item.data }
        match s.children db callback p node with
        | .error err => (s, .error err)
        | .ok requests =>
          if requests.length = 0 ∧ (s.get p).deps = 0 then s.commitReq p
          else
            let s := s.modify p fun r => { r with deps := r.deps + requests.length }
            (requests.foldl schedule s, .ok false)

/-- The loop of `Process` from the item at index `i`, with `committed` so far. -/
def processLoop : Sync → Bool → ℕ → List SyncResult → Sync × Bool × ℕ × Option (SyncErr ε)
  | s, committed, _, [] => (s, committed, 0, none)
  | s, committed, i, item :: results =>
    match s.processItem db callback item with
    | (s, .error err) => (s, committed, i, some err)
    | (s, .ok c) => processLoop s (committed || c) (i + 1) results

/-- `Process`: the state, whether something was committed, the index of the item that failed
and its error. -/
def process (s : Sync) (results : List SyncResult) : Sync × Bool × ℕ × Option (SyncErr ε) :=
  s.processLoop db callback false 0 results

end Process

/-! ## Writing the membatch out -/

/-- The loop of `Commit` from index `i`: each key of `order` written through `put` with its
membatch entry, up to the first write that fails. -/
def putLoop {σ δ : Type} (put : σ → Hash → List UInt8 → Except δ σ)
    (batch : GoMap Hash (List UInt8)) : ℕ → σ → List Hash → σ × Option (ℕ × δ)
  | _, w, [] => (w, none)
  | i, w, key :: order =>
    match put w key (batch.getD key []) with
    | .error err => (w, some (i, err))
    | .ok w => putLoop put batch (i + 1) w order

/-- `Commit` into the store `w`: the number of items written and the error of the write that
failed; a fresh membatch when every write went through. -/
def commitBatch {σ δ : Type} (put : σ → Hash → List UInt8 → Except δ σ) (s : Sync) (w : σ) :
    (Sync × σ) × ℕ × Option δ :=
  match putLoop put s.batch 0 w s.order with
  | (w, some (i, err)) => ((s, w), i, some err)
  | (w, none) => (({ s with batch := [], order := [] }, w), s.order.length, none)

end Sync

/-! ## The scheduler and its database, over a run -/

/-- A scheduler and the database it reads and `Commit` writes. -/
structure SyncSys where
  sync : Sync
  disk : GoMap Hash (List UInt8)
  deriving DecidableEq, Repr

/-- The calls a downloader makes. -/
inductive SyncEvent where
  | addSubTrie (root : Hash) (depth : ℕ) (parent : Hash) (cb : Bool)
  | addRawEntry (hash : Hash) (depth : ℕ) (parent : Hash)
  | missing (max : ℕ)
  | process (results : List SyncResult)
  /-- `Commit` into the database, whose `Put` fails on the keys of `failing` -/
  | commit (failing : List Hash)
  deriving DecidableEq, Repr

/-- A `Put` into the database that fails on the keys of `failing`. -/
def putFailing (failing : List Hash) (disk : GoMap Hash (List UInt8)) (key : Hash)
    (value : List UInt8) : Except Unit (GoMap Hash (List UInt8)) :=
  if key ∈ failing then .error () else .ok (disk.set key value)

namespace SyncSys
variable {ε : Type} (keccak : List UInt8 → List UInt8) (callback : List UInt8 → Hash → Except ε Unit)

/-- One call; `none` is a panic, which ends the run. -/
def step (t : SyncSys) : SyncEvent → Option SyncSys
  | .addSubTrie root depth parent cb =>
    (t.sync.addSubTrie (ε := ε) t.disk.get? root depth parent cb).toOption.map
      fun s => { t with sync := s }
  | .addRawEntry hash depth parent =>
    (t.sync.addRawEntry (ε := ε) t.disk.get? keccak hash depth parent).toOption.map
      fun s => { t with sync := s }
  | .missing max => some { t with sync := (t.sync.missing max).2 }
  | .process results => some { t with sync := (t.sync.process t.disk.get? callback results).1 }
  | .commit failing =>
    let ((s, disk), _) := t.sync.commitBatch (putFailing failing) t.disk
    some ⟨s, disk⟩

def run (t : SyncSys) : List SyncEvent → Option SyncSys
  | [] => some t
  | e :: es => (t.step keccak callback e).bind fun t => t.run es

/-- A scheduler with nothing requested, over the database `disk`. -/
def init (disk : GoMap Hash (List UInt8)) : SyncSys := ⟨Sync.empty, disk⟩

end SyncSys

end Srcd.Trie
