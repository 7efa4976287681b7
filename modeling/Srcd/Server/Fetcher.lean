import Srcd.Library.GoMap
import Mathlib

/-! # The block fetcher (`server/fetcher/fetcher.go`)

The fetcher's loop, one event at a time: an announcement (`Notify`), a propagated block
(`Enqueue`), a finished import (`done`), the fetch and complete timers, and a batch of headers
or bodies to filter. Before each event the loop drops expired fetches and imports what fits
from the queue (`loopHead`).

Announce records are values; the header filter updates the record that `fetching[hash]`
points at, which no other map holds at that moment, so one write covers every alias. The
callbacks the fetcher is given become an environment: whether `getBlock` finds a hash, the
chain height, `types.DeriveSha` and the clock, in milliseconds. `rand.Intn(n)` is `pick hash % n`
for an arbitrary `pick`. The queue is kept sorted by block number, the order in which its heap
pops. The goroutines that fetch, verify and import send their answers back as later events, and
leave nothing in the state.
-/

namespace Srcd.Server
open Srcd.Library
set_option autoImplicit false

/-- The fields of `types.Header` that the fetcher reads. -/
structure Header (H : Type) where
  /-- `Header.Hash()` -/
  hash : H
  number : ℕ
  txHash : H
  deriving DecidableEq, Repr

structure Block (H T : Type) where
  header : Header H
  transactions : List T
  deriving DecidableEq, Repr

structure Announce (P H : Type) where
  hash : H
  number : ℕ
  header : Option (Header H)
  time : ℕ
  origin : P
  deriving DecidableEq, Repr

structure Inject (P H T : Type) where
  origin : P
  block : Block H T
  deriving DecidableEq, Repr

structure Fetcher (P H T : Type) where
  announces : P → ℤ
  announced : GoMap H (List (Announce P H))
  fetching : GoMap H (Announce P H)
  fetched : GoMap H (List (Announce P H))
  completing : GoMap H (Announce P H)
  queue : List (Inject P H T)
  queues : P → ℤ
  queued : GoMap H (Inject P H T)

/-- What the fetcher learns from outside when it handles an event. -/
structure Env (H T : Type) where
  /-- whether `getBlock(hash)` finds the block -/
  getBlock : H → Bool
  chainHeight : ℕ
  deriveSha : List T → H
  /-- `time.Now()` -/
  now : ℕ

def arriveTimeout : ℕ := 500
def gatherSlack : ℕ := 100
def fetchTimeout : ℕ := 5000
def maxUncleDist : ℕ := 7
def maxQueueDist : ℕ := 32
def hashLimit : ℤ := 256
def blockLimit : ℤ := 64

/-- `dist < -maxUncleDist || dist > maxQueueDist` for `dist` the signed distance from the head. -/
def outOfRange (number height : ℕ) : Bool :=
  let dist : ℤ := number - height
  dist < -(maxUncleDist : ℤ) || dist > maxQueueDist

/-- `counts[origin]--`; deleting an entry that reached zero leaves the zero value. -/
def decrement {P : Type} [DecidableEq P] (counts : P → ℤ) (origin : P) : P → ℤ :=
  Function.update counts origin (counts origin - 1)

/-- `queue.Push(op, -float32(number))`: behind the operations of no higher number. -/
def queuePush {P H T : Type} (op : Inject P H T) : List (Inject P H T) → List (Inject P H T)
  | [] => [op]
  | o :: q =>
    if op.block.header.number < o.block.header.number then op :: o :: q else o :: queuePush op q

namespace Fetcher
variable {P H T : Type} [DecidableEq P] [DecidableEq H]

def empty : Fetcher P H T := ⟨fun _ => 0, [], [], [], [], [], fun _ => 0, []⟩

/-- `forgetHash`: removes every announce record of `hash`, one decrement for each. -/
def forgetHash (f : Fetcher P H T) (hash : H) : Fetcher P H T :=
  let f := { f with
    announces := ((f.announced.getD hash []).map Announce.origin).foldl decrement f.announces
    announced := f.announced.delete hash }
  let f := match f.fetching.get? hash with
    | some a => { f with announces := decrement f.announces a.origin, fetching := f.fetching.delete hash }
    | none => f
  let f := { f with
    announces := ((f.fetched.getD hash []).map Announce.origin).foldl decrement f.announces
    fetched := f.fetched.delete hash }
  match f.completing.get? hash with
  | some a => { f with announces := decrement f.announces a.origin, completing := f.completing.delete hash }
  | none => f

/-- `forgetBlock`. -/
def forgetBlock (f : Fetcher P H T) (hash : H) : Fetcher P H T :=
  match f.queued.get? hash with
  | some op => { f with queues := decrement f.queues op.origin, queued := f.queued.delete hash }
  | none => f

/-- `enqueue`. -/
def enqueue (env : Env H T) (f : Fetcher P H T) (peer : P) (block : Block H T) : Fetcher P H T :=
  let hash := block.header.hash
  let count := f.queues peer + 1
  if count > blockLimit then f.forgetHash hash
  else if outOfRange block.header.number env.chainHeight then f.forgetHash hash
  else if f.queued.contains hash then f
  else
    let op : Inject P H T := ⟨peer, block⟩
    { f with queues := Function.update f.queues peer count, queued := f.queued.set hash op,
             queue := queuePush op f.queue }

/-- The `notify` case; `Notify` sends a record without a header. -/
def notify (env : Env H T) (f : Fetcher P H T) (notification : Announce P H) : Fetcher P H T :=
  let count := f.announces notification.origin + 1
  if count > hashLimit then f
  else if 0 < notification.number ∧ outOfRange notification.number env.chainHeight then f
  else if f.fetching.contains notification.hash ∨ f.completing.contains notification.hash then f
  else { f with
    announces := Function.update f.announces notification.origin count
    announced := f.announced.set notification.hash
      (f.announced.getD notification.hash [] ++ [notification]) }

/-- The `done` case. -/
def done (f : Fetcher P H T) (hash : H) : Fetcher P H T := (f.forgetHash hash).forgetBlock hash

/-- The `fetchTimer` case: each announced hash whose first announce has waited long enough is
moved to `fetching`, under the announce of a random peer. The loop deletes only the key it
visits, so it visits the bindings the map had when it began. An empty announce list (on which
`announces[0]` panics) is never stored. -/
def fetchTimer (env : Env H T) (pick : H → ℕ) (f : Fetcher P H T) : Fetcher P H T :=
  f.announced.foldl (fun f (hash, announces) =>
    match announces.head?, announces[pick hash % announces.length]? with
    | some first, some announce =>
      if arriveTimeout - gatherSlack < env.now - first.time then
        let f := f.forgetHash hash
        if env.getBlock hash then f else { f with fetching := f.fetching.set hash announce }
      else f
    | _, _ => f) f

/-- The `completeTimer` case: every fetched hash is moved to `completing`. -/
def completeTimer (env : Env H T) (pick : H → ℕ) (f : Fetcher P H T) : Fetcher P H T :=
  f.fetched.foldl (fun f (hash, announces) =>
    match announces[pick hash % announces.length]? with
    | some announce =>
      let f := f.forgetHash hash
      if env.getBlock hash then f else { f with completing := f.completing.set hash announce }
    | none => f) f

/-- The first loop of the `headerFilter` case, for one header: it keeps the state, the
records to complete (with the hash of their header) and the header-only blocks. -/
def filterHeader (env : Env H T) (peer : P) (time : ℕ)
    (acc : Fetcher P H T × List (H × Announce P H) × List (Block H T)) (header : Header H) :
    Fetcher P H T × List (H × Announce P H) × List (Block H T) :=
  let (f, incomplete, complete) := acc
  let hash := header.hash
  match f.fetching.get? hash with
  | some announce =>
    if announce.origin = peer ∧ !f.fetched.contains hash ∧ !f.completing.contains hash ∧
        !f.queued.contains hash then
      -- the peer is dropped for a number other than the promised one
      if header.number ≠ announce.number then (f.forgetHash hash, incomplete, complete)
      else if !env.getBlock hash then
        let announce := { announce with header := some header, time := time }
        let f := { f with fetching := f.fetching.set hash announce }
        if header.txHash = env.deriveSha [] then
          ({ f with completing := f.completing.set hash announce }, incomplete,
            complete ++ [⟨header, []⟩])
        else (f, incomplete ++ [(hash, announce)], complete)
      else (f.forgetHash hash, incomplete, complete)
    else (f, incomplete, complete)
  | none => (f, incomplete, complete)

/-- The `headerFilter` case. -/
def headerFilter (env : Env H T) (f : Fetcher P H T) (peer : P) (headers : List (Header H))
    (time : ℕ) : Fetcher P H T :=
  let (f, incomplete, complete) := headers.foldl (filterHeader env peer time) (f, [], [])
  -- Schedule the retrieved headers for body completion
  let f := incomplete.foldl (fun f (hash, announce) =>
    if f.completing.contains hash then f
    else { f with fetched := f.fetched.set hash (f.fetched.getD hash [] ++ [announce]) }) f
  -- Schedule the header-only blocks for import
  complete.foldl (fun f block =>
    match f.completing.get? block.header.hash with
    | some announce => f.enqueue env announce.origin block
    | none => f) f

/-- The inner loop of the `bodyFilter` case, for one body and one completing record. A record
there always has its header. -/
def matchBody (env : Env H T) (peer : P) (transactions : List T)
    (acc : Fetcher P H T × List (Block H T)) (entry : H × Announce P H) :
    Fetcher P H T × List (Block H T) :=
  let (f, blocks) := acc
  let (hash, announce) := entry
  match announce.header with
  | some header =>
    if !f.queued.contains hash ∧ env.deriveSha transactions = header.txHash ∧
        announce.origin = peer then
      if !env.getBlock hash then (f, blocks ++ [⟨header, transactions⟩])
      else (f.forgetHash hash, blocks)
    else (f, blocks)
  | none => (f, blocks)

/-- The `bodyFilter` case. -/
def bodyFilter (env : Env H T) (f : Fetcher P H T) (peer : P) (transactions : List (List T)) :
    Fetcher P H T :=
  let (f, blocks) := transactions.foldl
    (fun acc txs => acc.1.completing.foldl (matchBody env peer txs) acc) (f, [])
  -- Schedule the retrieved blocks for ordered import
  blocks.foldl (fun f block =>
    match f.completing.get? block.header.hash with
    | some announce => f.enqueue env announce.origin block
    | none => f) f

/-- The head of the loop: clean up expired fetches. -/
def expireFetches (env : Env H T) (f : Fetcher P H T) : Fetcher P H T :=
  f.fetching.foldl (fun f (hash, announce) =>
    if fetchTimeout < env.now - announce.time then f.forgetHash hash else f) f

/-- The head of the loop: import the queued blocks that could fit, from the lowest number up.
`insert` starts an import, whose end is a later `done` event. -/
def importQueue (env : Env H T) : List (Inject P H T) → Fetcher P H T → Fetcher P H T
  | [], f => { f with queue := [] }
  | op :: queue, f =>
    let hash := op.block.header.hash
    let number := op.block.header.number
    -- too high up the chain: continue later
    if env.chainHeight + 1 < number then { f with queue := queuePush op queue }
    else if number + maxUncleDist < env.chainHeight ∨ env.getBlock hash then
      importQueue env queue (f.forgetBlock hash)
    else importQueue env queue { f with queue := queue }

def loopHead (env : Env H T) (f : Fetcher P H T) : Fetcher P H T :=
  let f := f.expireFetches env
  importQueue env f.queue f

end Fetcher

inductive Event (P H T : Type) where
  | notify (notification : Announce P H)
  | inject (origin : P) (block : Block H T)
  | done (hash : H)
  | fetchTimer (pick : H → ℕ)
  | completeTimer (pick : H → ℕ)
  | headerFilter (peer : P) (headers : List (Header H)) (time : ℕ)
  | bodyFilter (peer : P) (transactions : List (List T))

namespace Fetcher
variable {P H T : Type} [DecidableEq P] [DecidableEq H]

/-- One turn of the loop: its head, then the event. -/
def step (f : Fetcher P H T) (env : Env H T) : Event P H T → Fetcher P H T
  | .notify notification => (f.loopHead env).notify env notification
  | .inject origin block => (f.loopHead env).enqueue env origin block
  | .done hash => (f.loopHead env).done hash
  | .fetchTimer pick => (f.loopHead env).fetchTimer env pick
  | .completeTimer pick => (f.loopHead env).completeTimer env pick
  | .headerFilter peer headers time => (f.loopHead env).headerFilter env peer headers time
  | .bodyFilter peer transactions => (f.loopHead env).bodyFilter env peer transactions

def run (f : Fetcher P H T) : List (Env H T × Event P H T) → Fetcher P H T
  | [] => f
  | (env, ev) :: rest => (f.step env ev).run rest

/-- The announce records of `p` in `announced`, `fetching`, `fetched` and `completing`. -/
def held (f : Fetcher P H T) (p : P) : ℕ :=
  ((f.announced.flatMap Prod.snd ++ f.fetching.map Prod.snd ++ f.fetched.flatMap Prod.snd ++
    f.completing.map Prod.snd).filter fun a => a.origin = p).length

end Fetcher

/-! ## An announcement carried through fetch and completion

Peer `1` announces block `7` of number `5` at height `5`. The fetch timer moves the announce to
`fetching` after `forgetHash` has uncounted it; the header, whose transaction hash is not that
of an empty body, is copied into `fetched` while it stays in `fetching`; the complete timer's
`forgetHash` then uncounts the one record twice. -/

def announceEnv (now : ℕ) : Env ℕ ℕ := ⟨fun _ => false, 5, fun _ => 0, now⟩

def announceCycle : List (Env ℕ ℕ × Event ℕ ℕ ℕ) :=
  [(announceEnv 0, .notify ⟨7, 5, none, 0, 1⟩), (announceEnv 401, .fetchTimer fun _ => 0),
   (announceEnv 450, .headerFilter 1 [⟨7, 5, 1⟩] 450), (announceEnv 550, .completeTimer fun _ => 0)]

theorem announceCycle_counter_negative :
    (Fetcher.empty.run announceCycle).announces 1 = -2 ∧ (Fetcher.empty.run announceCycle).held 1 = 1 := by
  decide

end Srcd.Server
