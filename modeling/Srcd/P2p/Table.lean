import Srcd.P2p.Netutil

/-! # The discovery table (`p2p/discover/table.go`)

The table keeps its nodes in buckets by the logarithmic distance of their ID hash from its own;
each bucket has live `entries` and `replacements` to use when an entry stops answering. A table
and each bucket count the non-LAN addresses they hold per `/24` subnet and refuse a node whose
subnet is at the limit.

Node IDs are values of a type `I`; `sha` is the Keccak hash of the ID, which the node carries.
The random index `replace` draws is an argument of the operation, so a statement about the
operations covers every draw. The lock, the node database and the revalidation timers are left
out, and so is the time a node was added.
-/

namespace Srcd.P2p
set_option autoImplicit false

structure Node (I : Type) where
  id : I
  /-- `sha`: the hash of the ID, 32 bytes -/
  sha : List UInt8
  ip : IP
  deriving DecidableEq, Repr, Inhabited

structure Bucket (I : Type) where
  entries : List (Node I)
  replacements : List (Node I)
  ips : DistinctNetSet

structure Table (I : Type) where
  self : Node I
  buckets : List (Bucket I)
  ips : DistinctNetSet
  /-- `initDone` has been closed -/
  initDone : Bool

def bucketSize : ℕ := 16
def maxReplacements : ℕ := 10
def hashBits : ℕ := 32 * 8
def nBuckets : ℕ := hashBits / 15
def bucketMinDistance : ℕ := hashBits - nBuckets
def bucketIPLimit : ℕ := 2
def bucketSubnet : ℕ := 24
def tableIPLimit : ℕ := 10
def tableSubnet : ℕ := 24

/-- `lzcount`: the leading zero bits of a byte. -/
def lzcount (x : UInt8) : ℕ := if x = 0 then 8 else 7 - Nat.log2 x.toNat

/-- The leading zero bits of `a xor b`, byte by byte. -/
def leadingZeros : List UInt8 → List UInt8 → ℕ
  | x :: xs, y :: ys => if x ^^^ y = 0 then 8 + leadingZeros xs ys else lzcount (x ^^^ y)
  | _, _ => 0

/-- `logdist`. -/
def logdist (a b : List UInt8) : ℕ := a.length * 8 - leadingZeros a b

/-- `pushNode`: `n` in front, keeping at most `max` nodes; the node pushed out, if any. -/
def pushNode {I : Type} (list : List (Node I)) (n : Node I) (max : ℕ) :
    List (Node I) × Option (Node I) :=
  if list.length < max then (n :: list, none) else (n :: list.dropLast, list.getLast?)

section
variable {I : Type} [DecidableEq I]

/-- `deleteNode`: removes the first node with the ID of `n`. -/
def deleteNode (list : List (Node I)) (n : Node I) : List (Node I) :=
  match list.findIdx? (fun e => e.id = n.id) with
  | some i => list.eraseIdx i
  | none => list

/-- `bucket.bump`: moves the entry with the ID of `n` to the front, as `n`. -/
def Bucket.bump (b : Bucket I) (n : Node I) : Bucket I × Bool :=
  match b.entries.findIdx? (fun e => e.id = n.id) with
  | some i => ({ b with entries := n :: (b.entries.take i ++ b.entries.drop (i + 1)) }, true)
  | none => (b, false)

namespace Table

def emptyBucket : Bucket I := ⟨[], [], DistinctNetSet.empty bucketSubnet bucketIPLimit⟩

/-- The table of `newTable`, before any node is added. -/
def empty (self : Node I) : Table I :=
  ⟨self, List.replicate nBuckets emptyBucket, DistinctNetSet.empty tableSubnet tableIPLimit, false⟩

/-- `Table.bucket`: the index of the bucket for an ID hash. -/
def bucketIndex (tab : Table I) (sha : List UInt8) : ℕ :=
  let d := logdist tab.self.sha sha
  if d ≤ bucketMinDistance then 0 else d - bucketMinDistance - 1

def getBucket (tab : Table I) (bi : ℕ) : Bucket I := tab.buckets.getD bi emptyBucket

def setBucket (tab : Table I) (bi : ℕ) (b : Bucket I) : Table I :=
  { tab with buckets := tab.buckets.set bi b }

/-- `addIP`: counts a non-LAN address in the table and in the bucket, or neither. -/
def addIP (tab : Table I) (bi : ℕ) (ip : IP) : Table I × Bool :=
  if isLAN ip then (tab, true)
  else
    let (tips, ok) := tab.ips.add ip
    if !ok then (tab, false)
    else
      let b := tab.getBucket bi
      let (bips, ok) := b.ips.add ip
      if !ok then ({ tab with ips := tips.remove ip }, false)
      else ({ tab.setBucket bi { b with ips := bips } with ips := tips }, true)

/-- `removeIP`. -/
def removeIP (tab : Table I) (bi : ℕ) (ip : IP) : Table I :=
  if isLAN ip then tab
  else
    let b := tab.getBucket bi
    { tab.setBucket bi { b with ips := b.ips.remove ip } with ips := tab.ips.remove ip }

/-- `addReplacement`. -/
def addReplacement (tab : Table I) (bi : ℕ) (n : Node I) : Table I :=
  if (tab.getBucket bi).replacements.any (fun e => e.id = n.id) then tab
  else
    let (tab, ok) := tab.addIP bi n.ip
    if !ok then tab
    else
      let b := tab.getBucket bi
      let (replacements, removed) := pushNode b.replacements n maxReplacements
      let tab := tab.setBucket bi { b with replacements := replacements }
      match removed with
      | some r => tab.removeIP bi r.ip
      | none => tab

/-- `bumpOrAdd`: whether `n` is in the bucket afterwards. -/
def bumpOrAdd (tab : Table I) (bi : ℕ) (n : Node I) : Table I × Bool :=
  let (b, found) := (tab.getBucket bi).bump n
  if found then (tab.setBucket bi b, true)
  else if bucketSize ≤ (tab.getBucket bi).entries.length then (tab, false)
  else
    let (tab, ok) := tab.addIP bi n.ip
    if !ok then (tab, false)
    else
      let b := tab.getBucket bi
      (tab.setBucket bi { b with
        entries := (pushNode b.entries n bucketSize).1
        replacements := deleteNode b.replacements n }, true)

/-- `deleteInBucket`. -/
def deleteInBucket (tab : Table I) (bi : ℕ) (n : Node I) : Table I :=
  let b := tab.getBucket bi
  (tab.setBucket bi { b with entries := deleteNode b.entries n }).removeIP bi n.ip

/-- `add`. -/
def add (tab : Table I) (n : Node I) : Table I :=
  let bi := tab.bucketIndex n.sha
  let (tab, ok) := tab.bumpOrAdd bi n
  -- Node is not in table. Add it to the replacement list.
  if !ok then tab.addReplacement bi n else tab

/-- `addThroughPing`. -/
def addThroughPing (tab : Table I) (n : Node I) : Table I :=
  if !tab.initDone then tab else tab.add n

/-- `stuff`. -/
def stuff (tab : Table I) (nodes : List (Node I)) : Table I :=
  nodes.foldl (fun tab n =>
    if n.id = tab.self.id then tab
    else
      let bi := tab.bucketIndex n.sha
      if (tab.getBucket bi).entries.length < bucketSize then (tab.bumpOrAdd bi n).1 else tab) tab

/-- `delete`. -/
def delete (tab : Table I) (n : Node I) : Table I :=
  tab.deleteInBucket (tab.bucketIndex n.sha) n

/-- `replace`, with `draw` for `tab.rand.Intn(len(b.replacements))`. -/
def replace [Inhabited I] (tab : Table I) (bi : ℕ) (last : Node I) (draw : ℕ) :
    Table I × Option (Node I) :=
  let b := tab.getBucket bi
  if b.entries = [] ∨ (b.entries.getLast?.map Node.id) ≠ some last.id then (tab, none)
  else if b.replacements = [] then (tab.deleteInBucket bi last, none)
  else
    let r := b.replacements.getD (draw % b.replacements.length) default
    let tab := tab.setBucket bi { b with
      replacements := deleteNode b.replacements r
      entries := b.entries.set (b.entries.length - 1) r }
    (tab.removeIP bi last.ip, some r)

end Table

/-- The operations on the table, the outcome of a revalidation included. -/
inductive TableOp (I : Type) where
  | add (n : Node I)
  | addThroughPing (n : Node I)
  | stuff (nodes : List (Node I))
  | delete (n : Node I)
  /-- the last entry of bucket `bi` answered the ping: `b.bump(last)` -/
  | revalidated (bi : ℕ)
  /-- it did not: `tab.replace(b, last)`, with the random draw -/
  | replaced (bi : ℕ) (draw : ℕ)

/-- One operation. -/
def TableOp.apply [Inhabited I] (tab : Table I) : TableOp I → Table I
  | .add n => tab.add n
  | .addThroughPing n => tab.addThroughPing n
  | .stuff nodes => tab.stuff nodes
  | .delete n => tab.delete n
  | .revalidated bi =>
    match (tab.getBucket bi).entries.getLast? with
    | some last => tab.setBucket bi ((tab.getBucket bi).bump last).1
    | none => tab
  | .replaced bi draw =>
    match (tab.getBucket bi).entries.getLast? with
    | some last => (tab.replace bi last draw).1
    | none => tab

end

/-! ## The subnet counters -/

section
variable {I : Type}

/-- The nodes a bucket holds. -/
def Bucket.held (b : Bucket I) : List (Node I) := b.entries ++ b.replacements

/-- The nodes the table holds. -/
def Table.held (tab : Table I) : List (Node I) := tab.buckets.flatMap Bucket.held

/-- The non-LAN nodes of `nodes` whose address has the key `k` in `s`. -/
def countSubnet (s : DistinctNetSet) (k : List UInt8) (nodes : List (Node I)) : ℕ :=
  (nodes.filter fun n => !isLAN n.ip && s.key n.ip == k).length

namespace Table

end Table

variable [DecidableEq I]

end

/-! ## A node that was never added -/

/-- The table's own node, with the zero hash. -/
def sampleSelf : Node ℕ := ⟨0, List.replicate 32 0, [127, 0, 0, 1]⟩

/-- Two nodes of one `/24` in the bucket of distance at most 239. -/
def sampleA : Node ℕ := ⟨1, List.replicate 31 0 ++ [1], [1, 2, 3, 4]⟩

def sampleB : Node ℕ := ⟨2, List.replicate 31 0 ++ [2], [1, 2, 3, 5]⟩

/-- The table once `sampleA` is added and `sampleB`, never added, is deleted. -/
def deleteUnknownTable : Table ℕ := ((Table.empty sampleSelf).add sampleA).delete sampleB

theorem delete_unknown_node_uncounts_subnet :
    deleteUnknownTable.ips.members (deleteUnknownTable.ips.key sampleA.ip) = 0 ∧
      countSubnet deleteUnknownTable.ips (deleteUnknownTable.ips.key sampleA.ip)
        deleteUnknownTable.held = 1 := by
  decide

end Srcd.P2p
