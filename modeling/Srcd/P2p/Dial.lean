import Mathlib
import Srcd.Library.Heap
import Srcd.Library.GoMap
import Srcd.P2p.Table

/-! # The dial scheduler (`p2p/dial.go`, and the task loop of `Server.run`)

`dialstate` decides which nodes to dial and when to look for more. `newTasks` makes dial tasks
for the static nodes, for a bootnode when there have long been no peers, for random nodes of the
table and for the results of the last lookup; a lookup task when more candidates are needed; and
a wait task when nothing else would wake the loop. `taskDone` writes a finished dial into the
dial history, a heap by expiry time, and keeps a finished lookup's results. `Server.run` runs at
most `maxActiveDialTasks` tasks at a time, queues the rest, and asks for new tasks at the head of
each turn of its loop.

Node IDs are values of a type `I`, and times are nanoseconds. The discovery table is an input:
its own ID (`none` without a table) and the nodes `ReadRandomNodes` writes. A peer is its
connection flags. The `Do` of a task runs outside the loop and is left out; a finished lookup
brings its results with it.
-/

namespace Srcd.P2p
open Srcd.Library
set_option autoImplicit false

/-- `connFlag`, a bit set. -/
abbrev ConnFlag := ℕ

def dynDialedConn : ConnFlag := 1
def staticDialedConn : ConnFlag := 2

/-- `maxActiveDialTasks` of `server.go`. -/
def maxActiveDialTasks : ℕ := 16

def dialHistoryExpiration : ℤ := 30 * 1000000000
def fallbackInterval : ℤ := 20 * 1000000000

/-- An entry of the dial history. -/
structure PastDial (I : Type) where
  id : I
  exp : ℤ
  deriving DecidableEq, Repr

/-- `dialHistory.Less`: `exp.Before`. -/
def PastDial.less {I : Type} (a b : PastDial I) : Bool := decide (a.exp < b.exp)

abbrev DialHistory (I : Type) := List (PastDial I)

structure DialTask (I : Type) where
  flags : ConnFlag
  dest : Node I
  deriving DecidableEq, Repr

inductive Task (I : Type) where
  | dial (t : DialTask I)
  | discover (results : List (Node I))
  | waitExpire (duration : ℤ)
  deriving DecidableEq, Repr

structure DialState (I : Type) where
  maxDynDials : ℤ
  /-- `ntab.Self().ID`, `none` when there is no discovery table -/
  self : Option I
  netrestrict : Option (List (IP × ℕ))
  lookupRunning : Bool
  dialing : GoMap I ConnFlag
  lookupBuf : List (Node I)
  static : GoMap I (DialTask I)
  hist : DialHistory I
  /-- `none` is the zero time -/
  start : Option ℤ
  bootnodes : List (Node I)

/-- The errors of `checkDial`. -/
inductive DialErr where
  | self
  | alreadyDialing
  | alreadyConnected
  | recentlyDialed
  | notWhitelisted
  deriving DecidableEq, Repr

namespace DialHistory
variable {I : Type} [DecidableEq I]

/-- `min`: the entry that expires first. -/
def min (h : DialHistory I) : Option (PastDial I) := h.head?

def add (h : DialHistory I) (id : I) (exp : ℤ) : DialHistory I :=
  Heap.push PastDial.less h ⟨id, exp⟩

/-- `remove`: the first entry for `id` goes through `heap.Remove`; whether there was one. -/
def remove (h : DialHistory I) (id : I) : DialHistory I × Bool :=
  match h.findIdx? fun v => v.id = id with
  | some i => ((Heap.remove PastDial.less h i).elim h Prod.snd, true)
  | none => (h, false)

def contains (h : DialHistory I) (id : I) : Bool := h.any fun v => v.id = id

/-- `expire`: pop while the first entry expires before `now`. -/
def expire (h : DialHistory I) (now : ℤ) : DialHistory I :=
  match h.min with
  | some m =>
    if m.exp < now then
      match _hp : Heap.pop PastDial.less h with
      | some (_, h') => expire h' now
      | none => h
    else h
  | none => h
termination_by h.length
decreasing_by
  have := Heap.length_of_pop _hp
  omega

end DialHistory

namespace DialState
variable {I : Type} [DecidableEq I]

def checkDial (s : DialState I) (n : Node I) (peers : GoMap I ConnFlag) : Option DialErr :=
  if s.dialing.contains n.id then some .alreadyDialing
  else if peers.contains n.id then some .alreadyConnected
  else if s.self = some n.id then some .self
  else if s.netrestrict.any fun l => !netlistContains l n.ip then some .notWhitelisted
  else if s.hist.contains n.id then some .recentlyDialed
  else none

/-- What `newTasks` carries through its loops: the state, the tasks so far and
`needDynDials`. -/
structure Pass (I : Type) where
  s : DialState I
  tasks : List (Task I)
  need : ℤ

/-- `if addDial(dynDialedConn, n) { needDynDials-- }`, as every dynamic dial is made. -/
def addDynDial (peers : GoMap I ConnFlag) (p : Pass I) (n : Node I) : Pass I :=
  match p.s.checkDial n peers with
  | some _ => p
  | none =>
    ⟨{ p.s with dialing := p.s.dialing.set n.id dynDialedConn },
      p.tasks ++ [.dial ⟨dynDialedConn, n⟩], p.need - 1⟩

/-- One turn of the loop over `s.static`: a node outside the whitelist or the node itself is
dropped from the static nodes; a node `checkDial` lets through is dialed with its task. -/
def staticDial (peers : GoMap I ConnFlag) (p : Pass I) (e : I × DialTask I) : Pass I :=
  match p.s.checkDial e.2.dest peers with
  | some .notWhitelisted | some .self =>
    { p with s := { p.s with static := p.s.static.delete e.2.dest.id } }
  | some _ => p
  | none =>
    { p with s := { p.s with dialing := p.s.dialing.set e.1 e.2.flags }, tasks := p.tasks ++ [.dial e.2] }

/-- With no peers for `fallbackInterval`, the first bootnode goes to the back and is dialed. -/
def bootnodeDial (peers : GoMap I ConnFlag) (now : ℤ) (p : Pass I) : Pass I :=
  match p.s.bootnodes with
  | bootnode :: rest =>
    if peers.length = 0 ∧ 0 < p.need ∧ fallbackInterval < now - p.s.start.getD now then
      addDynDial peers { p with s := { p.s with bootnodes := rest ++ [bootnode] } } bootnode
    else p
  | [] => p

/-- Random nodes of the table for half of the dynamic dials needed. -/
def randomDials (peers : GoMap I ConnFlag) (random : List (Node I)) (p : Pass I) : Pass I :=
  let randomCandidates := p.need.tdiv 2
  if 0 < randomCandidates then (random.take randomCandidates.toNat).foldl (addDynDial peers) p
  else p

/-- The loop over the lookup results while dials are needed, and how many it tried. -/
def lookupDials (peers : GoMap I ConnFlag) : Pass I → List (Node I) → Pass I × ℕ
  | p, [] => (p, 0)
  | p, n :: rest =>
    if 0 < p.need then
      let r := lookupDials peers (addDynDial peers p n) rest
      (r.1, r.2 + 1)
    else (p, 0)

def isDyn (flag : ConnFlag) : Bool := flag &&& dynDialedConn != 0

/-- `needDynDials` as `newTasks` first computes it. -/
def needDynDials (s : DialState I) (peers : GoMap I ConnFlag) : ℤ :=
  s.maxDynDials - (peers.filter fun p => isDyn p.2).length - (s.dialing.filter fun d => isDyn d.2).length

/-- A lookup when the buffer holds fewer nodes than are needed and none runs. -/
def discoverTask (p : Pass I) : Pass I :=
  if (p.s.lookupBuf.length : ℤ) < p.need ∧ !p.s.lookupRunning then
    { p with s := { p.s with lookupRunning := true }, tasks := p.tasks ++ [.discover []] }
  else p

/-- A wait for the first history entry to expire, when no task runs or comes. -/
def waitExpireTask (nRunning : ℕ) (now : ℤ) (p : Pass I) : Pass I :=
  if nRunning = 0 ∧ p.tasks = [] then
    match p.s.hist.min with
    | some m => { p with tasks := p.tasks ++ [.waitExpire (m.exp - now)] }
    | none => p
  else p

def newTasks (s : DialState I) (nRunning : ℕ) (peers : GoMap I ConnFlag)
    (random : List (Node I)) (now : ℤ) : DialState I × List (Task I) :=
  let s := if s.start.isNone then { s with start := some now } else s
  let need := s.needDynDials peers
  let s := { s with hist := s.hist.expire now }
  let p := s.static.foldl (staticDial peers) ⟨s, [], need⟩
  let p := randomDials peers random (bootnodeDial peers now p)
  let r := lookupDials peers p p.s.lookupBuf
  let p := { r.1 with s := { r.1.s with lookupBuf := r.1.s.lookupBuf.drop r.2 } }
  let p := waitExpireTask nRunning now (discoverTask p)
  (p.s, p.tasks)

def taskDone (s : DialState I) (t : Task I) (now : ℤ) : DialState I :=
  match t with
  | .dial t =>
    { s with hist := s.hist.add t.dest.id (now + dialHistoryExpiration),
             dialing := s.dialing.delete t.dest.id }
  | .discover results => { s with lookupRunning := false, lookupBuf := s.lookupBuf ++ results }
  | .waitExpire _ => s

def addStatic (s : DialState I) (n : Node I) : DialState I :=
  { s with static := s.static.set n.id ⟨staticDialedConn, n⟩ }

def removeStatic (s : DialState I) (n : Node I) : DialState I :=
  { s with static := s.static.delete n.id, hist := (s.hist.remove n.id).1 }

end DialState

def newDialState {I : Type} [DecidableEq I] (static bootnodes : List (Node I)) (self : Option I)
    (maxdyn : ℤ) (netrestrict : Option (List (IP × ℕ))) : DialState I :=
  static.foldl DialState.addStatic ⟨maxdyn, self, netrestrict, false, [], [], [], [], none, bootnodes⟩

/-! ## The task loop of `Server.run` -/

/-- The dial side of the state of `Server.run`. -/
structure DialLoop (I : Type) where
  dialstate : DialState I
  peers : GoMap I ConnFlag
  runningTasks : List (Task I)
  queuedTasks : List (Task I)

/-- What the loop waits for, as far as the dialer sees it. -/
inductive DialEvent (I : Type) where
  | addStatic (n : Node I)
  | removeStatic (n : Node I)
  /-- the running task at `k` is done at `now`; a lookup brings the nodes it found -/
  | taskDone (k : ℕ) (results : List (Node I)) (now : ℤ)
  | addPeer (id : I) (flags : ConnFlag)
  | delPeer (id : I)

/-- `startTasks`: start tasks while fewer than `maxActiveDialTasks` run; the running tasks and
the rest. -/
def startTasks {I : Type} (runningTasks : List (Task I)) : List (Task I) → List (Task I) × List (Task I)
  | [] => (runningTasks, [])
  | t :: ts =>
    if runningTasks.length < maxActiveDialTasks then startTasks (runningTasks ++ [t]) ts
    else (runningTasks, t :: ts)

/-- A task as `taskDone` sees it: a lookup holds the nodes it found. -/
def Task.finish {I : Type} : Task I → List (Node I) → Task I
  | .discover _, results => .discover results
  | t, _ => t

namespace DialLoop
variable {I : Type} [DecidableEq I]

/-- `scheduleTasks`: the queue first, then new tasks if there is room. -/
def scheduleTasks (l : DialLoop I) (random : List (Node I)) (now : ℤ) : DialLoop I :=
  let r := startTasks l.runningTasks l.queuedTasks
  if r.1.length < maxActiveDialTasks then
    let nt := l.dialstate.newTasks (r.1.length + r.2.length) l.peers random now
    let r' := startTasks r.1 nt.2
    ⟨nt.1, l.peers, r'.1, r.2 ++ r'.2⟩
  else ⟨l.dialstate, l.peers, r.1, r.2⟩

/-- The dialer's part of the `select` of `Server.run`. The task that is done is the one at `k`;
`delTask` finds it by its pointer, which is in the list once. -/
def handle (l : DialLoop I) : DialEvent I → DialLoop I
  | .addStatic n => { l with dialstate := l.dialstate.addStatic n }
  | .removeStatic n => { l with dialstate := l.dialstate.removeStatic n }
  | .taskDone k results now =>
    match l.runningTasks[k]? with
    | some t =>
      { l with dialstate := l.dialstate.taskDone (t.finish results) now,
               runningTasks := l.runningTasks.eraseIdx k }
    | none => l
  | .addPeer id flags => { l with peers := l.peers.set id flags }
  | .delPeer id => { l with peers := l.peers.delete id }

/-- One turn of the loop: `scheduleTasks` at its head at `now`, with the nodes the table writes,
then the event. -/
def step (l : DialLoop I) (random : List (Node I)) (now : ℤ) (e : DialEvent I) : DialLoop I :=
  (l.scheduleTasks random now).handle e

def run (l : DialLoop I) : List (List (Node I) × ℤ × DialEvent I) → DialLoop I
  | [] => l
  | (random, now, e) :: rest => (l.step random now e).run rest

/-- The loop as `Server.Start` starts it. -/
def init (static bootnodes : List (Node I)) (self : Option I) (maxdyn : ℤ)
    (netrestrict : Option (List (IP × ℕ))) : DialLoop I :=
  ⟨newDialState static bootnodes self maxdyn netrestrict, [], [], []⟩

end DialLoop

end Srcd.P2p
