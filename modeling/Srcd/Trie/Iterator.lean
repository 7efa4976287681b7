import Srcd.Trie.Hasher
import Srcd.Trie.Map

/-! # Iterating over a trie (`trie/iterator.go`)

`nodeIterator` walks a trie in pre-order with an explicit stack of the nodes it is inside. Each
state holds the slot of the child it went into last (`index`, `-1` before the first) and the
length of the path to it (`pathlen`); `path` is the hex path to the node on top. `peek` finds the
next node: the next child of the topmost node that has one, popping the nodes that have none.
`seek` moves forward, going down only into nodes on the way to the start key, until the next
node's path is not below the key. `Iterator` steps the node iterator to the nodes whose path
ends in the terminator and reports their key and value.

The stack is a list with its top first. The `hash` and `parent` fields of a state feed only
`Hash` and `Parent`, which the key-value iterator does not read, and are left out. The loops of
`seek` and of `Iterator.Next`, and the loop of a caller over `Next`, are bounded by `fuel`; a Go
panic, or a loop out of fuel, halts the run (`Halt`).
-/

namespace Srcd.Trie
set_option autoImplicit false
set_option linter.dupNamespace false

/-- `nodeIteratorState`, without its hashes. -/
structure IterState where
  node : Node
  index : Int
  pathlen : ℕ
  deriving DecidableEq

/-- The errors an iterator keeps in `err`. -/
inductive IterErr where
  /-- `errIteratorEnd` -/
  | iteratorEnd
  /-- `seekError`: the initial seek failed -/
  | seekError (key : List UInt8) (err : IterErr)
  /-- a node could not be loaded -/
  | trie (err : TrieErr)
  deriving DecidableEq, Repr

inductive Halt where
  /-- a Go runtime panic -/
  | panic
  /-- a loop ran out of the fuel that bounds it (no Go counterpart) -/
  | fuelExhausted
  deriving DecidableEq, Repr

structure NodeIterator where
  /-- `none`: the nil trie of `new(nodeIterator)` -/
  trie : Option Trie
  stack : List IterState
  path : List Nibble
  err : Option IterErr

structure Iterator where
  nodeIt : NodeIterator
  key : List UInt8
  value : List UInt8
  err : Option IterErr

section
variable (nodeOf : List UInt8 → Option Node)

/-- `resolve`: load the node of a hash node. -/
def IterState.resolve (st : IterState) (path : List Nibble) : Except TrieErr IterState :=
  match st.node with
  | .hashNode h => (resolveHash nodeOf h path).map fun n => { st with node := n }
  | _ => .ok st

/-- The loop of `nextChild` over a full node: the first slot from `start` on that holds a
child. -/
def firstChild (cs : Fin 17 → Node) (start : Int) : Option (Fin 17) :=
  (List.finRange 17).find? fun i => decide (start ≤ (i.val : Int)) && !(cs i).isNil

/-- `nextChild`: the state and path of the next child of `parent`, and `parent` with its index
set to just before that child. -/
def nextChild (parent : IterState) (path : List Nibble) :
    Option (IterState × List Nibble × IterState) :=
  match parent.node with
  | .fullNode cs =>
    (firstChild cs (parent.index + 1)).map fun i =>
      (⟨cs i, -1, path.length⟩, path ++ [i], { parent with index := (i.val : Int) - 1 })
  | .shortNode k v =>
    if parent.index < 0 then some (⟨v, -1, path.length⟩, path ++ k, parent) else none
  | _ => none

/-- The loop of `peek` over the stack: the next child of the topmost node that has one. -/
def peekLoop : List IterState → List Nibble →
    List IterState × List Nibble × Except IterErr (IterState × List Nibble)
  | [], path => ([], path, .error .iteratorEnd)
  | parent :: rest, path =>
    match nextChild parent path with
    | some (state, cpath, parent) =>
      match state.resolve nodeOf cpath with
      | .ok state => (parent :: rest, path, .ok (state, cpath))
      | .error err => (parent :: rest, path, .error (.trie err))
    | none =>
      -- No more child nodes, move back up.
      peekLoop rest (path.take parent.pathlen)

/-- `peek`: the iterator as the search left it, and the next state, whether it has a parent
whose index `push` moves on (`parentIndex != nil`), and its path. -/
def peek (it : NodeIterator) (descend : Bool) :
    Except Halt (NodeIterator × Except IterErr (IterState × Bool × List Nibble)) :=
  match it.stack with
  | [] =>
    -- Initialize the iterator if we've just started; `it.trie.Hash()` panics on a nil trie.
    match it.trie with
    | none => .error .panic
    | some t => .ok (it, match (IterState.mk t.root (-1) 0).resolve nodeOf [] with
        | .ok state => .ok (state, false, [])
        | .error err => .error (.trie err))
  | parent :: rest =>
    -- If we're skipping children, pop the current node first.
    let (stack, path) :=
      if descend then (parent :: rest, it.path) else (rest, it.path.take parent.pathlen)
    let (stack, path, r) := peekLoop nodeOf stack path
    .ok ({ it with stack, path }, r.map fun (state, cpath) => (state, true, cpath))

/-- `*parentIndex++`: the parent is the top of the stack. -/
def bumpTop : List IterState → List IterState
  | parent :: rest => { parent with index := parent.index + 1 } :: rest
  | [] => []

/-- `push`. -/
def NodeIterator.push (it : NodeIterator) (state : IterState) (parentIndex : Bool)
    (path : List Nibble) : NodeIterator :=
  { it with path, stack := state :: if parentIndex then bumpTop it.stack else it.stack }

/-- The loop of `seek` towards the hex path `key`; the errors it returns name `start`. -/
def seekLoop (start : List UInt8) (key : List Nibble) :
    ℕ → NodeIterator → Except Halt (NodeIterator × Option IterErr)
  | 0, _ => .error .fuelExhausted
  | fuel + 1, it => do
    let (it, r) ← peek nodeOf it (decide (it.path <+: key))
    match r with
    | .error err =>
      pure (it, some (if err = .iteratorEnd then .iteratorEnd else .seekError start err))
    | .ok (state, parentIndex, path) =>
      if ¬ path < key then pure (it, none)
      else seekLoop start key fuel (it.push state parentIndex path)

/-- `seek`: the path looked for is the hex key without its terminator. -/
def NodeIterator.seek (fuel : ℕ) (it : NodeIterator) (start : List UInt8) :
    Except Halt (NodeIterator × Option IterErr) :=
  seekLoop nodeOf start (keybytesToHex start).dropLast fuel it

/-- The end of `Next`: step forward and report any error. -/
def NodeIterator.advance (it : NodeIterator) (descend : Bool) :
    Except Halt (Bool × NodeIterator) := do
  let (it, r) ← peek nodeOf it descend
  match r with
  | .error err => pure (false, { it with err := some err })
  | .ok (state, parentIndex, path) =>
    pure (true, NodeIterator.push { it with err := none } state parentIndex path)

/-- `Next`; `fuel` bounds the seek it repeats after a failed one. -/
def NodeIterator.next (fuel : ℕ) (it : NodeIterator) (descend : Bool) :
    Except Halt (Bool × NodeIterator) :=
  match it.err with
  | some .iteratorEnd => pure (false, it)
  | some (.seekError key _) => do
    let (it, err) ← it.seek nodeOf fuel key
    match err with
    | some err => pure (false, { it with err := some err })
    | none => NodeIterator.advance nodeOf { it with err := none } descend
  | _ => it.advance nodeOf descend

def NodeIterator.leaf (it : NodeIterator) : Bool := hasTerm it.path

/-- `LeafKey`: panics unless the top is a value. -/
def NodeIterator.leafKey (it : NodeIterator) : Except Halt (List UInt8) :=
  match it.stack with
  | ⟨.valueNode _, _, _⟩ :: _ =>
    match hexToKeybytes it.path with
    | some key => .ok key
    | none => .error .panic
  | _ => .error .panic

/-- `LeafBlob`: panics unless the top is a value. -/
def NodeIterator.leafBlob (it : NodeIterator) : Except Halt (List UInt8) :=
  match it.stack with
  | ⟨.valueNode v, _, _⟩ :: _ => .ok v
  | _ => .error .panic

/-- `Error`: the end of the iteration is no error, and a failed seek reports its cause. -/
def NodeIterator.error (it : NodeIterator) : Option IterErr :=
  match it.err with
  | some .iteratorEnd => none
  | some (.seekError _ err) => some err
  | err => err

/-- `NewIterator`. -/
def newIterator (it : NodeIterator) : Iterator := ⟨it, [], [], none⟩

/-- `Iterator.Next`; `fuel` bounds the nodes it passes on the way to the next leaf. -/
def Iterator.next : ℕ → Iterator → Except Halt (Bool × Iterator)
  | 0, _ => .error .fuelExhausted
  | fuel + 1, it => do
    let (more, nodeIt) ← it.nodeIt.next nodeOf fuel true
    if more then
      if nodeIt.leaf then
        let key ← nodeIt.leafKey
        let value ← nodeIt.leafBlob
        pure (true, { it with nodeIt, key, value })
      else Iterator.next fuel { it with nodeIt }
    else pure (false, ⟨nodeIt, [], [], nodeIt.error⟩)

/-- The pairs a loop `for it.Next() { … }` sees, and `it.Err` after it; `fuel` bounds the rounds
and each `Next`. -/
def Iterator.collect : ℕ → Iterator →
    Except Halt (List (List UInt8 × List UInt8) × Option IterErr)
  | 0, _ => .error .fuelExhausted
  | fuel + 1, it => do
    let (more, it) ← it.next nodeOf (fuel + 1)
    if more then
      let (rest, err) ← Iterator.collect fuel it
      pure ((it.key, it.value) :: rest, err)
    else pure ([], it.err)

variable (keccak : List UInt8 → List UInt8)

/-- `emptyState`, the hash of the empty string. -/
def emptyState : List UInt8 := bytesToHash (keccak [])

/-- `newNodeIterator`, behind `NodeIterator(start)`. -/
def newNodeIterator (fuel : ℕ) (t : Trie) (start : List UInt8) : Except Halt NodeIterator :=
  if t.hash keccak = emptyState keccak then pure ⟨none, [], [], none⟩
  else do
    let (it, err) ← NodeIterator.seek nodeOf fuel ⟨some t, [], [], none⟩ start
    pure { it with err }

/-- What a caller of `NewIterator(t.NodeIterator(start))` sees: the pairs, then `Err`. -/
def Trie.iterate (fuel : ℕ) (t : Trie) (start : List UInt8) :
    Except Halt (List (List UInt8 × List UInt8) × Option IterErr) := do
  let it ← newNodeIterator nodeOf keccak fuel t start
  (newIterator it).collect nodeOf fuel

end

/-- Of two keys where one extends the other, the longer comes first: the value slot of a full
node comes after its branches. From the start key `61 62` the shorter key `61` comes as well:
its hex path `6 1 16` is past `6 1 6 2`. -/
theorem iterate_prefixKeys :
    ∃ t, runOps (fun _ => none) 0 ⟨.nil⟩ [.update [0x61] [1], .update [0x61, 0x62] [2]] = .ok t ∧
      t.iterate (fun _ => none) sampleKeccak 6 [] = .ok ([([0x61, 0x62], [2]), ([0x61], [1])], none) ∧
      t.iterate (fun _ => none) sampleKeccak 6 [0x61, 0x62] =
        .ok ([([0x61, 0x62], [2]), ([0x61], [1])], none) :=
  ⟨_, rfl, rfl, rfl⟩

end Srcd.Trie
