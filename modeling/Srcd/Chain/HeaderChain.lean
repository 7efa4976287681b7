import Mathlib

/-! # The header chain (`core/blockchain/headerchain.go`, `core/rawdb`)

The chain database keeps headers and their total difficulties by number and hash, and the
canonical hash of each number. `WriteHeader` stores a header whose parent is known with its
total difficulty, and when that difficulty beats the head's (a tie is broken by a coin) makes it
the head: it deletes the canonical entries above it, rewrites the stale entries below it back to
where they meet its own ancestry, and enters it.

Hashes are values of a type `H`; the zero hash `common.Hash{}` is `default`, which
`ReadCanonicalHash` returns for a missing entry. Block numbers are natural numbers below
`2 ^ 64`, so `Uint64` is exact, and `number - 1` on `uint64` wraps only below zero (`pred64`).
The header, number and difficulty caches hold what the database holds under a hash; every lookup
here is by the number a header was written under, where the two agree, and they are left out.
The two loops are bounded by `fuel`; `HeaderChainSpec` shows how much is enough.
-/

namespace Srcd.Chain
set_option autoImplicit false

structure Header (H : Type) where
  /-- `Header.Hash()` -/
  hash : H
  parentHash : H
  number : ℕ
  difficulty : ℕ
  deriving DecidableEq, Repr

/-- The tables of the chain database that the header chain reads and writes. -/
structure ChainDb (H : Type) where
  /-- `headerKey(number, hash)` -/
  headers : ℕ → H → Option (Header H)
  /-- `headerTDKey(number, hash)` -/
  td : ℕ → H → Option ℕ
  /-- `headerHashKey(number)` -/
  canonical : ℕ → Option H
  /-- `headHeaderKey` -/
  headHeaderHash : H

inductive Halt where
  /-- a Go runtime panic -/
  | panic
  /-- a loop ran out of the fuel that bounds it (no Go counterpart) -/
  | fuelExhausted
  deriving DecidableEq, Repr

inductive WriteStatus where
  | nonStatTy
  | canonStatTy
  | sideStatTy
  deriving DecidableEq, Repr

inductive ChainErr where
  /-- `consensus.ErrUnknownAncestor` -/
  | unknownAncestor
  deriving DecidableEq, Repr

/-- `n - 1` on `uint64`. -/
def pred64 (n : ℕ) : ℕ := if n = 0 then 2 ^ 64 - 1 else n - 1

section
variable {H : Type} [DecidableEq H] [Inhabited H]

namespace ChainDb

def readCanonicalHash (db : ChainDb H) (number : ℕ) : H := (db.canonical number).getD default

def writeCanonicalHash (db : ChainDb H) (hash : H) (number : ℕ) : ChainDb H :=
  { db with canonical := Function.update db.canonical number (some hash) }

def deleteCanonicalHash (db : ChainDb H) (number : ℕ) : ChainDb H :=
  { db with canonical := Function.update db.canonical number none }

def readTd (db : ChainDb H) (hash : H) (number : ℕ) : Option ℕ := db.td number hash

def writeTd (db : ChainDb H) (hash : H) (number : ℕ) (td : ℕ) : ChainDb H :=
  { db with td := fun n h => if n = number ∧ h = hash then some td else db.td n h }

def readHeader (db : ChainDb H) (hash : H) (number : ℕ) : Option (Header H) :=
  db.headers number hash

def writeHeader (db : ChainDb H) (header : Header H) : ChainDb H :=
  { db with headers := fun n h =>
      if n = header.number ∧ h = header.hash then some header else db.headers n h }

def writeHeadHeaderHash (db : ChainDb H) (hash : H) : ChainDb H := { db with headHeaderHash := hash }

end ChainDb

structure HeaderChain (H : Type) where
  chainDb : ChainDb H
  /-- `currentHeader`; `currentHeaderHash` is its hash -/
  currentHeader : Header H

namespace HeaderChain

/-- `GetTd`. -/
def getTd (hc : HeaderChain H) (hash : H) (number : ℕ) : Option ℕ := hc.chainDb.readTd hash number

/-- `GetHeader`. -/
def getHeader (hc : HeaderChain H) (hash : H) (number : ℕ) : Option (Header H) :=
  hc.chainDb.readHeader hash number

/-- `GetHeaderByNumber`. -/
def getHeaderByNumber (hc : HeaderChain H) (number : ℕ) : Option (Header H) :=
  let hash := hc.chainDb.readCanonicalHash number
  if hash = default then none else hc.getHeader hash number

/-- `GetHeaderByHash`, over the `headerNumberKey` table `readHeaderNumber` of the database, which
only this lookup reads. -/
def getHeaderByHash (hc : HeaderChain H) (readHeaderNumber : H → Option ℕ) (hash : H) :
    Option (Header H) :=
  (readHeaderNumber hash).bind (hc.getHeader hash)

/-- The loop of `GetAncestor`, entered with `ancestor ≤ number`, which it keeps, so that neither
`number -= ancestor` nor `number--` wraps. The counter `*maxNonCanonical` is threaded through. -/
def getAncestorLoop (hc : HeaderChain H) : ℕ → H → ℕ → ℕ → H × ℕ × ℕ
  | 0, hash, number, maxNonCanonical => (hash, number, maxNonCanonical)
  | ancestor + 1, hash, number, maxNonCanonical =>
    if hc.chainDb.readCanonicalHash number = hash then
      (hc.chainDb.readCanonicalHash (number - (ancestor + 1)), number - (ancestor + 1),
        maxNonCanonical)
    else if maxNonCanonical = 0 then (default, 0, maxNonCanonical)
    else match hc.getHeader hash number with
      | none => (default, 0, maxNonCanonical - 1)
      | some header =>
        hc.getAncestorLoop ancestor header.parentHash (number - 1) (maxNonCanonical - 1)

/-- `GetAncestor`: the hash and number of the `ancestor`-th ancestor of a header, and the counter
`*maxNonCanonical` after the call. -/
def getAncestor (hc : HeaderChain H) (hash : H) (number ancestor maxNonCanonical : ℕ) :
    H × ℕ × ℕ :=
  if ancestor > number then (default, 0, maxNonCanonical)
  else if ancestor = 1 then
    match hc.getHeader hash number with
    | some header => (header.parentHash, number - 1, maxNonCanonical)
    | none => (default, 0, maxNonCanonical)
  else hc.getAncestorLoop ancestor hash number maxNonCanonical

end HeaderChain

/-- The loop of `WriteHeader` that deletes the canonical number assignments from `i` on, up to
the first number without one. -/
def deleteCanonicalFrom : ℕ → ChainDb H → ℕ → Except Halt (ChainDb H)
  | 0, _, _ => .error .fuelExhausted
  | fuel + 1, db, i =>
    if db.readCanonicalHash i = default then .ok db
    else deleteCanonicalFrom fuel (db.deleteCanonicalHash i) (i + 1)

/-- The loop of `WriteHeader` that overwrites stale canonical number assignments, from the
new header's parent down to where the canonical hash is already the one on its path. -/
def overwriteStale : ℕ → ChainDb H → H → ℕ → Option (Header H) → Except Halt (ChainDb H)
  | 0, _, _, _, _ => .error .fuelExhausted
  | fuel + 1, db, headHash, headNumber, headHeader =>
    if db.readCanonicalHash headNumber = headHash then .ok db
    else
      let db := db.writeCanonicalHash headHash headNumber
      match headHeader with
      -- `headHeader.ParentHash` on a nil header
      | none => .error .panic
      | some h =>
        overwriteStale fuel db h.parentHash (pred64 h.number)
          (db.readHeader h.parentHash (pred64 h.number))

/-- `WriteHeader`; `coin` is `mrand.Float64() < 0.5`, which breaks a tie of total
difficulties. An error leaves the chain as it was. -/
def HeaderChain.writeHeader (fuel : ℕ) (hc : HeaderChain H) (header : Header H) (coin : Bool) :
    Except Halt (Except ChainErr WriteStatus × HeaderChain H) :=
  let hash := header.hash
  let number := header.number
  -- Calculate the total difficulty of the header
  match hc.getTd header.parentHash (pred64 number) with
  | none => .ok (.error .unknownAncestor, hc)
  | some ptd =>
    match hc.getTd hc.currentHeader.hash hc.currentHeader.number with
    -- `externTd.Cmp(localTd)` on a nil `localTd`
    | none => .error .panic
    | some localTd => do
      let externTd := header.difficulty + ptd
      -- Irrelevant of the canonical status, write the td and header to the database
      let db := (hc.chainDb.writeTd hash number externTd).writeHeader header
      if localTd < externTd ∨ (externTd = localTd ∧ coin = true) then
        -- Delete any canonical number assignments above the new head
        let db ← deleteCanonicalFrom fuel db (number + 1)
        -- Overwrite any stale canonical number assignments
        let db ← overwriteStale fuel db header.parentHash (pred64 number)
          (db.readHeader header.parentHash (pred64 number))
        -- Extend the canonical chain with the new header
        let db := (db.writeCanonicalHash hash number).writeHeadHeaderHash hash
        pure (.ok .canonStatTy, ⟨db, header⟩)
      else pure (.ok .sideStatTy, { hc with chainDb := db })

/-- A database holding only the genesis header, with its difficulty as its total difficulty,
as the canonical header of number zero and the head. -/
def genesisChain (genesis : Header H) : HeaderChain H :=
  ⟨⟨fun n h => if n = genesis.number ∧ h = genesis.hash then some genesis else none,
    fun n h => if n = genesis.number ∧ h = genesis.hash then some genesis.difficulty else none,
    fun n => if n = genesis.number then some genesis.hash else none, genesis.hash⟩, genesis⟩

/-- `WriteHeader` for each header and coin in turn; an error of a call is returned to its caller,
who goes on with the next. -/
def writeHeaders (fuel : ℕ) : HeaderChain H → List (Header H × Bool) → Except Halt (HeaderChain H)
  | hc, [] => .ok hc
  | hc, (header, coin) :: rest => do
    let (_, hc) ← hc.writeHeader fuel header coin
    writeHeaders fuel hc rest

end

/-! ## Reads after writes -/

section
variable {H : Type}

namespace ChainDb
variable (db : ChainDb H)

@[simp] theorem headers_writeTd [DecidableEq H] (hash : H) (number td : ℕ) :
    (db.writeTd hash number td).headers = db.headers := rfl

@[simp] theorem headers_writeCanonicalHash (hash : H) (number : ℕ) :
    (db.writeCanonicalHash hash number).headers = db.headers := rfl

@[simp] theorem headers_deleteCanonicalHash (number : ℕ) :
    (db.deleteCanonicalHash number).headers = db.headers := rfl

@[simp] theorem headers_writeHeadHeaderHash (hash : H) :
    (db.writeHeadHeaderHash hash).headers = db.headers := rfl

@[simp] theorem td_writeTd_apply [DecidableEq H] (hash : H) (number td n : ℕ) (k : H) :
    (db.writeTd hash number td).td n k = if n = number ∧ k = hash then some td else db.td n k := rfl

@[simp] theorem headers_writeHeader_apply [DecidableEq H] (header : Header H) (n : ℕ) (k : H) :
    (db.writeHeader header).headers n k =
      if n = header.number ∧ k = header.hash then some header else db.headers n k := rfl

@[simp] theorem td_writeHeader [DecidableEq H] (header : Header H) : (db.writeHeader header).td = db.td := rfl

@[simp] theorem td_writeCanonicalHash (hash : H) (number : ℕ) :
    (db.writeCanonicalHash hash number).td = db.td := rfl

@[simp] theorem td_deleteCanonicalHash (number : ℕ) : (db.deleteCanonicalHash number).td = db.td :=
  rfl

@[simp] theorem td_writeHeadHeaderHash (hash : H) : (db.writeHeadHeaderHash hash).td = db.td := rfl

@[simp] theorem canonical_writeTd [DecidableEq H] (hash : H) (number td : ℕ) :
    (db.writeTd hash number td).canonical = db.canonical := rfl

@[simp] theorem canonical_writeHeader [DecidableEq H] (header : Header H) :
    (db.writeHeader header).canonical = db.canonical := rfl

@[simp] theorem canonical_writeHeadHeaderHash (hash : H) :
    (db.writeHeadHeaderHash hash).canonical = db.canonical := rfl

@[simp] theorem canonical_writeCanonicalHash (hash : H) (number : ℕ) :
    (db.writeCanonicalHash hash number).canonical = Function.update db.canonical number (some hash) :=
  rfl

@[simp] theorem canonical_deleteCanonicalHash (number : ℕ) :
    (db.deleteCanonicalHash number).canonical = Function.update db.canonical number none := rfl

@[simp] theorem readHeader_writeCanonicalHash (hash : H) (number : ℕ) :
    (db.writeCanonicalHash hash number).readHeader = db.readHeader := rfl

end ChainDb

end

end Srcd.Chain
