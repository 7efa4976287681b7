import Srcd.Chain.HeaderChainSpec

/-! # Block insertion (`core/blockchain/blockchain.go`, `block_validator.go`)

`InsertChain` checks that a batch is contiguous, has the consensus engine verify its headers,
validates each body and writes each accepted block with `WriteBlock`, whose `insert` makes it the
canonical block of its number and the head, whatever its total difficulty.

The consensus engine is a parameter: `verify bc headers i` is the result `VerifyHeaders` delivers
for header `i` of the batch, and `deriveSha` is `types.DeriveSha`. `now` is `time.Now().Unix()`.
The header and body of a block are written and read together on this path; `bodies` holds the
transactions, and the header fields that nothing reads back (`TxHash`, `Time`) stay with the
block in memory. The block, body and bad-block caches are left out, and so is the capacity of
`futureBlocks`.
-/

namespace Srcd.Chain
set_option autoImplicit false

structure Block (H T : Type) where
  header : Header H
  /-- `Header.TxHash` -/
  txHash : H
  /-- `Header.Time` -/
  time : ℕ
  transactions : List T
  deriving DecidableEq, Repr

inductive BlockErr (H : Type) where
  /-- `ErrKnownBlock` -/
  | knownBlock
  /-- `consensus.ErrFutureBlock` -/
  | futureBlock
  /-- `consensus.ErrUnknownAncestor` -/
  | unknownAncestor
  /-- `transaction root hash mismatch: have %x, want %x` -/
  | txRootMismatch (hash want : H)
  /-- `non contiguous insert: item %d is ...`, at the second block of the pair -/
  | nonContiguous (i : ℕ)
  /-- `future block: %v > %v` -/
  | futureTime (time max : ℕ)
  /-- any other error of the consensus engine -/
  | engine (reason : String)
  deriving DecidableEq, Repr

structure BlockChain (H T : Type) where
  db : ChainDb H
  /-- `blockBodyKey(number, hash)` -/
  bodies : ℕ → H → Option (List T)
  /-- `headBlockKey` -/
  headBlockHash : H
  /-- `headFastBlockKey` -/
  headFastBlockHash : H
  currentBlock : Block H T
  currentFastBlock : Block H T
  /-- `hc.currentHeader` -/
  currentHeader : Header H
  /-- `futureBlocks`, the most recently added first -/
  futureBlocks : List (Block H T)
  procInterrupt : Bool

def maxTimeFutureBlocks : ℕ := 30

section
variable {H T : Type} [DecidableEq H] [Inhabited H]

namespace BlockChain

/-- `HasBlock`: whether the body is stored. -/
def hasBlock (bc : BlockChain H T) (hash : H) (number : ℕ) : Bool := (bc.bodies number hash).isSome

/-- `GetBlock`: the stored header and body. -/
def getBlock (bc : BlockChain H T) (hash : H) (number : ℕ) : Option (Header H × List T) := do
  let header ← bc.db.readHeader hash number
  let body ← bc.bodies number hash
  pure (header, body)

def getBlockByNumber (bc : BlockChain H T) (number : ℕ) : Option (Header H × List T) :=
  let hash := bc.db.readCanonicalHash number
  if hash = default then none else bc.getBlock hash number

/-- `HeaderChain.SetCurrentHeader`. -/
def setCurrentHeader (bc : BlockChain H T) (head : Header H) : BlockChain H T :=
  { bc with db := bc.db.writeHeadHeaderHash head.hash, currentHeader := head }

/-- `insert`: the block becomes the canonical block of its number and the head block; the head
header and fast block follow it when it was not already canonical. -/
def insert (bc : BlockChain H T) (block : Block H T) : BlockChain H T :=
  -- If the block is on a side chain or an unknown one, force other heads onto it too
  let updateHeads := bc.db.readCanonicalHash block.header.number ≠ block.header.hash
  let bc := { bc with
    db := bc.db.writeCanonicalHash block.header.hash block.header.number
    headBlockHash := block.header.hash
    currentBlock := block }
  if updateHeads then
    { bc.setCurrentHeader block.header with
      headFastBlockHash := block.header.hash
      currentFastBlock := block }
  else bc

def removeFuture (blocks : List (Block H T)) (hash : H) : List (Block H T) :=
  blocks.filter fun b => b.header.hash ≠ hash

/-- `futureBlocks.Add`: an entry under the same hash is replaced. -/
def addFuture (blocks : List (Block H T)) (block : Block H T) : List (Block H T) :=
  block :: removeFuture blocks block.header.hash

def containsFuture (blocks : List (Block H T)) (hash : H) : Bool :=
  blocks.any fun b => b.header.hash = hash

/-- `WriteBlock`: `rawdb.WriteBlock` stores the header and the body, then `insert`. -/
def writeBlock (bc : BlockChain H T) (block : Block H T) : BlockChain H T :=
  let hash := block.header.hash
  let number := block.header.number
  let bc := { bc with
    db := bc.db.writeHeader block.header
    bodies := fun n h => if n = number ∧ h = hash then some block.transactions else bc.bodies n h }
  let bc := bc.insert block
  { bc with futureBlocks := removeFuture bc.futureBlocks hash }

/-- `BlockValidator.ValidateBody`. -/
def validateBody (deriveSha : List T → H) (bc : BlockChain H T) (block : Block H T) :
    Option (BlockErr H) :=
  -- Check whether the block's known, and if not, that it's linkable
  if bc.hasBlock block.header.hash block.header.number then some .knownBlock
  else if !bc.hasBlock block.header.parentHash (pred64 block.header.number) then some .unknownAncestor
  else
    let hash := deriveSha block.transactions
    if hash ≠ block.txHash then some (.txRootMismatch hash block.txHash) else none

end BlockChain

/-- The index of the first block of a batch that does not follow the one before it. -/
def firstBreak : ℕ → List (Block H T) → Option ℕ
  | i, a :: b :: rest =>
    if b.header.number ≠ (a.header.number + 1) % 2 ^ 64 ∨ b.header.parentHash ≠ a.header.hash then
      some (i + 1)
    else firstBreak (i + 1) (b :: rest)
  | _, _ => none

/-- The loop of `insertChain` from block `i` on, with the engine's results; it returns the index
of a failing block (zero otherwise), the error and the chain. -/
def insertLoop (deriveSha : List T → H) (results : ℕ → Option (BlockErr H)) (now : ℕ) :
    ℕ → List (Block H T) → BlockChain H T → ℕ × Option (BlockErr H) × BlockChain H T
  | _, [], bc => (0, none, bc)
  | i, block :: rest, bc =>
    -- If the chain is terminating, stop processing blocks
    if bc.procInterrupt then (0, none, bc)
    else
      let err := match results i with
        | none => bc.validateBody deriveSha block
        | some e => some e
      match err with
      | some .knownBlock =>
        if block.header.number ≤ bc.currentBlock.header.number then
          insertLoop deriveSha results now (i + 1) rest bc
        else insertLoop deriveSha results now (i + 1) rest (bc.writeBlock block)
      | some .futureBlock =>
        let max := now + maxTimeFutureBlocks
        if max < block.time then (i, some (.futureTime block.time max), bc)
        else
          insertLoop deriveSha results now (i + 1) rest
            { bc with futureBlocks := BlockChain.addFuture bc.futureBlocks block }
      | some .unknownAncestor =>
        if BlockChain.containsFuture bc.futureBlocks block.header.parentHash then
          insertLoop deriveSha results now (i + 1) rest
            { bc with futureBlocks := BlockChain.addFuture bc.futureBlocks block }
        else (i, some .unknownAncestor, bc)
      | some e => (i, some e, bc)
      | none => insertLoop deriveSha results now (i + 1) rest (bc.writeBlock block)

/-- `insertChain` (and `InsertChain`, which drops the events). -/
def BlockChain.insertChain (deriveSha : List T → H)
    (verify : BlockChain H T → List (Header H) → ℕ → Option (BlockErr H)) (now : ℕ)
    (bc : BlockChain H T) (chain : List (Block H T)) :
    ℕ × Option (BlockErr H) × BlockChain H T :=
  match chain with
  | [] => (0, none, bc)
  | chain =>
    match firstBreak 0 chain with
    | some i => (0, some (.nonContiguous i), bc)
    | none => insertLoop deriveSha (verify bc (chain.map Block.header)) now 0 chain bc

/-- The chain after `ResetWithGenesisBlock` on an empty database. -/
def genesisBlockChain (genesis : Block H T) : BlockChain H T :=
  BlockChain.writeBlock
    ⟨⟨fun _ _ => none, fun _ _ => none, fun _ => none, default⟩, fun _ _ => none, default, default,
      genesis, genesis, genesis.header, [], false⟩ genesis

/-! ## What a write leaves -/

namespace BlockChain

variable (bc : BlockChain H T) (block : Block H T)

/-! `insert` moves the heads; what it leaves is the same in both of its branches. -/

@[simp] theorem insert_currentBlock : (bc.insert block).currentBlock = block := by
  unfold insert
  dsimp only
  split <;> rfl

@[simp] theorem insert_bodies : (bc.insert block).bodies = bc.bodies := by
  unfold insert
  dsimp only
  split <;> rfl

@[simp] theorem insert_procInterrupt : (bc.insert block).procInterrupt = bc.procInterrupt := by
  unfold insert
  dsimp only
  split <;> rfl

@[simp] theorem writeBlock_currentBlock : (bc.writeBlock block).currentBlock = block := by
  simp [writeBlock]

@[simp] theorem writeBlock_bodies :
    (bc.writeBlock block).bodies = fun n h =>
      if n = block.header.number ∧ h = block.header.hash then some block.transactions
      else bc.bodies n h := by
  simp [writeBlock]

@[simp] theorem writeBlock_procInterrupt :
    (bc.writeBlock block).procInterrupt = bc.procInterrupt := by
  simp [writeBlock]

end BlockChain

/-! ## A contiguous batch of new blocks -/

/-- Each block of the batch is the child of the one before it, the first of `parent`. -/
def Chained : Header H → List (Block H T) → Prop
  | _, [] => True
  | parent, block :: rest =>
    block.header.parentHash = parent.hash ∧ block.header.number = parent.number + 1 ∧
      Chained block.header rest

omit [DecidableEq H] [Inhabited H] in
theorem Chained.lt_number : ∀ {p : Header H} {blocks : List (Block H T)}, Chained p blocks →
    ∀ b ∈ blocks, p.number < b.header.number := by
  intro p blocks
  induction blocks generalizing p with
  | nil => intro _ b hb; cases hb
  | cons c rest ih =>
    intro hchain b hb
    obtain ⟨-, hcn, hrest⟩ := hchain
    rcases List.mem_cons.mp hb with rfl | hb
    · omega
    · have := ih hrest b hb
      omega

omit [Inhabited H] in
theorem firstBreak_chained : ∀ (blocks : List (Block H T)) (i : ℕ) (p : Header H),
    Chained p blocks → (∀ b ∈ blocks, b.header.number < 2 ^ 64) → firstBreak i blocks = none := by
  intro blocks
  induction blocks with
  | nil => intro _ _ _ _; rfl
  | cons a rest ih =>
    intro i p hchain hlt
    cases rest with
    | nil => rfl
    | cons b rest =>
      have hab : Chained a.header (b :: rest) := hchain.2.2
      have hb := hlt b (List.mem_cons_of_mem _ List.mem_cons_self)
      have hmod : (a.header.number + 1) % 2 ^ 64 = a.header.number + 1 :=
        Nat.mod_eq_of_lt (by have := hab.2.1; omega)
      rw [firstBreak, if_neg (by rw [hmod]; simp [hab.1, hab.2.1])]
      exact ih (i + 1) a.header hab fun c hc => hlt c (List.mem_cons_of_mem _ hc)

variable (deriveSha : List T → H)

omit [Inhabited H] in
theorem validateBody_eq_none {bc : BlockChain H T} {p : Header H} {block : Block H T}
    (hnew : bc.bodies block.header.number block.header.hash = none)
    (hparent : bc.hasBlock p.hash p.number) (hph : block.header.parentHash = p.hash)
    (hpn : block.header.number = p.number + 1) (hsha : deriveSha block.transactions = block.txHash) :
    bc.validateBody deriveSha block = none := by
  have hknown : bc.hasBlock block.header.hash block.header.number = false := by
    simp [BlockChain.hasBlock, hnew]
  have hlink : bc.hasBlock block.header.parentHash (pred64 block.header.number) = true := by
    rw [hph, hpn, pred64_succ]
    exact hparent
  simp [BlockChain.validateBody, hknown, hlink, hsha]

/-- A contiguous batch of new blocks over a stored parent, each with its transaction root, that
the engine accepts, is written block after block. -/
theorem insertLoop_chained (results : ℕ → Option (BlockErr H)) (now : ℕ) :
    ∀ (blocks : List (Block H T)) (i : ℕ) (bc : BlockChain H T) (p : Header H),
      bc.procInterrupt = false → bc.hasBlock p.hash p.number → Chained p blocks →
      (∀ b ∈ blocks, bc.bodies b.header.number b.header.hash = none) →
      (∀ b ∈ blocks, deriveSha b.transactions = b.txHash) →
      (∀ j, i ≤ j → j < i + blocks.length → results j = none) →
      insertLoop deriveSha results now i blocks bc = (0, none, blocks.foldl BlockChain.writeBlock bc) := by
  intro blocks
  induction blocks with
  | nil => intro _ _ _ _ _ _ _ _ _; rfl
  | cons b rest ih =>
    intro i bc p hint hparent hchain hnew hsha hres
    obtain ⟨hph, hpn, hrest⟩ := hchain
    have hval := validateBody_eq_none deriveSha (hnew b List.mem_cons_self) hparent hph hpn
      (hsha b List.mem_cons_self)
    have hri : results i = none := hres i (Nat.le_refl _) (by simp)
    have hnew' : ∀ c ∈ rest, (bc.writeBlock b).bodies c.header.number c.header.hash = none := by
      intro c hc
      have := hrest.lt_number c hc
      simp only [BlockChain.writeBlock_bodies]
      rw [if_neg (by omega)]
      exact hnew c (List.mem_cons_of_mem _ hc)
    rw [insertLoop, if_neg (by simp [hint])]
    simp only [hri, hval]
    rw [ih (i + 1) (bc.writeBlock b) b.header (by simp [hint]) (by simp [BlockChain.hasBlock])
      hrest hnew' (fun c hc => hsha c (List.mem_cons_of_mem _ hc))
      (fun j hj hjl => hres j (by omega) (by simp; omega)), List.foldl_cons]

/-- `InsertChain` of such a batch, which the engine accepts, writes it block after block. -/
theorem insertChain_chained (verify : BlockChain H T → List (Header H) → ℕ → Option (BlockErr H))
    (now : ℕ) {bc : BlockChain H T} {p : Header H} {blocks : List (Block H T)}
    (hint : bc.procInterrupt = false) (hparent : bc.hasBlock p.hash p.number)
    (hchain : Chained p blocks) (hlt : ∀ b ∈ blocks, b.header.number < 2 ^ 64)
    (hnew : ∀ b ∈ blocks, bc.bodies b.header.number b.header.hash = none)
    (hsha : ∀ b ∈ blocks, deriveSha b.transactions = b.txHash)
    (hverify : ∀ j < blocks.length, verify bc (blocks.map Block.header) j = none) :
    bc.insertChain deriveSha verify now blocks = (0, none, blocks.foldl BlockChain.writeBlock bc) := by
  cases blocks with
  | nil => rfl
  | cons b rest =>
    simp only [BlockChain.insertChain]
    rw [firstBreak_chained _ 0 p hchain hlt]
    exact insertLoop_chained deriveSha _ now _ 0 bc p hint hparent hchain hnew hsha
      fun j _ hj => hverify j (by simpa using hj)

end

/-! ## A side block takes the head -/

/-- A genesis, a chain `A1`, `A2` over it, and `B1`, a sibling of `A1`; all of difficulty one. -/
def forkGenesis : Header ℕ := ⟨1, 0, 0, 1⟩

def forkA1 : Header ℕ := ⟨2, 1, 1, 1⟩

def forkA2 : Header ℕ := ⟨3, 2, 2, 1⟩

def forkB1 : Header ℕ := ⟨4, 1, 1, 1⟩

/-- A block without transactions, with the root zero. -/
def forkBlock {T : Type} (header : Header ℕ) (time : ℕ) : Block ℕ T := ⟨header, 0, time, []⟩

theorem insertChain_sibling_leaves_stale_canonical {T : Type} (deriveSha : List T → ℕ)
    (hsha : deriveSha [] = 0) (verify : BlockChain ℕ T → List (Header ℕ) → ℕ → Option (BlockErr ℕ))
    (hA : ∀ bc j, verify bc [forkA1, forkA2] j = none) (hB : ∀ bc j, verify bc [forkB1] j = none)
    (now₁ now₂ : ℕ) :
    ∃ bc₁ bc₂,
      (genesisBlockChain (forkBlock forkGenesis 0)).insertChain deriveSha verify now₁
        [forkBlock forkA1 10, forkBlock forkA2 20] = (0, none, bc₁) ∧
      bc₁.insertChain deriveSha verify now₂ [forkBlock forkB1 30] = (0, none, bc₂) ∧
      bc₂.currentBlock = forkBlock forkB1 30 ∧ bc₂.getBlockByNumber 2 = some (forkA2, []) ∧
      forkA2.parentHash ≠ forkB1.hash ∧ bc₂.db.tdOf forkB1 < bc₂.db.tdOf forkA2 := by
  let bc₀ : BlockChain ℕ T := genesisBlockChain (forkBlock forkGenesis 0)
  let batchA : List (Block ℕ T) := [forkBlock forkA1 10, forkBlock forkA2 20]
  have h₁ : bc₀.insertChain deriveSha verify now₁ batchA =
      (0, none, batchA.foldl BlockChain.writeBlock bc₀) :=
    insertChain_chained deriveSha verify now₁ (p := forkGenesis) rfl rfl
      ⟨rfl, rfl, rfl, rfl, trivial⟩ (by simp [batchA, forkBlock, forkA1, forkA2])
      (by intro b hb; simp only [batchA, List.mem_cons, List.not_mem_nil, or_false] at hb
          rcases hb with rfl | rfl <;> rfl)
      (by simp [batchA, forkBlock, hsha]) (fun j _ => hA _ j)
  have h₂ : (batchA.foldl BlockChain.writeBlock bc₀).insertChain deriveSha verify now₂
      [forkBlock forkB1 30] = (0, none, [forkBlock forkB1 30].foldl BlockChain.writeBlock
        (batchA.foldl BlockChain.writeBlock bc₀)) :=
    insertChain_chained deriveSha verify now₂ (p := forkGenesis) rfl rfl ⟨rfl, rfl, trivial⟩
      (by simp [forkBlock, forkB1]) (by simp only [List.mem_singleton]; rintro b rfl; rfl)
      (by simp [forkBlock, hsha]) (fun j _ => hB _ j)
  refine ⟨_, _, h₁, h₂, by simp, rfl, by decide, ?_⟩
  exact Nat.lt_of_sub_eq_succ rfl

theorem insertChain_sibling_leaves_stale_canonical_acceptAll :
    ∃ bc₁ bc₂,
      (genesisBlockChain (forkBlock forkGenesis 0)).insertChain (fun _ : List Unit => 0)
        (fun _ _ _ => none) 0 [forkBlock forkA1 10, forkBlock forkA2 20] = (0, none, bc₁) ∧
      bc₁.insertChain (fun _ => 0) (fun _ _ _ => none) 0 [forkBlock forkB1 30] = (0, none, bc₂) ∧
      bc₂.currentBlock = forkBlock forkB1 30 ∧ bc₂.getBlockByNumber 2 = some (forkA2, []) ∧
      forkA2.parentHash ≠ forkB1.hash ∧ bc₂.db.tdOf forkB1 < bc₂.db.tdOf forkA2 :=
  insertChain_sibling_leaves_stale_canonical _ rfl _ (fun _ _ => rfl) (fun _ _ => rfl) 0 0

end Srcd.Chain
