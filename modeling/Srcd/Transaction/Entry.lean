import Srcd.Transaction.Encoding
import Mathlib

/-! # Transaction entries and IDs (`map.go`, `entry.go`)

`mapTx` turns a transaction into a graph of entries linked by their IDs: for each spend input a
prevout and a spend, a mux over the spends, an output for each output, and a header over the
outputs. `EntryID` hashes an entry's type with the hash of what its `writeForHash` writes, and the
ID of the transaction is that of its header.

Only the header writes anything: `Mux`, `Output` and `Spend` write nothing, so every output has
the same ID, and the ID of a transaction depends only on its version, its time range, its number
of outputs and whether it spends anything (`mapTx_headerID`, `mapTx_headerID_eq`).

`sha3` is SHA3-256 with its 32 bytes read as a `Hash` (`Hash.ReadFrom`). The entry map is a Go
map, a function here; its spends and its mux are pointers that `mapTx` changes after adding them,
so the map returned shows them as they end up. `mustWriteForHash` panics, and so does a failed
type assertion: `mapTx` then returns `none`.
-/

namespace Srcd.Transaction
open Srcd.Library
set_option autoImplicit false

structure ValueSource where
  ref : Hash
  value : AssetAmount
  position : UInt64
  deriving DecidableEq, Repr

structure ValueDestination where
  ref : Hash
  value : AssetAmount
  position : UInt64
  deriving DecidableEq, Repr

structure Program where
  vmVersion : UInt64
  code : List UInt8
  deriving DecidableEq, Repr

structure TxHeader where
  version : UInt64
  serializedSize : UInt64
  timeRange : UInt64
  resultIds : List Hash
  deriving DecidableEq, Repr

structure Mux where
  /-- `none`: the nil source of an input that is not a spend -/
  sources : List (Option ValueSource)
  program : Program
  witnessDestinations : List ValueDestination
  deriving DecidableEq, Repr

structure Output where
  source : ValueSource
  controlProgram : Program
  ordinal : UInt64
  deriving DecidableEq, Repr

structure Spend where
  spentOutputId : Hash
  witnessDestination : Option ValueDestination
  witnessArguments : List (List UInt8)
  ordinal : UInt64
  deriving DecidableEq, Repr

/-- The entries `mapTx` makes. -/
inductive Entry where
  | txHeader (h : TxHeader)
  | mux (m : Mux)
  | output (o : Output)
  | spend (s : Spend)
  deriving DecidableEq, Repr

def Entry.typ : Entry → String
  | .txHeader _ => "txheader"
  | .mux _ => "mux1"
  | .output _ => "output1"
  | .spend _ => "spend1"

/-- `vm.OP_TRUE`. -/
def opTrue : UInt8 := 0x51

/-- `binary.LittleEndian.PutUint64`. -/
def le64 (v : UInt64) : List UInt8 := (lowBytes 8 v.toNat).reverse

/-- `TxHeader.writeForHash`: the result IDs are a slice, written as its length and then each
ID. -/
def TxHeader.writeForHash (h : TxHeader) : Except TxErr (List UInt8) := do
  let n ← writeVarint31 h.resultIds.length
  pure (le64 h.version ++ le64 h.timeRange ++ n ++ h.resultIds.flatMap Hash.bytes)

/-- `writeForHash`: `Mux`, `Output` and `Spend` write nothing. -/
def Entry.writeForHash : Entry → Except TxErr (List UInt8)
  | .txHeader h => h.writeForHash
  | .mux _ | .output _ | .spend _ => pure []

section
variable (sha3 : List UInt8 → Hash)

/-- `EntryID`; `none` where `mustWriteForHash` panics. -/
def entryID (e : Entry) : Option Hash :=
  match e.writeForHash with
  | .ok body => some (sha3 (ascii "entryid:" ++ ascii e.typ ++ ascii ":" ++ (sha3 body).bytes))
  | .error _ => none

/-- `addEntry` of `mapTx`: the entry under its ID. -/
def addEntry (entryMap : Hash → Option Entry) (e : Entry) :
    Option (Hash × (Hash → Option Entry)) :=
  (entryID sha3 e).map fun id => (id, Function.update entryMap id (some e))

/-- The loop of `mapTx` over the inputs from index `i` on: a prevout and a spend for each spend
input; the sources of the mux, and the spends to connect to it. -/
def mapInputs (i : ℕ) (entryMap : Hash → Option Entry) : List TxInput →
    Option ((Hash → Option Entry) × List (Option ValueSource) × List Spend)
  | [] => some (entryMap, [], [])
  | input :: rest =>
    match input.typedInput with
    | some (.spend inp) => do
      let sc := inp.spendCommitment
      let prog : Program := ⟨sc.vmVersion, sc.controlProgram⟩
      let src : ValueSource := ⟨sc.sourceID, sc.assetAmount, sc.sourcePosition⟩
      -- create entry for prevout
      let (prevoutID, entryMap) ← addEntry sha3 entryMap (.output ⟨src, prog, 0⟩)
      -- create entry for spend
      let spend : Spend := ⟨prevoutID, none, inp.arguments, i.toUInt64⟩
      let (spendID, entryMap) ← addEntry sha3 entryMap (.spend spend)
      let (entryMap, muxSources, spends) ← mapInputs (i + 1) entryMap rest
      pure (entryMap, some ⟨spendID, sc.assetAmount, 0⟩ :: muxSources, spend :: spends)
    | _ => do
      let (entryMap, muxSources, spends) ← mapInputs (i + 1) entryMap rest
      pure (entryMap, none :: muxSources, spends)

/-- The loop of `mapTx` that connects the spends to the mux: the value of each is that of the
entry under its spent output ID, which the type assertion requires to be an `Output`. -/
def connectSpends (entryMap : Hash → Option Entry) (muxID : Hash) :
    List Spend → Option (List Spend)
  | [] => some []
  | spend :: rest =>
    match entryMap spend.spentOutputId with
    | some (.output spentOutput) => do
      let rest ← connectSpends entryMap muxID rest
      pure ({ spend with
        witnessDestination := some ⟨muxID, spentOutput.source.value, spend.ordinal⟩ } :: rest)
    | _ => none

/-- The loop of `mapTx` over the outputs from index `i` on: an output entry for each, its ID, and
the destination of the mux that pays it. -/
def mapOutputs (muxID : Hash) (i : ℕ) (entryMap : Hash → Option Entry) : List TxOutput →
    Option ((Hash → Option Entry) × List Hash × List ValueDestination)
  | [] => some (entryMap, [], [])
  | out :: rest => do
    let src : ValueSource := ⟨muxID, out.outputCommitment.assetAmount, i.toUInt64⟩
    let prog : Program := ⟨out.outputCommitment.vmVersion, out.outputCommitment.controlProgram⟩
    let (resultID, entryMap) ← addEntry sha3 entryMap (.output ⟨src, prog, i.toUInt64⟩)
    let (entryMap, resultIDs, dests) ← mapOutputs muxID (i + 1) entryMap rest
    pure (entryMap, resultID :: resultIDs, ⟨resultID, src.value, 0⟩ :: dests)

/-- `mapTx`: the header's ID, the header, and the entry map. -/
def mapTx (tx : TxData) : Option (Hash × TxHeader × (Hash → Option Entry)) := do
  let (entryMap, muxSources, spends) ← mapInputs sha3 0 (fun _ => none) tx.inputs
  let (muxID, entryMap) ← addEntry sha3 entryMap (.mux ⟨muxSources, ⟨1, [opTrue]⟩, []⟩)
  -- connect the inputs to the mux
  let spends ← connectSpends entryMap muxID spends
  let (entryMap, resultIDs, dests) ← mapOutputs sha3 muxID 0 entryMap tx.outputs
  let h : TxHeader := ⟨tx.version, tx.serializedSize, tx.timeRange, resultIDs⟩
  let (headerID, entryMap) ← addEntry sha3 entryMap (.txHeader h)
  pure (headerID, h, fun id => (entryMap id).map fun
    | .spend s => .spend ((spends.find? (·.ordinal = s.ordinal)).getD s)
    | .mux m => .mux { m with witnessDestinations := dests }
    | e => e)

/-! ## The IDs -/

/-- The ID of every entry of type `typ` that writes nothing. -/
def emptyBodyID (typ : String) : Hash :=
  sha3 (ascii "entryid:" ++ ascii typ ++ ascii ":" ++ (sha3 []).bytes)

def TxInput.isSpend (t : TxInput) : Bool :=
  match t.typedInput with
  | some (.spend _) => true
  | _ => false

/-- The header of `mapTx`: every result ID is the ID of an output. -/
def mappedHeader (tx : TxData) : TxHeader :=
  ⟨tx.version, tx.serializedSize, tx.timeRange,
    List.replicate tx.outputs.length (emptyBodyID sha3 "output1")⟩

theorem addEntry_output (m : Hash → Option Entry) (o : Output) :
    addEntry sha3 m (.output o) =
      some (emptyBodyID sha3 "output1", Function.update m (emptyBodyID sha3 "output1") (some (.output o))) :=
  rfl

theorem addEntry_spend (m : Hash → Option Entry) (s : Spend) :
    addEntry sha3 m (.spend s) =
      some (emptyBodyID sha3 "spend1", Function.update m (emptyBodyID sha3 "spend1") (some (.spend s))) :=
  rfl

theorem addEntry_mux (m : Hash → Option Entry) (x : Mux) :
    addEntry sha3 m (.mux x) =
      some (emptyBodyID sha3 "mux1", Function.update m (emptyBodyID sha3 "mux1") (some (.mux x))) :=
  rfl

/-- The ID of a header is a function of what it writes. -/
theorem entryID_txHeader_congr {h h' : TxHeader} (hw : h.writeForHash = h'.writeForHash) :
    entryID sha3 (.txHeader h) = entryID sha3 (.txHeader h') := by
  simp only [entryID, Entry.writeForHash, Entry.typ, hw]

/-- The loop over the inputs: every spend spends the ID of an output, a transaction without a
spend input leaves the map as it was, and one with a spend input leaves an output under that ID
unless spends and outputs share their ID. -/
theorem mapInputs_spec (ins : List TxInput) : ∀ (i : ℕ) (m : Hash → Option Entry),
    ∃ m' srcs spends, mapInputs sha3 i m ins = some (m', srcs, spends) ∧
      (∀ s ∈ spends, s.spentOutputId = emptyBodyID sha3 "output1") ∧
      (spends = [] ↔ ins.any TxInput.isSpend = false) ∧ (spends = [] → m' = m) ∧
      (spends ≠ [] → ((∃ o, m' (emptyBodyID sha3 "output1") = some (.output o)) ↔
        emptyBodyID sha3 "spend1" ≠ emptyBodyID sha3 "output1")) := by
  induction ins with
  | nil => exact fun i m => ⟨m, [], [], rfl, by simp, by simp, fun _ => rfl, fun h => absurd rfl h⟩
  | cons input rest ih =>
    intro i m
    rcases htyped : input.typedInput with _ | _ | _
    case some.spend inp =>
      set m₂ := Function.update
        (Function.update m (emptyBodyID sha3 "output1") (some (.output ⟨⟨inp.spendCommitment.sourceID,
          inp.spendCommitment.assetAmount, inp.spendCommitment.sourcePosition⟩,
          ⟨inp.spendCommitment.vmVersion, inp.spendCommitment.controlProgram⟩, 0⟩)))
        (emptyBodyID sha3 "spend1")
        (some (.spend ⟨emptyBodyID sha3 "output1", none, inp.arguments, i.toUInt64⟩)) with hm₂
      obtain ⟨m', srcs, spends, hrun, hids, hnil, hkeep, hlast⟩ := ih (i + 1) m₂
      refine ⟨m', some ⟨emptyBodyID sha3 "spend1", inp.spendCommitment.assetAmount, 0⟩ :: srcs,
        ⟨emptyBodyID sha3 "output1", none, inp.arguments, i.toUInt64⟩ :: spends,
        ?_, ?_, ?_, ?_, ?_⟩
      · simp only [mapInputs, htyped, addEntry_output, addEntry_spend, Option.bind_eq_bind,
          Option.bind_some]
        rw [← hm₂, hrun]
        rfl
      · intro s hs
        rcases List.mem_cons.mp hs with rfl | hs
        · rfl
        · exact hids s hs
      · simp [TxInput.isSpend, htyped]
      · intro h
        cases h
      · intro _
        by_cases hrest : spends = []
        · -- the last spend input: the map is the one it left
          rw [hkeep hrest, hm₂]
          by_cases hso : emptyBodyID sha3 "spend1" = emptyBodyID sha3 "output1"
          · simp [hso]
          · simp [Function.update_of_ne (Ne.symm hso), hso]
        · exact hlast hrest
    all_goals
      obtain ⟨m', srcs, spends, hrun, hids, hnil, hkeep, hlast⟩ := ih (i + 1) m
      refine ⟨m', none :: srcs, spends, ?_, hids, ?_, hkeep, hlast⟩
      · simp only [mapInputs, htyped, hrun, Option.bind_eq_bind, Option.bind_some]
        rfl
      · simp [List.any_cons, TxInput.isSpend, htyped, hnil]

/-- The type assertions of the loop that connects the spends pass when there is no spend, or an
output under the ID they spend. -/
theorem connectSpends_isSome (m : Hash → Option Entry) (muxID k : Hash) (spends : List Spend)
    (hids : ∀ s ∈ spends, s.spentOutputId = k) :
    (connectSpends m muxID spends).isSome ↔ spends = [] ∨ ∃ o, m k = some (.output o) := by
  induction spends with
  | nil => simp [connectSpends]
  | cons spend rest ih =>
    rw [connectSpends, hids spend List.mem_cons_self]
    rcases hk : m k with _ | ⟨_ | _ | o | _⟩
    case some.output =>
      have hrest := ih fun s hs => hids s (List.mem_cons_of_mem _ hs)
      obtain ⟨r, hr⟩ := Option.isSome_iff_exists.mp (hrest.mpr (.inr ⟨_, hk⟩))
      simp [hr]
    all_goals simp

/-- The loop over the outputs: every result ID is the ID of an output. -/
theorem mapOutputs_spec (muxID : Hash) (outs : List TxOutput) : ∀ (i : ℕ) (m : Hash → Option Entry),
    ∃ m' dests, mapOutputs sha3 muxID i m outs =
      some (m', List.replicate outs.length (emptyBodyID sha3 "output1"), dests) := by
  induction outs with
  | nil => exact fun i m => ⟨m, [], rfl⟩
  | cons out rest ih =>
    intro i m
    obtain ⟨m', dests, hrun⟩ := ih (i + 1) (Function.update m (emptyBodyID sha3 "output1")
      (some (.output ⟨⟨muxID, out.outputCommitment.assetAmount, i.toUInt64⟩,
        ⟨out.outputCommitment.vmVersion, out.outputCommitment.controlProgram⟩, i.toUInt64⟩)))
    refine ⟨m', ⟨emptyBodyID sha3 "output1", out.outputCommitment.assetAmount, 0⟩ :: dests, ?_⟩
    simp only [mapOutputs, addEntry_output, hrun, Option.bind_eq_bind, Option.bind_some]
    rfl

/-- Whether the spends connect to the mux: they do unless there is a spend and the ID of the mux
or of a spend is that of an output, so that the entry under the spent ID is no output. -/
theorem connectSpends_mapInputs_isSome {ins : List TxInput} {m₁ : Hash → Option Entry}
    {srcs : List (Option ValueSource)} {spends : List Spend}
    (hin : mapInputs sha3 0 (fun _ => none) ins = some (m₁, srcs, spends)) :
    (connectSpends (Function.update m₁ (emptyBodyID sha3 "mux1")
        (some (.mux ⟨srcs, ⟨1, [opTrue]⟩, []⟩))) (emptyBodyID sha3 "mux1") spends).isSome ↔
      ¬ (ins.any TxInput.isSpend ∧ (emptyBodyID sha3 "mux1" = emptyBodyID sha3 "output1" ∨
        emptyBodyID sha3 "spend1" = emptyBodyID sha3 "output1")) := by
  obtain ⟨m₁', srcs', spends', hin', hids, hnil, -, hlast⟩ :=
    mapInputs_spec sha3 ins 0 (fun _ => none)
  obtain ⟨rfl, rfl, rfl⟩ : m₁' = m₁ ∧ srcs' = srcs ∧ spends' = spends := by
    simpa using hin'.symm.trans hin
  rw [connectSpends_isSome _ _ _ _ hids]
  by_cases hs : spends' = []
  · simp [hs, hnil.mp hs]
  · have hany : ins.any TxInput.isSpend = true := by simpa [hnil] using hs
    by_cases hmux : emptyBodyID sha3 "mux1" = emptyBodyID sha3 "output1"
    · -- the mux is under the spent ID
      simp [hs, hany, hmux]
    · rw [Function.update_of_ne (Ne.symm hmux), hlast hs]
      simp [hs, hany, hmux]

/-- The header of a transaction and its ID are `mappedHeader` and its `EntryID`, unless the loop
that connects the spends panics. -/
theorem mapTx_header (tx : TxData) :
    (mapTx sha3 tx).map (fun r => (r.1, r.2.1)) =
      if tx.inputs.any TxInput.isSpend ∧ (emptyBodyID sha3 "mux1" = emptyBodyID sha3 "output1" ∨
          emptyBodyID sha3 "spend1" = emptyBodyID sha3 "output1") then none
      else (entryID sha3 (.txHeader (mappedHeader sha3 tx))).map
        fun id => (id, mappedHeader sha3 tx) := by
  obtain ⟨m₁, srcs, spends, hin, -⟩ := mapInputs_spec sha3 tx.inputs 0 (fun _ => none)
  have hconnect := connectSpends_mapInputs_isSome sha3 hin
  unfold mapTx
  simp only [hin, addEntry_mux, Option.bind_eq_bind, Option.bind_some]
  rcases hc : connectSpends (Function.update m₁ (emptyBodyID sha3 "mux1")
      (some (.mux ⟨srcs, ⟨1, [opTrue]⟩, []⟩))) (emptyBodyID sha3 "mux1") spends with _ | spends'
  · -- a type assertion panics
    rw [hc] at hconnect
    simp only [Option.isSome_none, Bool.false_eq_true, false_iff, not_not] at hconnect
    simp [hconnect]
  · rw [hc] at hconnect
    simp only [Option.isSome_some, true_iff] at hconnect
    obtain ⟨m₃, dests, hout⟩ := mapOutputs_spec sha3 (emptyBodyID sha3 "mux1") tx.outputs 0
      (Function.update m₁ (emptyBodyID sha3 "mux1") (some (.mux ⟨srcs, ⟨1, [opTrue]⟩, []⟩)))
    simp only [hout, Option.bind_some, if_neg hconnect]
    cases hid : entryID sha3 (.txHeader (mappedHeader sha3 tx)) <;>
      simp [addEntry, mappedHeader, hid] at hid ⊢

theorem map_writeForHash (tx : TxData) :
    (mapTx sha3 tx).map (fun r => (r.1, r.2.1.writeForHash)) =
      ((mapTx sha3 tx).map fun r => (r.1, r.2.1)).map fun p => (p.1, p.2.writeForHash) := by
  rw [Option.map_map]
  rfl

/-- What the ID of a transaction depends on: two transactions with the same version, time range
and number of outputs, both with or both without a spend input, get the same header ID from the
same hashed bytes. -/
theorem mapTx_headerID_eq {a b : TxData} (hv : a.version = b.version)
    (ht : a.timeRange = b.timeRange) (hn : a.outputs.length = b.outputs.length)
    (hs : a.inputs.any TxInput.isSpend = b.inputs.any TxInput.isSpend) :
    (mapTx sha3 a).map (fun r => (r.1, r.2.1.writeForHash)) =
      (mapTx sha3 b).map (fun r => (r.1, r.2.1.writeForHash)) := by
  have hw : (mappedHeader sha3 a).writeForHash = (mappedHeader sha3 b).writeForHash := by
    simp only [mappedHeader, TxHeader.writeForHash, hv, ht, hn]
  rw [map_writeForHash, map_writeForHash, mapTx_header, mapTx_header, hs,
    entryID_txHeader_congr sha3 hw]
  split
  · rfl
  · -- the two headers differ at most in their size, which they do not write
    rw [Option.map_map, Option.map_map]
    congr 1
    funext id
    simp [hw]

end

/-- A spend of one input to one output. -/
def spendTxA : TxData :=
  ⟨1, 0, 0, [⟨1, [], [], some (.spend ⟨[], [], ⟨⟨some ⟨1, 1, 1, 1⟩, 5⟩, ⟨1, 2, 3, 4⟩, 0, 1, [0x51]⟩⟩)⟩],
    [⟨1, ⟨⟨some ⟨1, 1, 1, 1⟩, 5⟩, 1, [0x51]⟩, []⟩]⟩

/-- `spendTxA` with another asset, amount, source and program in its input and its output. -/
def spendTxB : TxData :=
  ⟨1, 0, 0, [⟨1, [], [], some (.spend ⟨[], [], ⟨⟨some ⟨2, 2, 2, 2⟩, 7⟩, ⟨5, 6, 7, 8⟩, 1, 1, [0x52]⟩⟩)⟩],
    [⟨1, ⟨⟨some ⟨2, 2, 2, 2⟩, 9⟩, 1, [0x00]⟩, []⟩]⟩

/-- The two spends get one ID, from the same hashed bytes, under any hash that tells spends,
muxes and outputs apart. -/
theorem mapTx_headerID_ignores_commitments (sha3 : List UInt8 → Hash)
    (hmux : emptyBodyID sha3 "mux1" ≠ emptyBodyID sha3 "output1")
    (hspend : emptyBodyID sha3 "spend1" ≠ emptyBodyID sha3 "output1") :
    ∃ id body,
      (mapTx sha3 spendTxA).map (fun r => (r.1, r.2.1.writeForHash)) = some (id, .ok body) ∧
        (mapTx sha3 spendTxB).map (fun r => (r.1, r.2.1.writeForHash)) = some (id, .ok body) := by
  obtain ⟨body, hbody⟩ : ∃ body, (mappedHeader sha3 spendTxA).writeForHash = .ok body := ⟨_, rfl⟩
  obtain ⟨id, hid⟩ : ∃ id, entryID sha3 (.txHeader (mappedHeader sha3 spendTxA)) = some id :=
    ⟨_, rfl⟩
  have ha : (mapTx sha3 spendTxA).map (fun r => (r.1, r.2.1.writeForHash)) = some (id, .ok body) := by
    rw [map_writeForHash, mapTx_header, if_neg (by simp [hmux, hspend]), hid]
    simp [hbody]
  exact ⟨id, body, ha, (@mapTx_headerID_eq sha3 spendTxA spendTxB rfl rfl rfl rfl).symm.trans ha⟩

theorem mapTx_headerID_ignores_commitments_lengthHash :
    emptyBodyID (fun bs => ⟨bs.length.toUInt64, 0, 0, 0⟩) "mux1" ≠
        emptyBodyID (fun bs => ⟨bs.length.toUInt64, 0, 0, 0⟩) "output1" ∧
      emptyBodyID (fun bs => ⟨bs.length.toUInt64, 0, 0, 0⟩) "spend1" ≠
        emptyBodyID (fun bs => ⟨bs.length.toUInt64, 0, 0, 0⟩) "output1" ∧
      ∃ id body,
        (mapTx (fun bs => ⟨bs.length.toUInt64, 0, 0, 0⟩) spendTxA).map
            (fun r => (r.1, r.2.1.writeForHash)) = some (id, .ok body) ∧
          (mapTx (fun bs => ⟨bs.length.toUInt64, 0, 0, 0⟩) spendTxB).map
            (fun r => (r.1, r.2.1.writeForHash)) = some (id, .ok body) :=
  ⟨by decide, by decide, mapTx_headerID_ignores_commitments _ (by decide) (by decide)⟩

end Srcd.Transaction
