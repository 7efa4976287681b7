import Srcd.Library.Codec
import Srcd.Library.ExceptState
import Srcd.Library.BigEndian

/-! # The binary and text encoding of transactions (`core/transaction`)

`TxData.writeTo` writes a transaction as varints and varint-prefixed strings (`extend`), and
`MarshalText` writes that as hex; `UnmarshalText` decodes the hex and reads it back with
`readFrom`. The readers are methods on an `extend.Reader`, here `Reader`: the unread bytes as the
state of `ExceptT TxErr (StateM (List UInt8))`, which a failed read leaves as Go leaves the
reader.

The writers and the readers do not match. The spend commitment writes nothing, and the output
writer skips its commitment (`marshalText_spendCommitment`, `marshalText_outputCommitment`);
`ReadExtensibleString` never calls the callback that would parse a string, so no input is read
back with a `TypedInput`, and `TxOutput.readFrom` always fails, which `readFrom` ignores
(`unmarshalText_typedInput`, `unmarshalText_outputCommitment`).

Inputs and outputs are values, not pointers: no slice here holds a nil one. A failed
`readFrom` leaves the receiver half written; every caller drops it, and the model returns only
the error.
-/

namespace Srcd.Transaction
open Srcd.Library
set_option autoImplicit false

/-! ## Transactions -/

/-- `Hash`: four 64-bit words. -/
structure Hash where
  v0 : UInt64
  v1 : UInt64
  v2 : UInt64
  v3 : UInt64
  deriving DecidableEq, Repr, Inhabited

/-- `Hash.Bytes`: the words big-endian. -/
def Hash.bytes (h : Hash) : List UInt8 :=
  [h.v0, h.v1, h.v2, h.v3].flatMap fun v => lowBytes 8 v.toNat

/-- `AssetID` has the layout and the methods of `Hash`. -/
abbrev AssetID := Hash

structure AssetAmount where
  /-- `none`: a nil pointer -/
  assetId : Option AssetID
  amount : UInt64
  deriving DecidableEq, Repr, Inhabited

structure SpendCommitment where
  assetAmount : AssetAmount
  sourceID : Hash
  sourcePosition : UInt64
  vmVersion : UInt64
  controlProgram : List UInt8
  deriving DecidableEq, Repr, Inhabited

structure SpendInput where
  spendCommitmentSuffix : List UInt8
  arguments : List (List UInt8)
  spendCommitment : SpendCommitment
  deriving DecidableEq, Repr, Inhabited

structure CoinbaseInput where
  arbitrary : List UInt8
  deriving DecidableEq, Repr, Inhabited

/-- The implementations of `TypedInput`. -/
inductive TypedInput where
  | spend (inp : SpendInput)
  | coinbase (cb : CoinbaseInput)
  deriving DecidableEq, Repr

structure TxInput where
  assetVersion : UInt64
  commitmentSuffix : List UInt8
  witnessSuffix : List UInt8
  /-- `none`: the nil interface -/
  typedInput : Option TypedInput
  deriving DecidableEq, Repr, Inhabited

structure OutputCommitment where
  assetAmount : AssetAmount
  vmVersion : UInt64
  controlProgram : List UInt8
  deriving DecidableEq, Repr, Inhabited

structure TxOutput where
  assetVersion : UInt64
  outputCommitment : OutputCommitment
  commitmentSuffix : List UInt8
  deriving DecidableEq, Repr, Inhabited

/-- `TxData`; its zero value is `default`. -/
structure TxData where
  version : UInt64
  serializedSize : UInt64
  timeRange : UInt64
  inputs : List TxInput
  outputs : List TxOutput
  deriving DecidableEq, Repr, Inhabited

/-- The errors of the encoding. -/
inductive TxErr where
  /-- `errors.New(text)` -/
  | msg (text : String)
  /-- `extend.ErrRange`: value out of range -/
  | range
  /-- an error of `binary.ReadUvarint`, or `io.ErrUnexpectedEOF` -/
  | read (err : ReadErr)
  /-- an error of `hex.Decode` -/
  | hex (err : HexErr)
  /-- `trailing garbage (%d bytes)` -/
  | trailing (n : ℕ)
  deriving DecidableEq, Repr

/-- `SpendInputType`. -/
def spendInputType : UInt8 := 1

/-- `serRequired`, the only serialization flags accepted. -/
def serRequired : UInt8 := 0x7

def maxInt32 : ℕ := 2 ^ 31 - 1

def maxInt64 : ℕ := 2 ^ 63 - 1

/-! ## Writers (`extend`) -/

/-- `WriteVarint31` and `WriteVarint63`: `binary.PutUvarint` of a number at most `bound`. -/
def writeVarint (bound val : ℕ) : Except TxErr (List UInt8) :=
  if val > bound then .error .range else .ok (putUvarint val.toUInt64)

/-- `WriteVarint31`; its callers pass lengths, which `uint64` holds exactly. -/
def writeVarint31 (val : ℕ) : Except TxErr (List UInt8) := writeVarint maxInt32 val

def writeVarint63 (val : UInt64) : Except TxErr (List UInt8) := writeVarint maxInt64 val.toNat

def writeVarstr31 (str : List UInt8) : Except TxErr (List UInt8) := do
  let n ← writeVarint31 str.length
  pure (n ++ str)

def writeVarstrList (l : List (List UInt8)) : Except TxErr (List UInt8) := do
  let n ← writeVarint31 l.length
  let strs ← l.mapM writeVarstr31
  pure (n ++ strs.flatten)

/-- `WriteExtensibleString`: what `f` writes, then the suffix, as one string. -/
def writeExtensibleString (suffix : List UInt8) (f : Except TxErr (List UInt8)) :
    Except TxErr (List UInt8) := do
  let buf ← f
  writeVarstr31 (buf ++ suffix)

/-! ## Readers (`extend`) -/

/-- A method on an `extend.Reader`: the unread bytes are its state. -/
abbrev Reader := ExceptT TxErr (StateM (List UInt8))

/-- A reader of the standard library on the unread bytes, as a method. -/
def liftRead {α : Type} {ε : Type} (toErr : ε → TxErr) (f : List UInt8 → Except ε α × List UInt8) :
    Reader α :=
  ExceptT.mk fun s => ((f s).1.mapError toErr, (f s).2)

/-- `ReadByte`, and `io.ReadFull` of one byte. -/
def readByte : Reader UInt8 := do
  match ← get with
  | [] => throw (.read .eof)
  | b :: rest =>
    set rest
    pure b

/-- `ReadVarint31` and `ReadVarint63`: `binary.ReadUvarint`, at most `bound`. -/
def readVarint (bound : ℕ) : Reader ℕ := do
  let val ← liftRead .read readUvarint
  if val > bound then throw .range else pure val

def readVarint31 : Reader ℕ := readVarint maxInt32

def readVarint63 : Reader UInt64 := do
  let val ← readVarint maxInt64
  pure val.toUInt64

def readVarstr31 : Reader (List UInt8) := do
  let l ← readVarint31
  if l = 0 then pure []
  else
    let buf ← get
    if l > buf.length then throw (.read .unexpectedEOF)
    else
      set (buf.drop l)
      pure (buf.take l)

/-- The loop of `ReadVarstrList` with `nelts` strings to go: it stops at the first string that
fails, returning the strings read (the failed one as nil), the count left and the error. -/
def readVarstrLoop : ℕ → List (List UInt8) →
    StateM (List UInt8) (List (List UInt8) × ℕ × Option TxErr)
  | 0, result => pure (result, 0, none)
  | nelts + 1, result => do
    match ← readVarstr31.run with
    | .ok s => readVarstrLoop nelts (result ++ [s])
    | .error err => pure (result ++ [[]], nelts, some err)

/-- `ReadVarstrList`: the strings and the error, both returned; nil is the empty list. -/
def readVarstrList : StateM (List UInt8) (List (List UInt8) × Option TxErr) := do
  match ← readVarint31.run with
  | .error err => pure ([], some err)
  | .ok nelts =>
    if nelts = 0 then pure ([], none)
    else
      let (result, nelts, err) ← readVarstrLoop nelts []
      if result.length < nelts then pure (result, some (.read .unexpectedEOF))
      else pure (result, err)

/-- `ReadExtensibleString`: the string, all of it the suffix. The callback that would parse it
is never called (the call is commented out), so it is left out. -/
def readExtensibleString : Reader (List UInt8) := readVarstr31

/-- A read whose error is replaced by `errors.New(text)`. -/
def withMsg {α : Type} (text : String) (m : Reader α) : Reader α :=
  tryCatch m fun _ => throw (.msg text)

/-! ## Writing a transaction -/

/-- `writeInputCommitment`: the type of a spend input; `SpendCommitment.writeExtensibleString`
writes nothing (its body is commented out). -/
def TxInput.writeInputCommitment (t : TxInput) : Except TxErr (List UInt8) :=
  match t.typedInput with
  | some (.spend _) => .ok [spendInputType]
  | _ => .ok []

def TxInput.writeInputWitness (t : TxInput) : Except TxErr (List UInt8) :=
  match t.typedInput with
  | some (.spend inp) => writeVarstrList inp.arguments
  | _ => .ok []

def TxInput.writeTo (t : TxInput) : Except TxErr (List UInt8) := do
  let assetVersion ← (writeVarint63 t.assetVersion).mapError fun _ => .msg "write byte error"
  let commitment ← (writeExtensibleString t.commitmentSuffix t.writeInputCommitment).mapError
    fun _ => .msg "write byte error"
  let witness ← writeExtensibleString t.witnessSuffix t.writeInputWitness
  pure (assetVersion ++ commitment ++ witness)

/-- `TxOutput.writeTo`: the asset version and an empty witness; the call that would write the
commitment is commented out. -/
def TxOutput.writeTo (out : TxOutput) : Except TxErr (List UInt8) := do
  let assetVersion ← (writeVarint63 out.assetVersion).mapError fun _ => .msg "writing asset version"
  let witness ← (writeVarstr31 []).mapError fun _ => .msg "writing witness"
  pure (assetVersion ++ witness)

def TxData.writeTo (tx : TxData) (serflags : UInt8) : Except TxErr (List UInt8) := do
  let version ← (writeVarint63 tx.version).mapError fun _ => .msg "writing transaction version"
  let timeRange ← (writeVarint63 tx.timeRange).mapError
    fun _ => .msg "writing transaction maxtime"
  let nin ← (writeVarint31 tx.inputs.length).mapError fun _ => .msg "writing tx input count"
  let inputs ← tx.inputs.mapM TxInput.writeTo
  let nout ← (writeVarint31 tx.outputs.length).mapError fun _ => .msg "writing tx output count"
  let outputs ← tx.outputs.mapM TxOutput.writeTo
  pure ([serflags] ++ version ++ timeRange ++ nin ++ inputs.flatten ++ nout ++ outputs.flatten)

/-- `MarshalText`: the hex of `WriteTo`; when that fails, `MarshalText` returns `nil, nil`. -/
def TxData.marshalText (tx : TxData) : List UInt8 :=
  match tx.writeTo serRequired with
  | .ok buf => hexEncode buf
  | .error _ => []

/-! ## Reading a transaction -/

/-- `TxInput.readFrom` on a new input: the commitment and the witness are kept whole as
suffixes, and the input gets no `TypedInput`. -/
def TxInput.readFrom : Reader TxInput := do
  let assetVersion ← readVarint63
  let commitmentSuffix ← readExtensibleString
  let witnessSuffix ← readExtensibleString
  pure { assetVersion, commitmentSuffix, witnessSuffix, typedInput := none }

/-- `TxOutput.readFrom` on a new output: the output as far as it was read, and the error it
always returns. The commitment is read by `OutputCommitment.readFrom`, which is
`ReadExtensibleString`. -/
def TxOutput.readFrom : StateM (List UInt8) (TxOutput × TxErr) := do
  match ← readVarint63.run with
  | .error _ => pure (default, .msg "reading asset version")
  | .ok assetVersion =>
    match ← readExtensibleString.run with
    | .error _ => pure ({ (default : TxOutput) with assetVersion }, .msg "reading output commitment")
    | .ok commitmentSuffix =>
      -- read and ignore the (empty) output witness
      let _ ← readVarstr31.run
      pure ({ (default : TxOutput) with assetVersion, commitmentSuffix },
        .msg "reading output witness")

/-- The loop of `readFrom` over the inputs: the first input that fails ends it. -/
def readInputs : ℕ → Reader (List TxInput)
  | 0 => pure []
  | n + 1 => do
    let ti ← withMsg "reading input " TxInput.readFrom
    let rest ← readInputs n
    pure (ti :: rest)

/-- The loop of `readFrom` over the outputs: the error of each is ignored. -/
def readOutputs : ℕ → Reader (List TxOutput)
  | 0 => pure []
  | n + 1 => do
    let (out, _) ← (TxOutput.readFrom : StateM (List UInt8) (TxOutput × TxErr))
    let rest ← readOutputs n
    pure (out :: rest)

/-- `TxData.readFrom`: the inputs and outputs read are appended to the receiver's. -/
def TxData.readFrom (tx : TxData) : Reader TxData := do
  let startSerializedSize := (← get).length
  let serflags ← withMsg "reading serialization flags" readByte
  if serflags ≠ serRequired then throw (.msg "unsupported serflags")
  else
    let version ← withMsg "reading transaction version" readVarint63
    let timeRange ← readVarint63
    let nin ← withMsg "reading number of transaction inputs" readVarint31
    let inputs ← readInputs nin
    let nout ← withMsg "reading number of transaction outputs" readVarint31
    let outputs ← readOutputs nout
    let serializedSize := startSerializedSize - (← get).length
    pure { tx with
      version := version
      serializedSize := serializedSize.toUInt64
      timeRange := timeRange
      inputs := tx.inputs ++ inputs
      outputs := tx.outputs ++ outputs }

/-- `UnmarshalText` on the receiver `tx`. -/
def TxData.unmarshalText (tx : TxData) (p : List UInt8) : Except TxErr TxData := do
  let b ← (hexDecode p).mapError .hex
  match exec tx.readFrom b with
  | (.error err, _) => .error err
  | (.ok tx, rest) => if rest.length > 0 then .error (.trailing rest.length) else .ok tx

/-! ## What the writer leaves out -/

theorem TxInput.readFrom_returns : Returns TxInput.readFrom fun t => t.typedInput = none := by
  unfold TxInput.readFrom
  exact Returns.bind_any fun _ => Returns.bind_any fun _ => Returns.bind_any fun _ => Returns.pure rfl

/-- Every input read has no `TypedInput`. -/
theorem readInputs_returns (n : ℕ) :
    Returns (readInputs n) fun l => ∀ t ∈ l, t.typedInput = none := by
  induction n with
  | zero => exact Returns.pure fun _ h => absurd h List.not_mem_nil
  | succ n ih =>
    unfold readInputs
    refine Returns.bind (Returns.tryCatch TxInput.readFrom_returns fun _ => Returns.throw)
      fun ti hti => Returns.bind ih fun rest hrest => Returns.pure ?_
    intro t ht
    rcases List.mem_cons.mp ht with rfl | ht
    · exact hti
    · exact hrest t ht

/-- `TxOutput.readFrom` never reads a commitment. -/
theorem TxOutput.readFrom_commitment (s : List UInt8) :
    ((TxOutput.readFrom.run s).1).1.outputCommitment = default := by
  simp only [TxOutput.readFrom, bind, StateT.bind, pure, StateT.run]
  split
  rename_i r _ _
  cases r with
  | error => rfl
  | ok assetVersion =>
    simp only [StateT.bind]
    generalize ExceptT.run readExtensibleString _ = r
    obtain ⟨_ | _, _⟩ := r <;> rfl

theorem TxOutput.readFrom_returns :
    Returns (liftM TxOutput.readFrom : Reader (TxOutput × TxErr))
      fun r => r.1.outputCommitment = default :=
  Returns.lift TxOutput.readFrom_commitment

/-- Every output read has the zero commitment. -/
theorem readOutputs_returns (n : ℕ) :
    Returns (readOutputs n) fun l => ∀ o ∈ l, o.outputCommitment = default := by
  induction n with
  | zero => exact Returns.pure fun _ h => absurd h List.not_mem_nil
  | succ n ih =>
    unfold readOutputs
    refine Returns.bind TxOutput.readFrom_returns fun ⟨out, _⟩ hout =>
      Returns.bind ih fun rest hrest => Returns.pure ?_
    intro o ho
    rcases List.mem_cons.mp ho with rfl | ho
    · exact hout
    · exact hrest o ho

/-- What `readFrom` appends to the receiver: inputs without a `TypedInput`, outputs with the
zero commitment. -/
theorem TxData.readFrom_returns (tx : TxData) :
    Returns tx.readFrom fun tx' =>
      (∀ t ∈ tx'.inputs, t ∈ tx.inputs ∨ t.typedInput = none) ∧
        ∀ o ∈ tx'.outputs, o ∈ tx.outputs ∨ o.outputCommitment = default := by
  unfold TxData.readFrom
  refine Returns.bind_any fun _ => Returns.bind_any fun _ => Returns.ite (fun _ => Returns.throw)
    fun _ => Returns.bind_any fun _ => Returns.bind_any fun _ => Returns.bind_any fun _ => ?_
  refine Returns.bind (readInputs_returns _) fun inputs hin => Returns.bind_any fun _ =>
    Returns.bind (readOutputs_returns _) fun outputs hout => Returns.bind_any fun _ =>
      Returns.pure ⟨?_, ?_⟩
  · intro t ht
    rcases List.mem_append.mp ht with ht | ht
    · exact .inl ht
    · exact .inr (hin t ht)
  · intro o ho
    rcases List.mem_append.mp ho with ho | ho
    · exact .inl ho
    · exact .inr (hout o ho)

theorem TxData.unmarshalText_returns {tx tx' : TxData} {p : List UInt8}
    (h : tx.unmarshalText p = .ok tx') :
    (∀ t ∈ tx'.inputs, t ∈ tx.inputs ∨ t.typedInput = none) ∧
      ∀ o ∈ tx'.outputs, o ∈ tx.outputs ∨ o.outputCommitment = default := by
  unfold TxData.unmarshalText at h
  rcases hb : (hexDecode p).mapError TxErr.hex with err | b
  · rw [hb] at h
    cases h
  · rw [hb, except_ok_bind] at h
    rcases hrun : exec tx.readFrom b with ⟨_ | tx'', rest⟩
    · rw [hrun] at h
      cases h
    · rw [hrun] at h
      have htx : tx'' = tx' := by
        by_cases hrest : rest.length > 0
        · simp [hrest] at h
        · simpa [hrest] using h
      subst htx
      exact tx.readFrom_returns b tx'' rest hrun

/-- No input is read back with a `TypedInput`: `UnmarshalText` into a new transaction gives
inputs that are neither spends nor coinbases. -/
theorem unmarshalText_typedInput {p : List UInt8} {tx : TxData}
    (h : (default : TxData).unmarshalText p = .ok tx) : ∀ t ∈ tx.inputs, t.typedInput = none :=
  fun t ht => (TxData.unmarshalText_returns h).1 t ht |>.resolve_left List.not_mem_nil

/-- No output is read back with a commitment. -/
theorem unmarshalText_outputCommitment {p : List UInt8} {tx : TxData}
    (h : (default : TxData).unmarshalText p = .ok tx) :
    ∀ o ∈ tx.outputs, o.outputCommitment = default :=
  fun o ho => (TxData.unmarshalText_returns h).2 o ho |>.resolve_left List.not_mem_nil

/-- One spend of one argument, with one output. -/
def spendTx : TxData :=
  ⟨1, 0, 0,
    [⟨1, [], [], some (.spend ⟨[], [ [0xAA] ], ⟨⟨some ⟨1, 1, 1, 1⟩, 5⟩, ⟨1, 2, 3, 4⟩, 0, 1, [0x51]⟩⟩)⟩],
    [⟨1, ⟨⟨some ⟨1, 1, 1, 1⟩, 5⟩, 1, [0x51]⟩, []⟩]⟩

/-- A transaction with a spend or coinbase input, or with an output commitment other than the
zero one, is not read back from its text. -/
theorem unmarshalText_marshalText_ne {tx : TxData}
    (h : (∃ t ∈ tx.inputs, t.typedInput ≠ none) ∨ ∃ o ∈ tx.outputs, o.outputCommitment ≠ default) :
    (default : TxData).unmarshalText tx.marshalText ≠ .ok tx := by
  intro hrt
  rcases h with ⟨t, ht, hsome⟩ | ⟨o, ho, hcommit⟩
  · exact hsome (unmarshalText_typedInput hrt t ht)
  · exact hcommit (unmarshalText_outputCommitment hrt o ho)

theorem unmarshalText_marshalText_ne_spendTx :
    ((∃ t ∈ spendTx.inputs, t.typedInput ≠ none) ∨
        ∃ o ∈ spendTx.outputs, o.outputCommitment ≠ default) ∧
      (default : TxData).unmarshalText spendTx.marshalText ≠ .ok spendTx :=
  have h : (∃ t ∈ spendTx.inputs, t.typedInput ≠ none) ∨
      ∃ o ∈ spendTx.outputs, o.outputCommitment ≠ default := .inl (by decide)
  ⟨h, unmarshalText_marshalText_ne h⟩

/-- A spend of one argument with one output: the input comes back with its commitment and
witness as suffixes and no spend, and the output with the zero commitment. -/
theorem unmarshalText_marshalText_spendTx :
    (default : TxData).unmarshalText (TxData.marshalText
      ⟨1, 0, 0,
        [⟨1, [], [], some (.spend ⟨[], [ [0xAA] ],
          ⟨⟨some ⟨1, 1, 1, 1⟩, 5⟩, ⟨1, 2, 3, 4⟩, 0, 1, [0x51]⟩⟩)⟩],
        [⟨1, ⟨⟨some ⟨1, 1, 1, 1⟩, 5⟩, 1, [0x51]⟩, []⟩]⟩) =
      .ok ⟨1, 14, 0, [⟨1, [1], [1, 1, 0xAA], none⟩], [⟨1, ⟨⟨none, 0⟩, 0, []⟩, []⟩]⟩ := by
  decide

end Srcd.Transaction
