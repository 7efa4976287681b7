import Srcd.Transaction.Entry
import Srcd.Library.GoMap

/-! # The wrapped transaction (`MapTxWrap`, `map.go`)

`MapTxWrap` maps a transaction and then ranges over its entry map: each spend it meets marks the
output it spends, may be a gas input, and is the input of its ordinal. Since a spend writes
nothing for its ID, every spend `mapTx` adds goes under the one ID `emptyBodyID sha3 "spend1"`,
and each overwrites the one before (`mapTx_onlySpendAt`). An input whose spend was overwritten
keeps the zero hash in `InputIDs`, whatever order the loop visits the map in
(`wrapLoop_unclaimed`).
-/

namespace Srcd.Transaction
open Srcd.Library
set_option autoImplicit false

/-- `SRCAssetID` -/
def srcAssetID : AssetID :=
  ⟨0xffffffffffffffff, 0xffffffffffffffff, 0xffffffffffffffff, 0xffffffffffffffff⟩

/-- `TxWrap`, with its embedded `TxHeader`. -/
structure TxWrap where
  txHeader : TxHeader
  id : Hash
  entries : Hash → Option Entry
  inputIDs : List Hash
  spentOutputIDs : List Hash
  gasInputIDs : List Hash

/-- What the loop of `MapTxWrap` over the entries builds: `InputIDs`, the set `spentOutputIDs` as
a Go map, and `GasInputIDs`. -/
structure WrapAcc where
  inputIDs : List Hash
  spentOutputIDs : GoMap Hash Bool
  gasInputIDs : List Hash

/-- The body of the loop of `MapTxWrap` at the entry `e` under `id`: a spend marks the output it
spends, is a gas input when its destination carries `SRCAssetID`, and is the input of its ordinal
when there is one; any other entry is skipped. Reading the asset of the destination through a nil
pointer panics (`none`). -/
def wrapEntry (nInputs : ℕ) (acc : WrapAcc) (id : Hash) : Entry → Option WrapAcc
  | .spend s => do
    let spent := acc.spentOutputIDs.set s.spentOutputId true
    let dest ← s.witnessDestination
    let asset ← dest.value.assetId
    let gas := if asset = srcAssetID then acc.gasInputIDs ++ [id] else acc.gasInputIDs
    if s.ordinal.toNat ≥ nInputs then pure ⟨acc.inputIDs, spent, gas⟩
    else pure ⟨acc.inputIDs.set s.ordinal.toNat id, spent, gas⟩
  | _ => pure acc

/-- One visit of the loop: the entry under `id`, if there is one. -/
def wrapVisit (entries : Hash → Option Entry) (nInputs : ℕ) (acc : WrapAcc) (id : Hash) :
    Option WrapAcc :=
  match entries id with
  | some e => wrapEntry nInputs acc id e
  | none => pure acc

section
variable (sha3 : List UInt8 → Hash)

/-- `MapTxWrap`. The first loop visits the IDs of the entry map in the order `visit`, which Go
picks at random; the second ranges over `spentOutputIDs`, in the order of its keys. -/
def mapTxWrap (tx : TxData) (visit : List Hash) : Option TxWrap := do
  let (txID, txHeader, entries) ← mapTx sha3 tx
  let acc ← visit.foldlM (wrapVisit entries tx.inputs.length)
    ⟨List.replicate tx.inputs.length default, [], []⟩
  pure ⟨txHeader, txID, entries, acc.inputIDs, acc.spentOutputIDs.map Prod.fst, acc.gasInputIDs⟩

/-! ## Where the spends go -/

/-- No entry of the map is a spend but the one under `k₀`. -/
def OnlySpendAt (k₀ : Hash) (m : Hash → Option Entry) : Prop :=
  ∀ k s, m k = some (.spend s) → k = k₀

theorem OnlySpendAt.update_of_not_spend {k₀ : Hash} {m : Hash → Option Entry}
    (h : OnlySpendAt k₀ m) (k : Hash) {v : Option Entry} (hv : ∀ s, v ≠ some (.spend s)) :
    OnlySpendAt k₀ (Function.update m k v) := by
  intro k' s hk'
  by_cases hkk : k' = k
  · subst hkk
    rw [Function.update_self] at hk'
    exact absurd hk' (hv s)
  · rw [Function.update_of_ne hkk] at hk'
    exact h k' s hk'

theorem OnlySpendAt.update_self {k₀ : Hash} {m : Hash → Option Entry} (h : OnlySpendAt k₀ m)
    (v : Option Entry) : OnlySpendAt k₀ (Function.update m k₀ v) := by
  intro k' s hk'
  by_cases hkk : k' = k₀
  · exact hkk
  · rw [Function.update_of_ne hkk] at hk'
    exact h k' s hk'

/-- Adding an entry keeps the spends under the ID of spends. -/
theorem addEntry_onlySpendAt {m m' : Hash → Option Entry} {e : Entry} {id : Hash}
    (h : OnlySpendAt (emptyBodyID sha3 "spend1") m) (hadd : addEntry sha3 m e = some (id, m')) :
    OnlySpendAt (emptyBodyID sha3 "spend1") m' := by
  cases e with
  | spend s =>
    rw [addEntry_spend] at hadd
    obtain ⟨-, rfl⟩ := Prod.mk.inj (Option.some.inj hadd)
    exact h.update_self _
  | txHeader x =>
    obtain ⟨id', -, hid⟩ := Option.map_eq_some_iff.mp hadd
    obtain ⟨-, rfl⟩ := Prod.mk.inj hid
    exact h.update_of_not_spend _ fun s hs => by cases hs
  | mux x =>
    obtain ⟨id', -, hid⟩ := Option.map_eq_some_iff.mp hadd
    obtain ⟨-, rfl⟩ := Prod.mk.inj hid
    exact h.update_of_not_spend _ fun s hs => by cases hs
  | output x =>
    obtain ⟨id', -, hid⟩ := Option.map_eq_some_iff.mp hadd
    obtain ⟨-, rfl⟩ := Prod.mk.inj hid
    exact h.update_of_not_spend _ fun s hs => by cases hs

/-- The loop over the inputs keeps the spends under the ID of spends. -/
theorem mapInputs_onlySpendAt : ∀ (ins : List TxInput) (i : ℕ) (m m' : Hash → Option Entry)
    (srcs : List (Option ValueSource)) (spends : List Spend),
    OnlySpendAt (emptyBodyID sha3 "spend1") m → mapInputs sha3 i m ins = some (m', srcs, spends) →
      OnlySpendAt (emptyBodyID sha3 "spend1") m' := by
  intro ins
  induction ins with
  | nil =>
    intro i m m' srcs spends h hrun
    obtain ⟨rfl, -⟩ := Prod.mk.inj (Option.some.inj hrun)
    exact h
  | cons input rest ih =>
    intro i m m' srcs spends h hrun
    unfold mapInputs at hrun
    split at hrun
    · -- a spend input adds its prevout and then its spend
      simp only [addEntry_output, addEntry_spend, Option.bind_eq_bind, Option.bind_some] at hrun
      obtain ⟨⟨m'', srcs'', spends''⟩, hr, hr'⟩ := Option.bind_eq_some_iff.mp hrun
      obtain ⟨rfl, -⟩ := Prod.mk.inj (Option.some.inj hr')
      refine ih _ _ _ _ _ ?_ hr
      exact (h.update_of_not_spend _ fun s hs => by cases hs).update_self _
    · obtain ⟨⟨m'', srcs'', spends''⟩, hr, hr'⟩ := Option.bind_eq_some_iff.mp hrun
      obtain ⟨rfl, -⟩ := Prod.mk.inj (Option.some.inj hr')
      exact ih _ _ _ _ _ h hr

/-- The loop over the outputs adds outputs only. -/
theorem mapOutputs_onlySpendAt (muxID : Hash) : ∀ (outs : List TxOutput) (i : ℕ)
    (m m' : Hash → Option Entry) (ids : List Hash) (dests : List ValueDestination),
    OnlySpendAt (emptyBodyID sha3 "spend1") m →
      mapOutputs sha3 muxID i m outs = some (m', ids, dests) →
      OnlySpendAt (emptyBodyID sha3 "spend1") m' := by
  intro outs
  induction outs with
  | nil =>
    intro i m m' ids dests h hrun
    obtain ⟨rfl, -⟩ := Prod.mk.inj (Option.some.inj hrun)
    exact h
  | cons out rest ih =>
    intro i m m' ids dests h hrun
    simp only [mapOutputs, addEntry_output, Option.bind_eq_bind, Option.bind_some] at hrun
    obtain ⟨⟨m'', ids'', dests''⟩, hr, hr'⟩ := Option.bind_eq_some_iff.mp hrun
    obtain ⟨rfl, -⟩ := Prod.mk.inj (Option.some.inj hr')
    exact ih _ _ _ _ _ (h.update_of_not_spend _ fun s hs => by cases hs) hr

/-- Every spend of a mapped transaction is under the one ID of spends: the entry map holds at
most one spend, whatever the number of spend inputs. -/
theorem mapTx_onlySpendAt {tx : TxData} {hid : Hash} {hdr : TxHeader}
    {entries : Hash → Option Entry} (h : mapTx sha3 tx = some (hid, hdr, entries)) :
    OnlySpendAt (emptyBodyID sha3 "spend1") entries := by
  obtain ⟨m₁, srcs, spends, hin, -⟩ := mapInputs_spec sha3 tx.inputs 0 (fun _ => none)
  have h₁ := mapInputs_onlySpendAt sha3 _ _ _ _ _ _ (fun _ _ h => by cases h) hin
  have h₂ := h₁.update_of_not_spend (emptyBodyID sha3 "mux1")
    (v := some (.mux ⟨srcs, ⟨1, [opTrue]⟩, []⟩)) fun s hs => by cases hs
  obtain ⟨m₃, dests, hout⟩ := mapOutputs_spec sha3 (emptyBodyID sha3 "mux1") tx.outputs 0
    (Function.update m₁ (emptyBodyID sha3 "mux1") (some (.mux ⟨srcs, ⟨1, [opTrue]⟩, []⟩)))
  have h₃ := mapOutputs_onlySpendAt sha3 _ _ _ _ _ _ _ h₂ hout
  unfold mapTx at h
  simp only [hin, addEntry_mux, hout, Option.bind_eq_bind, Option.bind_some] at h
  obtain ⟨spends', -, h⟩ := Option.bind_eq_some_iff.mp h
  obtain ⟨⟨id, m₄⟩, hadd, h⟩ := Option.bind_eq_some_iff.mp h
  obtain ⟨-, hrest⟩ := Prod.mk.inj (Option.some.inj h)
  obtain ⟨-, rfl⟩ := Prod.mk.inj hrest
  have h₄ := addEntry_onlySpendAt sha3 h₃ hadd
  intro k s hk
  obtain ⟨e, he, hes⟩ := Option.map_eq_some_iff.mp hk
  cases e with
  | spend s' => exact h₄ k s' he
  | txHeader x => cases hes
  | mux x => cases hes
  | output x => cases hes

end

/-! ## The loop over the entries -/

section
variable (entries : Hash → Option Entry) (n : ℕ)

/-- No spend of the map has `j` as its ordinal. -/
def Unclaimed (j : ℕ) : Prop := ∀ k s, entries k = some (.spend s) → s.ordinal.toNat ≠ j

/-- Every spend of the map has a destination whose asset is set, so the loop does not panic. -/
def Connected : Prop :=
  ∀ k s, entries k = some (.spend s) → ∃ d a, s.witnessDestination = some d ∧ d.value.assetId = some a

/-- One visit keeps the length of `InputIDs`, and what it holds at an index no spend claims. -/
theorem wrapVisit_spec (hconn : Connected entries) (acc : WrapAcc) (k : Hash) :
    ∃ acc', wrapVisit entries n acc k = some acc' ∧ acc'.inputIDs.length = acc.inputIDs.length ∧
      ∀ j, Unclaimed entries j → acc'.inputIDs[j]? = acc.inputIDs[j]? := by
  unfold wrapVisit
  split
  · rename_i e he
    cases e with
    | spend s =>
      obtain ⟨d, a, hd, ha⟩ := hconn k s he
      simp only [wrapEntry, hd, ha, Option.bind_eq_bind, Option.bind_some]
      split
      · exact ⟨_, rfl, rfl, fun _ _ => rfl⟩
      · refine ⟨_, rfl, List.length_set, fun j hj => ?_⟩
        exact List.getElem?_set_ne (hj k s he)
    | txHeader x => exact ⟨acc, rfl, rfl, fun _ _ => rfl⟩
    | mux x => exact ⟨acc, rfl, rfl, fun _ _ => rfl⟩
    | output x => exact ⟨acc, rfl, rfl, fun _ _ => rfl⟩
  · exact ⟨acc, rfl, rfl, fun _ _ => rfl⟩

/-- In whatever order the loop visits the map, it does not panic, and an index of `InputIDs` no
spend claims keeps what it held. -/
theorem wrapLoop_unclaimed (hconn : Connected entries) :
    ∀ (visit : List Hash) (acc : WrapAcc), ∃ acc', visit.foldlM (wrapVisit entries n) acc = some acc' ∧
      acc'.inputIDs.length = acc.inputIDs.length ∧
      ∀ j, Unclaimed entries j → acc'.inputIDs[j]? = acc.inputIDs[j]? := by
  intro visit
  induction visit with
  | nil => exact fun acc => ⟨acc, rfl, rfl, fun _ _ => rfl⟩
  | cons k visit ih =>
    intro acc
    obtain ⟨acc₁, h₁, hlen₁, hkeep₁⟩ := wrapVisit_spec entries n hconn acc k
    obtain ⟨acc₂, h₂, hlen₂, hkeep₂⟩ := ih acc₁
    refine ⟨acc₂, ?_, hlen₂.trans hlen₁, fun j hj => (hkeep₂ j hj).trans (hkeep₁ j hj)⟩
    rw [List.foldlM_cons, h₁]
    exact h₂

end

section
variable (sha3 : List UInt8 → Hash)

/-- `MapTxWrap` of a transaction whose entries are connected: whatever the order of its visit, the
wrapped transaction has an input ID for each input, the zero hash where no spend of the entry map
has that ordinal. -/
theorem mapTxWrap_unclaimed {tx : TxData} {hid : Hash} {hdr : TxHeader}
    {entries : Hash → Option Entry} (h : mapTx sha3 tx = some (hid, hdr, entries))
    (hconn : Connected entries) (visit : List Hash) :
    ∃ w, mapTxWrap sha3 tx visit = some w ∧ w.entries = entries ∧ w.txHeader = hdr ∧
      w.inputIDs.length = tx.inputs.length ∧
      ∀ j < tx.inputs.length, Unclaimed entries j → w.inputIDs[j]? = some default := by
  obtain ⟨acc, hloop, hlen, hkeep⟩ := wrapLoop_unclaimed entries tx.inputs.length hconn visit
    ⟨List.replicate tx.inputs.length default, [], []⟩
  refine ⟨⟨hdr, hid, entries, acc.inputIDs, acc.spentOutputIDs.map Prod.fst, acc.gasInputIDs⟩, ?_,
    rfl, rfl, by simpa using hlen, fun j hj hun => ?_⟩
  · simp only [mapTxWrap, h, hloop, Option.bind_eq_bind, Option.bind_some]
    rfl
  · rw [hkeep j hun]
    simp [hj]

end

/-- A stand-in for SHA3 that hashes bytes to their number: it tells the entry types apart. -/
def lengthHash (bs : List UInt8) : Hash := ⟨bs.length.toUInt64, 0, 0, 0⟩

/-- Two spends, of distinct outputs (sources `1` and `2`), to two outputs. -/
def twoSpendTx : TxData :=
  ⟨1, 0, 0,
    [⟨1, [], [], some (.spend ⟨[], [], ⟨⟨some ⟨1, 1, 1, 1⟩, 5⟩, ⟨1, 0, 0, 0⟩, 0, 1, [0x51]⟩⟩)⟩,
      ⟨1, [], [], some (.spend ⟨[], [], ⟨⟨some ⟨1, 1, 1, 1⟩, 7⟩, ⟨2, 0, 0, 0⟩, 0, 1, [0x51]⟩⟩)⟩],
    [⟨1, ⟨⟨some ⟨1, 1, 1, 1⟩, 5⟩, 1, [0x51]⟩, []⟩, ⟨1, ⟨⟨some ⟨1, 1, 1, 1⟩, 7⟩, 1, [0x51]⟩, []⟩]⟩

/-- The spend `twoSpendTx` keeps: the second, connected to the mux. -/
def twoSpendTxSpend : Spend :=
  ⟨emptyBodyID lengthHash "output1",
    some ⟨emptyBodyID lengthHash "mux1", ⟨some ⟨1, 1, 1, 1⟩, 7⟩, 1⟩, [], 1⟩

theorem mapTxWrap_twoSpends_collapse :
    ∃ hid hdr entries, mapTx lengthHash twoSpendTx = some (hid, hdr, entries) ∧
      (∀ k s, entries k = some (.spend s) →
        k = emptyBodyID lengthHash "spend1" ∧ s = twoSpendTxSpend) ∧
      hdr.resultIds = [emptyBodyID lengthHash "output1", emptyBodyID lengthHash "output1"] ∧
      ∀ visit, ∃ w, mapTxWrap lengthHash twoSpendTx visit = some w ∧
        w.inputIDs[0]? = some default := by
  obtain ⟨⟨hid, hdr, entries⟩, hmap⟩ : ∃ r, mapTx lengthHash twoSpendTx = some r := ⟨_, rfl⟩
  have hspend : entries (emptyBodyID lengthHash "spend1") = some (.spend twoSpendTxSpend) := by
    have h := congrArg (Option.map fun r => r.2.2 (emptyBodyID lengthHash "spend1")) hmap
    rw [show (mapTx lengthHash twoSpendTx).map (fun r => r.2.2 (emptyBodyID lengthHash "spend1")) =
      some (some (.spend twoSpendTxSpend)) from rfl] at h
    exact (Option.some.inj h).symm
  have hres : hdr.resultIds = [emptyBodyID lengthHash "output1", emptyBodyID lengthHash "output1"] := by
    have h := congrArg (Option.map fun r => r.2.1.resultIds) hmap
    rw [show (mapTx lengthHash twoSpendTx).map (fun r => r.2.1.resultIds) =
      some [emptyBodyID lengthHash "output1", emptyBodyID lengthHash "output1"] from rfl] at h
    exact (Option.some.inj h).symm
  have honly : ∀ k s, entries k = some (.spend s) →
      k = emptyBodyID lengthHash "spend1" ∧ s = twoSpendTxSpend := by
    intro k s hk
    obtain rfl := mapTx_onlySpendAt lengthHash hmap k s hk
    rw [hspend] at hk
    exact ⟨rfl, by cases hk; rfl⟩
  refine ⟨hid, hdr, entries, hmap, honly, hres, fun visit => ?_⟩
  have hconn : Connected entries := by
    intro k s hk
    obtain ⟨-, rfl⟩ := honly k s hk
    exact ⟨_, _, rfl, rfl⟩
  obtain ⟨w, hw, -, -, -, hzero⟩ := mapTxWrap_unclaimed lengthHash hmap hconn visit
  refine ⟨w, hw, hzero 0 (by decide) fun k s hk => ?_⟩
  obtain ⟨-, rfl⟩ := honly k s hk
  decide

end Srcd.Transaction
