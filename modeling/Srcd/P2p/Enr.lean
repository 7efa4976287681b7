import Srcd.Rlp.Reader
import Srcd.Library.SortedKeys

/-! # Node records (`p2p/enr/enr.go`)

A record holds a sequence number, a signature, its encoding once signed and key/value pairs
kept in order of key. Keys are Go strings, compared byte by byte: byte lists in lexicographic
order. A value is the RLP encoding `Set` made of its entry, kept raw; `Load` decodes it with the
entry's decoder.

`Set` keeps the pairs strictly increasing and `Load` finds what the last `Set` of a key stored
(`Sorted.set`, `setAll_spec`, `load_eq`). A record signed by `SetSig` decodes back to itself from what
`EncodeRLP` writes (`decodeRLP_encodeRLP`), and `DecodeRLP` accepts only pairs strictly
increasing in their keys (`decodeRLP_sorted`).

An identity scheme sees a record through `Load` and `AppendElements` only, that is through its
sequence number and its pairs; it is modelled as a function of these and of the signature. The
registry of schemes is an argument. `NodeAddr` is left out.
-/

namespace Srcd.P2p
open Srcd.Library Srcd.Rlp
set_option autoImplicit false

/-- `SizeLimit`: the maximum encoded size of a node record in bytes. -/
def sizeLimit : ℕ := 300

/-- The errors of the package, with the stream's passed on. -/
inductive EnrErr where
  | noID
  | invalidSig
  | notSorted
  | duplicateKey
  | incompletePair
  | tooBig
  | encodeUnsigned
  | notFound
  /-- the `panic`s of `SetSig` -/
  | panic
  | rlp (err : Err)
  deriving DecidableEq, Repr

/-- `KeyError`: the error of a `Load`, with the key. -/
structure KeyError where
  key : List UInt8
  err : EnrErr
  deriving DecidableEq, Repr

/-- `pair`: a key and the raw value under it. -/
structure Pair where
  k : List UInt8
  v : List UInt8
  deriving DecidableEq, Repr, Inhabited

/-- `Record`. A nil signature is `none`; a nil encoding is `[]`, which no encoding is. -/
structure Record where
  seq : UInt64
  signature : Option (List UInt8)
  raw : List UInt8
  pairs : List Pair
  deriving DecidableEq, Repr

/-- An identity scheme: `Verify`, on the sequence number and the pairs it reads of the record,
and on the signature. -/
structure IdentityScheme where
  verify : UInt64 → List Pair → List UInt8 → Except EnrErr Unit

/-- The key of the `ID` entry, `"id"`. -/
def idKey : List UInt8 := [0x69, 0x64]

/-- `rlp.DecodeBytes` into a Go string, the decoder `Load` runs for an `ID`. -/
def decodeStringBytes (b : List UInt8) : Except EnrErr (List UInt8) :=
  match decodeBytes 0 .string b with
  | .ok (.string s) => .ok s
  | .ok _ => .error (.rlp .typeMismatch)
  | .error err => .error (.rlp err)

/-- The `sort.Search` of `Load` and `Set`: the first pair whose key is not below `key`. -/
def searchPairs (pairs : List Pair) (key : List UInt8) : ℕ :=
  search pairs.length fun i => decide (key ≤ (pairs.getD i default).k)

/-- The dynamic types of the values `encode` puts in its `[]interface{}`. -/
inductive Elem where
  /-- a `[]byte` -/
  | bytes (b : List UInt8)
  /-- a `uint64` -/
  | uint (n : UInt64)
  /-- a `string` -/
  | string (s : List UInt8)
  /-- an `rlp.RawValue` -/
  | raw (v : List UInt8)
  deriving DecidableEq, Repr

/-- The writer `writeInterface` runs for an element: the one of its dynamic type. -/
def Elem.write : Elem → Encbuf → Encbuf
  | .bytes b, w => writeBytes b w
  | .uint n, w => writeUint n.toNat w
  | .string s, w => writeString s w
  -- writeRawValue
  | .raw v, w => w.appendStr v

/-- `rlp.EncodeToBytes` of a `[]interface{}`: its elements written inside one list. -/
def encodeElems (list : List Elem) : List UInt8 :=
  let (lh, w) := Encbuf.empty.list
  ((list.foldl (fun w e => e.write w) w).listEnd lh).toBytes

namespace Record

/-- The zero value, an empty record. -/
def empty : Record := ⟨0, none, [], []⟩

/-- `Signed`. -/
def signed (r : Record) : Bool := r.signature.isSome

/-- `invalidate`: an unsigned record gets the next sequence number; the signature and the
encoding are dropped. -/
def invalidate (r : Record) : Record :=
  { r with seq := if r.signature.isNone then r.seq + 1 else r.seq, signature := none, raw := [] }

/-- `Set`, given the entry's encoding `blob` (`rlp.EncodeToBytes(e)`). -/
def set (r : Record) (key blob : List UInt8) : Record :=
  let r := r.invalidate
  let pairs := r.pairs
  let i := searchPairs pairs key
  if h : i < pairs.length then
    -- element is present at r.pairs[i]
    if pairs[i].k = key then { r with pairs := pairs.set i { pairs[i] with v := blob } }
    -- insert pair before i-th elem
    else { r with pairs := pairs.take i ++ ⟨key, blob⟩ :: pairs.drop i }
  -- element should be placed at the end of r.pairs
  else { r with pairs := pairs ++ [⟨key, blob⟩] }

/-- `Load`, given the entry's decoder (`rlp.DecodeBytes` into the entry). -/
def load {α : Type} (r : Record) (key : List UInt8) (decode : List UInt8 → Except EnrErr α) :
    Except KeyError α :=
  let i := searchPairs r.pairs key
  if h : i < r.pairs.length then
    if r.pairs[i].k = key then (decode r.pairs[i].v).mapError (KeyError.mk key)
    else .error ⟨key, .notFound⟩
  else .error ⟨key, .notFound⟩

/-- `idScheme`, with the registry `schemes` (`FindIdentityScheme`). -/
def idScheme (schemes : List UInt8 → Option IdentityScheme) (r : Record) :
    List UInt8 × Option IdentityScheme :=
  match r.load idKey decodeStringBytes with
  | .error _ => ([], none)
  | .ok id => (id, schemes id)

/-- A record after `Set` calls, one for each key and encoding of `ops` in order. -/
def setAll (r : Record) (ops : List (List UInt8 × List UInt8)) : Record :=
  ops.foldl (fun r op => r.set op.1 op.2) r

/-- `AppendElements`: the sequence number, then each key and value. -/
def appendElements (r : Record) (list : List Elem) : List Elem :=
  list ++ .uint r.seq :: r.pairs.flatMap fun p => [.string p.k, .raw p.v]

/-- `encode`: the signature and the elements, encoded as one list, within the size limit. -/
def encode (r : Record) (sig : List UInt8) : Except EnrErr (List UInt8) :=
  let raw := encodeElems (r.appendElements [.bytes sig])
  if raw.length > sizeLimit then .error .tooBig else .ok raw

/-- `SetSig`; its `panic`s are the error `panic`. -/
def setSig (schemes : List UInt8 → Option IdentityScheme) (r : Record) (idscheme : List UInt8)
    (sig : Option (List UInt8)) : Except EnrErr Record :=
  match r.idScheme schemes with
  | (_, none) => .error .panic
  | (id, some s) =>
    if id ≠ idscheme then .error .panic
    else do
      s.verify r.seq r.pairs (sig.getD [])
      let raw ← r.encode (sig.getD [])
      pure { r with signature := sig, raw := raw }

/-- `EncodeRLP`: what it writes. -/
def encodeRLP (r : Record) : Except EnrErr (List UInt8) :=
  if r.signed then .ok r.raw else .error .encodeUnsigned

end Record

/-- `DecodeRLP` and its loop, on the stream they read. -/
abbrev DecodeM (α : Type) := ExceptT EnrErr (StateM Stream) α

/-- A stream method whose error `DecodeRLP` returns as it is. -/
def liftRlp {α : Type} (m : StreamM α) : DecodeM α := ExceptT.adapt EnrErr.rlp m

/-- The loop of `DecodeRLP` over the pairs, at the `i`-th pair, after the key `prevkey`, with the
pairs decoded so far. Each round reads a pair, so the length of the input is fuel enough; out of
fuel the loop stops as at the end of the list. -/
def decodePairs (i : ℕ) (prevkey : List UInt8) (pairs : List Pair) : ℕ → DecodeM (List Pair)
  | 0 => pure pairs
  | fuel + 1 => do
    match ← liftRlp (attempt (wrap bytes)) with
    | .error .eol => pure pairs
    | .error err => throw (.rlp err)
    | .ok k =>
      match ← liftRlp (attempt raw) with
      | .error .eol => throw .incompletePair
      | .error err => throw (.rlp err)
      | .ok v =>
        if i > 0 then
          if k = prevkey then throw .duplicateKey
          if k < prevkey then throw .notSorted
        decodePairs (i + 1) k (pairs ++ [⟨k, v⟩]) fuel

/-- `DecodeRLP` after `Raw`: the container, decoded from a new stream over `raw`. -/
def decodeRaw (schemes : List UInt8 → Option IdentityScheme) (raw : List UInt8) :
    DecodeM Record := do
  let _ ← liftRlp list
  let signature ← liftRlp (wrap bytes)
  let seq ← liftRlp (wrap (uint 64))
  -- The rest of the record contains sorted k/v pairs.
  let pairs ← decodePairs 0 [] [] raw.length
  liftRlp listEnd
  let dec : Record := ⟨UInt64.ofNat seq, some signature, raw, pairs⟩
  match dec.idScheme schemes with
  | (_, none) => throw .noID
  | (_, some scheme) =>
    match scheme.verify dec.seq dec.pairs signature with
    | .error err => throw err
    | .ok () => pure dec

/-- `DecodeRLP`, returning the record it sets. -/
def decodeRLP (schemes : List UInt8 → Option IdentityScheme) : DecodeM Record := do
  let raw ← liftRlp Rlp.raw
  if raw.length > sizeLimit then throw .tooBig
  -- Decode the RLP container.
  match (exec (decodeRaw schemes raw) (newStream raw)).1 with
  | .ok dec => pure dec
  | .error err => throw err

/-! ## The pairs as a map -/

/-- The pairs are strictly increasing in their keys. -/
def Sorted (pairs : List Pair) : Prop := pairs.Pairwise fun a b => a.k < b.k

/-- The value under `key`. -/
def valueOf (pairs : List Pair) (key : List UInt8) : Option (List UInt8) :=
  (pairs.find? fun p => decide (p.k = key)).map Pair.v

/-- The value stored by the last of `ops` for `key`. -/
def lastSet (ops : List (List UInt8 × List UInt8)) (key : List UInt8) : Option (List UInt8) :=
  (ops.reverse.find? fun op => decide (op.1 = key)).map Prod.snd

section Map
variable {pairs : List Pair}

theorem sorted_nil : Sorted [] := List.Pairwise.nil

/-- Where the search of `Set` and `Load` stops in sorted pairs: the pairs below `key`, the pair
of `key` if there is one, the pairs above. The three branches of `Set` are the three ways the
search can end. -/
theorem searchPairs_split (hs : Sorted pairs) (key : List UInt8) :
    (∀ y ∈ pairs.take (searchPairs pairs key), y.k < key) ∧
    ∀ (h : searchPairs pairs key < pairs.length),
      (∀ y ∈ pairs.drop (searchPairs pairs key + 1), key < y.k) ∧
      (pairs[searchPairs pairs key].k ≠ key →
        ∀ y ∈ pairs.drop (searchPairs pairs key), key < y.k) := by
  obtain ⟨hlo, hhi⟩ := search_key_split hs key default
  refine ⟨hlo, fun h => ⟨fun y hy => ?_, fun hne y hy => ?_⟩⟩
  · have hat := hhi _ (List.drop_eq_getElem_cons h ▸ List.mem_cons_self)
    exact Std.lt_of_le_of_lt hat (key_lt_of_mem_drop hs h y hy)
  · have hat := hhi _ (List.drop_eq_getElem_cons h ▸ List.mem_cons_self)
    rw [List.drop_eq_getElem_cons h] at hy
    rcases List.mem_cons.mp hy with rfl | hy
    · exact Std.lt_of_le_of_ne hat (Ne.symm hne)
    · exact Std.lt_of_le_of_lt hat (key_lt_of_mem_drop hs h y hy)

/-- `Set` on sorted pairs puts the new pair between the pairs below and above its key, in place of
the pair of its key if there is one. -/
theorem set_split (r : Record) (hs : Sorted r.pairs) (key blob : List UInt8) :
    ∃ lo mid hi, r.pairs = lo ++ mid ++ hi ∧ (r.set key blob).pairs = lo ++ ⟨key, blob⟩ :: hi ∧
      (∀ y ∈ lo, y.k < key) ∧ (∀ y ∈ mid, y.k = key) ∧ ∀ y ∈ hi, key < y.k := by
  obtain ⟨hlo, hhi⟩ := searchPairs_split hs key
  by_cases h : searchPairs r.pairs key < r.pairs.length
  · obtain ⟨hnext, hfrom⟩ := hhi h
    have hsplit := List.drop_eq_getElem_cons h
    by_cases heq : r.pairs[searchPairs r.pairs key].k = key
    · -- the pair of `key` is replaced
      have hset : (r.set key blob).pairs = r.pairs.set (searchPairs r.pairs key) ⟨key, blob⟩ := by
        simp [Record.set, Record.invalidate, h, heq]
      refine ⟨_, [r.pairs[searchPairs r.pairs key]], _, ?_, ?_, hlo, by simpa using heq, hnext⟩
      · rw [List.append_assoc, List.singleton_append, ← hsplit, List.take_append_drop]
      · rw [hset, List.set_eq_take_append_cons_drop, if_pos h]
    · -- a pair is put in front of the first pair of a larger key
      have hset : (r.set key blob).pairs = r.pairs.take (searchPairs r.pairs key) ++
          ⟨key, blob⟩ :: r.pairs.drop (searchPairs r.pairs key) := by
        simp [Record.set, Record.invalidate, h, heq]
      exact ⟨_, [], _, by rw [List.append_nil, List.take_append_drop], hset, hlo, by simp, hfrom heq⟩
  · -- the pair goes last
    have hset : (r.set key blob).pairs = r.pairs ++ [⟨key, blob⟩] := by
      simp [Record.set, Record.invalidate, h]
    have htake : r.pairs.take (searchPairs r.pairs key) = r.pairs := List.take_of_length_le (by omega)
    exact ⟨r.pairs, [], [], by simp, hset, htake ▸ hlo, by simp, by simp⟩

/-- `Set` keeps the pairs strictly increasing. -/
theorem Sorted.set {r : Record} (hs : Sorted r.pairs) (key blob : List UInt8) :
    Sorted (r.set key blob).pairs := by
  obtain ⟨lo, mid, hi, hpairs, hset, hlo, -, hhi⟩ := set_split r hs key blob
  have hparts := hpairs ▸ hs
  rw [Sorted, List.pairwise_append, List.pairwise_append] at hparts
  rw [hset]
  exact pairwise_put hparts.1.1 hparts.2.1 hlo hhi

/-- After `Set` the value under `key` is `blob`; under every other key it is what it was. -/
theorem valueOf_set {r : Record} (hs : Sorted r.pairs) (key blob key' : List UInt8) :
    valueOf (r.set key blob).pairs key' = if key = key' then some blob else valueOf r.pairs key' := by
  obtain ⟨lo, mid, hi, hpairs, hset, hlo, hmid, -⟩ := set_split r hs key blob
  have hput : (lo ++ ⟨key, blob⟩ :: hi).find? (fun p => decide (p.k = key')) =
      if key = key' then some ⟨key, blob⟩
      else (lo ++ mid ++ hi).find? (fun p => decide (p.k = key')) :=
    find?_put hlo hmid key'
  rw [valueOf, hset, hput, valueOf, hpairs]
  split_ifs <;> rfl

/-- `Load` on sorted pairs decodes the value under the key, if there is one. -/
theorem load_eq {α : Type} {r : Record} (hs : Sorted r.pairs) (key : List UInt8)
    (decode : List UInt8 → Except EnrErr α) :
    r.load key decode = match valueOf r.pairs key with
      | some v => (decode v).mapError (KeyError.mk key)
      | none => .error ⟨key, .notFound⟩ := by
  obtain ⟨hlo, hhi⟩ := searchPairs_split hs key
  have hnone : ∀ l : List Pair, (∀ y ∈ l, y.k ≠ key) → l.find? (fun p => decide (p.k = key)) = none :=
    fun l hl => List.find?_eq_none.mpr fun y hy => by simpa using hl y hy
  have hfind : r.pairs.find? (fun p => decide (p.k = key)) =
      (r.pairs.drop (searchPairs r.pairs key)).find? (fun p => decide (p.k = key)) := by
    conv_lhs => rw [← List.take_append_drop (searchPairs r.pairs key) r.pairs]
    rw [List.find?_append, hnone _ fun y hy => Std.ne_of_lt (hlo y hy), Option.none_or]
  simp only [Record.load]
  split
  · rename_i h
    obtain ⟨-, hfrom⟩ := hhi h
    rw [valueOf, hfind, List.drop_eq_getElem_cons h]
    split
    · rename_i heq
      rw [List.find?_cons_of_pos (by simpa using heq)]
      rfl
    · rename_i hne
      rw [List.find?_cons_of_neg (by simpa using hne),
        hnone _ fun y hy => Ne.symm (Std.ne_of_lt (hfrom hne y
          (by rw [List.drop_eq_getElem_cons h]; exact List.mem_cons_of_mem _ hy)))]
      rfl
  · rename_i h
    rw [valueOf, hfind, List.drop_of_length_le (by omega)]
    rfl

/-- The last `Set` of a key is the last of the earlier ones, unless the new one sets it. -/
theorem lastSet_cons (op : List UInt8 × List UInt8) (ops : List (List UInt8 × List UInt8))
    (key : List UInt8) :
    lastSet (op :: ops) key = (lastSet ops key).or (if op.1 = key then some op.2 else none) := by
  unfold lastSet
  rw [List.reverse_cons, List.find?_append]
  cases ops.reverse.find? (fun op => decide (op.1 = key)) with
  | some last => rfl
  | none => by_cases h : op.1 = key <;> simp [h]

/-- A run of `Set` calls, by induction on the calls: the pairs stay strictly increasing, and
under each key is the value of the last `Set` of that key, or what was there before. -/
theorem setAll_spec :
    ∀ (ops : List (List UInt8 × List UInt8)) (r : Record), Sorted r.pairs →
      Sorted (r.setAll ops).pairs ∧
        ∀ key, valueOf (r.setAll ops).pairs key = (lastSet ops key).or (valueOf r.pairs key)
  | [], r, hs => ⟨hs, fun key => by simp [Record.setAll, lastSet]⟩
  | op :: ops, r, hs => by
    obtain ⟨hsorted, hvalue⟩ := setAll_spec ops (r.set op.1 op.2) (hs.set op.1 op.2)
    refine ⟨hsorted, fun key => ?_⟩
    rw [show r.setAll (op :: ops) = (r.set op.1 op.2).setAll ops from rfl, hvalue,
      valueOf_set hs, lastSet_cons]
    cases lastSet ops key with
    | some last => rfl
    | none => by_cases h : op.1 = key <;> simp [h]

/-- A pair after `Set` is the one set or one that was there. -/
theorem mem_set {r : Record} (hs : Sorted r.pairs) {key blob : List UInt8} {p : Pair}
    (hp : p ∈ (r.set key blob).pairs) : p = ⟨key, blob⟩ ∨ p ∈ r.pairs := by
  obtain ⟨lo, mid, hi, hpairs, hset, -⟩ := set_split r hs key blob
  rw [hset, List.mem_append, List.mem_cons] at hp
  rw [hpairs, List.mem_append, List.mem_append]
  rcases hp with hp | hp | hp
  · exact .inr (.inl (.inl hp))
  · exact .inl hp
  · exact .inr (.inr hp)

/-- Every pair after a run of `Set` calls was there before or was set by one of them. -/
theorem mem_setAll : ∀ (ops : List (List UInt8 × List UInt8)) (r : Record), Sorted r.pairs →
    ∀ p ∈ (r.setAll ops).pairs, p ∈ r.pairs ∨ (p.k, p.v) ∈ ops
  | [], _, _, _, hp => .inl hp
  | op :: ops, r, hs, p, hp => by
    rcases mem_setAll ops (r.set op.1 op.2) (hs.set op.1 op.2) p hp with hp | hp
    · rcases mem_set hs hp with rfl | hp
      · exact .inr List.mem_cons_self
      · exact .inl hp
    · exact .inr (List.mem_cons_of_mem _ hp)

end Map

/-! ## What `encode` writes

Each element's writer only appends to the string data, so the elements written inside one list
come out as one list header over their bytes (`encodeElems_eq`). Within the size limit every
length fits the 64 bits of a header, and the bytes are the elements' canonical encodings. -/

section Encoding

/-- The string data the elements' writers append. -/
def elemsStr (list : List Elem) : List UInt8 := list.flatMap fun e => (e.write Encbuf.empty).str

/-- What a writer appends for an element that fits a header: its canonical encoding, or the
raw value as it is. -/
def Elem.enc : Elem → List UInt8
  | .bytes b => (Item.str b).encode
  | .uint n => (Item.str (bigEndian n.toNat)).encode
  | .string s => (Item.str s).encode
  | .raw v => v

theorem Elem.write_eq (e : Elem) (w : Encbuf) :
    e.write w = w.appendStr (e.write Encbuf.empty).str := by
  have hempty : ∀ b, Encbuf.empty.appendStr b = ⟨b, [], 0⟩ := fun _ => rfl
  cases e with
  | bytes b | string b =>
    simp only [Elem.write, writeBytes, writeString, Encbuf.encodeString,
      Encbuf.encodeStringHeader]
    split_ifs <;> simp [Encbuf.appendStr_appendStr, hempty]
  | uint n =>
    simp only [Elem.write, writeUint]
    split_ifs <;> simp [hempty]
  | raw v => simp [Elem.write, hempty]

theorem foldl_write (list : List Elem) (w : Encbuf) :
    list.foldl (fun w e => e.write w) w = w.appendStr (elemsStr list) := by
  induction list generalizing w with
  | nil => simp [elemsStr, Encbuf.appendStr]
  | cons e list ih =>
    rw [List.foldl_cons, ih, Elem.write_eq e w, Encbuf.appendStr_appendStr]
    rfl

theorem encodeElems_eq (list : List Elem) :
    encodeElems list =
      (⟨elemsStr list, [⟨0, (elemsStr list).length⟩], headsize (elemsStr list).length⟩ :
        Encbuf).toBytes := by
  have hopen : Encbuf.empty.list = (0, ⟨[], [⟨0, 0⟩], 0⟩) := rfl
  simp only [encodeElems, hopen, foldl_write]
  have hclose := Encbuf.listEnd_at (Encbuf.appendStr ⟨[], [⟨0, 0⟩], 0⟩ (elemsStr list)) [] [] 0 0 rfl
  simp only [List.length_nil] at hclose
  rw [hclose]
  simp [Encbuf.appendStr, Encbuf.size]

theorem length_encodeElems (list : List Elem) :
    (encodeElems list).length = (elemsStr list).length + headsize (elemsStr list).length := by
  rw [encodeElems_eq, length_toBytes]
  rfl

theorem encodeElems_of_lt (list : List Elem) (h : (elemsStr list).length < 2 ^ 64) :
    encodeElems list = header 0xC0 0xF7 (elemsStr list).length ++ elemsStr list := by
  have hhead : Listhead.encode ⟨0, (elemsStr list).length⟩ =
      header 0xC0 0xF7 (elemsStr list).length := puthead_eq_header _ _ h
  rw [encodeElems_eq, toBytes_eq_emit]
  · simp [emit, hhead]
  · simp [emit, hhead, Encbuf.size, length_header_eq_headsize, headsize, Nat.add_comm]

theorem Elem.write_empty (e : Elem) (h : (e.write Encbuf.empty).str.length < 2 ^ 64) :
    (e.write Encbuf.empty).str = e.enc := by
  cases e with
  | bytes b | string b =>
    change (Encbuf.empty.encodeString b).str.length < 2 ^ 64 at h
    change (Encbuf.empty.encodeString b).str = (Item.str b).encode
    have hcopy : 0 + b.length ≤ (Encbuf.empty.encodeString b).str.length :=
      Encbuf.length_le_encodeString Encbuf.empty b
    have hb : b.length < 2 ^ 64 := by omega
    rw [Encbuf.encodeString_eq _ hb]
    rfl
  | uint n =>
    have hn : n.toNat < 2 ^ 64 := n.toNat_lt
    have hlen : (bigEndian n.toNat).length < 2 ^ 64 := by
      have := (length_bigEndian_le_iff n.toNat 8).mpr (by simpa using hn)
      omega
    change (writeUint n.toNat Encbuf.empty).str = _
    rw [writeUint_eq _ _ hn, writeItem, Encbuf.encodeString_eq _ hlen]
    rfl
  | raw v => rfl

theorem elemsStr_eq (list : List Elem) (h : (elemsStr list).length < 2 ^ 64) :
    elemsStr list = list.flatMap Elem.enc := by
  refine List.flatMap_congr fun e he => Elem.write_empty e ?_
  have hsub := (List.infix_of_mem_flatten (List.mem_map_of_mem (f := fun e : Elem =>
    (e.write Encbuf.empty).str) he)).length_le
  exact Nat.lt_of_le_of_lt hsub h

/-- A pair in the record's list: its key, encoded, then its raw value. -/
def Pair.enc (p : Pair) : List UInt8 := (Item.str p.k).encode ++ p.v

/-- The payload of the list `encode` writes for the signature `sig`: the signature, the
sequence number, then each key and its value. -/
def payload (r : Record) (sig : List UInt8) : List UInt8 :=
  (Item.str sig).encode ++ (Item.str (bigEndian r.seq.toNat)).encode ++ r.pairs.flatMap Pair.enc

theorem flatMap_enc_appendElements (r : Record) (sig : List UInt8) :
    (r.appendElements [.bytes sig]).flatMap Elem.enc = payload r sig := by
  simp [Record.appendElements, payload, Elem.enc, List.flatMap_assoc, -encode_str]
  rfl

theorem Record.encode_eq {r : Record} {sig raw : List UInt8} (h : r.encode sig = .ok raw) :
    raw = header 0xC0 0xF7 (payload r sig).length ++ payload r sig ∧ raw.length ≤ sizeLimit := by
  simp only [Record.encode] at h
  split_ifs at h with hsize
  cases h
  refine ⟨?_, Nat.le_of_not_lt hsize⟩
  have hlen : (elemsStr (r.appendElements [.bytes sig])).length < 2 ^ 64 := by
    have := length_encodeElems (r.appendElements [.bytes sig])
    simp only [sizeLimit, gt_iff_lt, not_lt] at hsize
    omega
  rw [encodeElems_of_lt _ hlen, elemsStr_eq _ hlen, flatMap_enc_appendElements]

end Encoding

/-! ## `DecodeRLP` accepts only sorted pairs -/

section Sorted

/-- The loop of `DecodeRLP` keeps the pairs it reads strictly increasing, by induction on the
fuel: a pair is added only when its key is above the previous one, or when it is the first. -/
theorem decodePairs_sorted : ∀ (fuel i : ℕ) (prevkey : List UInt8) (acc : List Pair),
    Sorted acc → (∀ p ∈ acc, p.k ≤ prevkey) → (i = 0 → acc = []) →
    Returns (decodePairs i prevkey acc fuel) Sorted
  | 0, _, _, _, hs, _, _ => Returns.pure hs
  | fuel + 1, i, prevkey, acc, hs, hle, hfirst => by
    have hnext : ∀ k v, (∀ p ∈ acc, p.k < k) →
        Returns (decodePairs (i + 1) k (acc ++ [⟨k, v⟩]) fuel) Sorted := by
      intro k v hlt
      refine decodePairs_sorted fuel (i + 1) k _ ?_ ?_ (by simp)
      · refine List.pairwise_append.mpr ⟨hs, List.pairwise_singleton _ _, fun a ha b hb => ?_⟩
        rw [List.mem_singleton.mp hb]
        exact hlt a ha
      · intro p hp
        rcases List.mem_append.mp hp with hp | hp
        · exact Std.le_of_lt (hlt p hp)
        · rw [List.mem_singleton.mp hp]
          exact Std.le_refl _
    have hthrow : ∀ (e : EnrErr) (m : PUnit → DecodeM (List Pair)),
        Returns ((throw e : DecodeM PUnit) >>= m) Sorted :=
      fun _ _ => Returns.bind (Returns.throw (P := fun _ => False)) fun _ h => h.elim
    simp only [decodePairs]
    refine Returns.bind_any fun rk => ?_
    split
    · exact Returns.pure hs
    · exact Returns.throw
    refine Returns.bind_any fun rv => ?_
    split
    · exact Returns.throw
    · exact Returns.throw
    rename_i _ k _ v
    by_cases hi : i > 0
    · rw [if_pos hi]
      by_cases heq : k = prevkey
      · rw [if_pos heq]
        exact hthrow _ _
      rw [if_neg heq]
      by_cases hlt : k < prevkey
      · rw [if_pos hlt]
        exact hthrow _ _
      rw [if_neg hlt]
      have hprev : prevkey < k := Std.lt_of_le_of_ne (List.not_lt.mp hlt) (Ne.symm heq)
      exact hnext k v fun p hp => Std.lt_of_le_of_lt (hle p hp) hprev
    · rw [if_neg hi]
      exact hnext k v fun p hp => by simp [hfirst (by omega)] at hp

theorem decodeRaw_sorted (schemes : List UInt8 → Option IdentityScheme) (raw : List UInt8) :
    Returns (decodeRaw schemes raw) fun dec => Sorted dec.pairs := by
  simp only [decodeRaw]
  refine Returns.bind_any fun _ => Returns.bind_any fun signature => Returns.bind_any fun seq => ?_
  refine Returns.bind (decodePairs_sorted _ 0 [] [] sorted_nil (by simp) fun _ => rfl)
    fun pairs hs => Returns.bind_any fun _ => ?_
  split
  · exact Returns.throw
  · split
    · exact Returns.throw
    · exact Returns.pure hs

end Sorted

/-! ## `DecodeRLP` reads back what `EncodeRLP` writes -/

section RoundTrip

theorem exec_liftRlp_of_ok {α : Type} {m : StreamM α} {s t : Stream} {a : α}
    (h : exec m s = (.ok a, t)) : exec (liftRlp m) s = (.ok a, t) := by
  rw [liftRlp, exec_adapt, h]
  rfl

theorem exec_liftRlp_attempt {α : Type} (m : StreamM α) (s : Stream) :
    exec (liftRlp (attempt m)) s = (.ok (exec m s).1, (exec m s).2) :=
  exec_liftRlp_of_ok (exec_lift_run m s)

theorem length_le_flatMap_enc : ∀ ps : List Pair, ps.length ≤ (ps.flatMap Pair.enc).length
  | [] => Nat.le_refl _
  | p :: ps => by
    have hkey := length_encode_pos (.str p.k)
    have := length_le_flatMap_enc ps
    simp only [List.flatMap_cons, Pair.enc, List.length_append, List.length_cons]
    omega

/-- The loop of `DecodeRLP` on the encodings of pairs that fill the rest of the list, strictly
increasing in their keys and above the previous key, each value the encoding of an item: by
induction on the pairs, it reads them all and stops at the end of the list. -/
theorem exec_decodePairs : ∀ (ps : List Pair) (i : ℕ) (prevkey : List UInt8) (acc : List Pair)
    (fuel : ℕ) (s : Stream), Sorted ps → (∀ p ∈ ps, ∃ x : Item, p.v = x.encode) →
    (0 < i → ∀ p ∈ ps, prevkey < p.k) → ps.length < fuel →
    Ready s (ps.flatMap Pair.enc) → (ps.flatMap Pair.enc).length < 2 ^ 64 →
    EndsAfter s (ps.flatMap Pair.enc).length →
    ∃ t, exec (decodePairs i prevkey acc fuel) s = (.ok (acc ++ ps), t) ∧ EndsAfter t 0
  | _, _, _, _, 0, _, _, _, _, hfuel, _, _, _ => absurd hfuel (Nat.not_lt_zero _)
  | [], _, _, acc, fuel + 1, s, _, _, _, _, hs, _, hend => by
    obtain ⟨tos, rest, hst, htop⟩ := hend
    have heol := exec_wrap_eol (exec_bytes_eol hs.kind hst (by simpa using htop))
    refine ⟨{ s with kinderr := none }, ?_, tos, rest, hst, by simpa using htop⟩
    simp only [decodePairs]
    rw [exec_bind_of_ok (exec_liftRlp_attempt _ _), heol, List.append_nil]
    rfl
  | p :: ps, i, prevkey, acc, fuel + 1, s, hsorted, hvals, hprev, hfuel, hs, hlen, hend => by
    obtain ⟨x, hx⟩ := hvals p List.mem_cons_self
    have hsplit : (p :: ps).flatMap Pair.enc =
        (Item.str p.k).encode ++ (x.encode ++ ps.flatMap Pair.enc) := by
      simp [Pair.enc, hx, -encode_str]
    rw [hsplit] at hs hlen hend
    simp only [List.length_append] at hlen
    have hk : p.k.length < 2 ^ 64 := by
      have := length_payload_le (.str p.k)
      simp only [Item.payload] at this
      omega
    obtain ⟨t1, hkey, hskip1⟩ := exec_bytes_str hs.left hk
    have hs1 := hs.skip hskip1
    have hxlen : x.payload.length < 2 ^ 64 := by
      have := length_payload_le x
      omega
    obtain ⟨t2, hval, hskip2⟩ := exec_raw_encode x hs1.left hxlen
    have hs2 := hs1.skip hskip2
    have hend2 : EndsAfter t2 (ps.flatMap Pair.enc).length := by
      refine hskip2.endsAfter (hskip1.endsAfter ?_)
      simpa only [List.length_append] using hend
    obtain ⟨hhead, htail⟩ := List.pairwise_cons.mp hsorted
    obtain ⟨t, hrun, htend⟩ := exec_decodePairs ps (i + 1) p.k (acc ++ [p]) fuel t2 htail
      (fun q hq => hvals q (List.mem_cons_of_mem _ hq)) (fun _ q hq => hhead q hq)
      (by simp only [List.length_cons] at hfuel; omega) hs2 (by omega) hend2
    refine ⟨t, ?_, htend⟩
    simp only [decodePairs]
    rw [exec_bind_of_ok (exec_liftRlp_attempt _ _), exec_wrap_of_ok hkey]
    dsimp only
    rw [exec_bind_of_ok (exec_liftRlp_attempt _ _), hval, ← hx]
    dsimp only
    rw [List.append_cons acc p ps]
    by_cases hi : i > 0
    · -- the key is above the previous one, so neither check fails
      have hlt := hprev hi p List.mem_cons_self
      rw [if_pos hi, if_neg (Ne.symm (Std.ne_of_lt hlt)),
        if_neg (List.not_lt.mpr (Std.le_of_lt hlt))]
      exact hrun
    · rw [if_neg hi]
      exact hrun

/-- The container `encode` wrote, decoded from a new stream over it: the record comes back with
the signature and the encoding, when its pairs are strictly increasing, each value is the
encoding of an item and the scheme accepts the signature. -/
theorem exec_decodeRaw {r : Record} (hsorted : Sorted r.pairs)
    (hvals : ∀ p ∈ r.pairs, ∃ x : Item, p.v = x.encode)
    {schemes : List UInt8 → Option IdentityScheme} {id : List UInt8} {scheme : IdentityScheme}
    (hid : r.idScheme schemes = (id, some scheme)) {sig raw : List UInt8}
    (hverify : scheme.verify r.seq r.pairs sig = .ok ()) (henc : r.encode sig = .ok raw) :
    ∃ t, exec (decodeRaw schemes raw) (newStream raw) =
      (.ok { r with signature := some sig, raw := raw }, t) := by
  obtain ⟨hraw, hsize⟩ := Record.encode_eq henc
  have hP : payload r sig = (Item.str sig).encode ++
      ((Item.str (bigEndian r.seq.toNat)).encode ++ r.pairs.flatMap Pair.enc) := by
    simp only [payload, List.append_assoc]
  have hlen : (payload r sig).length < 2 ^ 64 := by
    have := congrArg List.length hraw
    simp only [sizeLimit, List.length_append] at hsize this
    omega
  have hfuel := length_le_flatMap_enc r.pairs
  have hbelow : (payload r sig).length < raw.length := by
    rw [hraw, List.length_append]
    have := List.length_pos_of_ne_nil (header_ne_nil 0xC0 0xF7 (payload r sig).length)
    omega
  obtain ⟨t1, hlist, hs1, rest, htop⟩ :=
    exec_list_header hlen ((congrArg (Ready (newStream raw)) hraw).mp (ready_newStream raw))
  have hend1 : EndsAfter t1 (payload r sig).length := ⟨_, rest, htop, Nat.zero_add _⟩
  rw [hP] at hs1 hend1 hlen
  simp only [List.length_append] at hlen
  have hsig : sig.length < 2 ^ 64 := by
    have := length_payload_le (.str sig)
    simp only [Item.payload] at this
    omega
  obtain ⟨t2, hread2, hskip2⟩ := exec_bytes_str hs1.left hsig
  have hs2 := hs1.skip hskip2
  obtain ⟨t3, hread3, hskip3⟩ := exec_uint_str hs2.left r.seq.toNat_lt
  have hs3 := hs2.skip hskip3
  have hend3 : EndsAfter t3 (r.pairs.flatMap Pair.enc).length := by
    refine hskip3.endsAfter (hskip2.endsAfter ?_)
    simpa only [List.length_append] using hend1
  obtain ⟨t4, hread4, tos, rest4, htop4, hend4⟩ := exec_decodePairs r.pairs 0 [] [] raw.length t3
    hsorted hvals (fun h => absurd h (Nat.lt_irrefl 0))
    (by rw [hP] at hbelow; simp only [List.length_append] at hbelow; omega) hs3 (by omega) hend3
  obtain ⟨t5, hread5⟩ := exec_listEnd_at htop4 (by simpa using hend4)
  have hid' : ({ r with signature := some sig, raw := raw } : Record).idScheme schemes =
      (id, some scheme) := hid
  refine ⟨t5, ?_⟩
  simp only [decodeRaw]
  rw [exec_bind_of_ok (exec_liftRlp_of_ok hlist), exec_bind_of_ok (exec_liftRlp_of_ok
    (exec_wrap_of_ok hread2)), exec_bind_of_ok (exec_liftRlp_of_ok (exec_wrap_of_ok hread3)),
    exec_bind_of_ok hread4, exec_bind_of_ok (exec_liftRlp_of_ok hread5)]
  simp only [List.nil_append, UInt64.ofNat_toNat]
  rw [hid']
  dsimp only
  rw [hverify]
  rfl

/-- `DecodeRLP` on a stream over the list `encode` wrote returns the record with the signature
and the encoding. -/
theorem exec_decodeRLP {r : Record} (hsorted : Sorted r.pairs)
    (hvals : ∀ p ∈ r.pairs, ∃ x : Item, p.v = x.encode)
    {schemes : List UInt8 → Option IdentityScheme} {id : List UInt8} {scheme : IdentityScheme}
    (hid : r.idScheme schemes = (id, some scheme)) {sig raw : List UInt8}
    (hverify : scheme.verify r.seq r.pairs sig = .ok ()) (henc : r.encode sig = .ok raw) :
    ∃ t, exec (decodeRLP schemes) (newStream raw) =
      (.ok { r with signature := some sig, raw := raw }, t) := by
  obtain ⟨hraw, hsize⟩ := Record.encode_eq henc
  obtain ⟨t, hdec⟩ := exec_decodeRaw hsorted hvals hid hverify henc
  have hlen : (payload r sig).length < 2 ^ 64 := by
    have := congrArg List.length hraw
    simp only [sizeLimit, List.length_append] at hsize this
    omega
  obtain ⟨t1, hread, -⟩ := exec_raw_header (Or.inr ⟨rfl, rfl, rfl⟩) hlen
    ((congrArg (Ready (newStream raw)) hraw).mp (ready_newStream raw))
  rw [← hraw] at hread
  refine ⟨t1, ?_⟩
  simp only [decodeRLP]
  rw [exec_bind_of_ok (exec_liftRlp_of_ok hread), if_neg (Nat.not_lt.mpr hsize), hdec]
  rfl

/-- What a successful `SetSig` checked and did. -/
theorem setSig_ok {schemes : List UInt8 → Option IdentityScheme} {r r' : Record}
    {idscheme : List UInt8} {sig : Option (List UInt8)} (h : r.setSig schemes idscheme sig = .ok r') :
    ∃ id scheme raw, r.idScheme schemes = (id, some scheme) ∧
      scheme.verify r.seq r.pairs (sig.getD []) = .ok () ∧ r.encode (sig.getD []) = .ok raw ∧
      r' = { r with signature := sig, raw := raw } := by
  unfold Record.setSig at h
  split at h
  · cases h
  rename_i id scheme hid
  split_ifs at h
  refine ⟨id, scheme, ?_⟩
  cases hv : scheme.verify r.seq r.pairs (sig.getD []) with
  | error e => simp [hv] at h
  | ok u =>
    cases he : r.encode (sig.getD []) with
    | error e => simp [hv, he] at h
    | ok raw =>
      simp only [hv, he, except_ok_bind] at h
      cases h
      exact ⟨raw, hid, rfl, rfl, rfl⟩

/-- A record built by `Set` calls on entries, each encoded as an item, then signed, decodes back
from what `EncodeRLP` writes. -/
theorem decodeRLP_encodeRLP (schemes : List UInt8 → Option IdentityScheme)
    (ops : List (List UInt8 × Item)) (idscheme : List UInt8) (sig : Option (List UInt8))
    {r : Record} {out : List UInt8}
    (hsig : (Record.empty.setAll (ops.map fun op => (op.1, op.2.encode))).setSig schemes
      idscheme sig = .ok r)
    (hout : r.encodeRLP = .ok out) :
    ∃ t, exec (decodeRLP schemes) (newStream out) = (.ok r, t) := by
  obtain ⟨id, scheme, raw, hid, hverify, henc, rfl⟩ := setSig_ok hsig
  obtain ⟨b, rfl⟩ : ∃ b, sig = some b := by
    cases sig with
    | none => simp [Record.encodeRLP, Record.signed] at hout
    | some b => exact ⟨b, rfl⟩
  simp only [Record.encodeRLP, Record.signed, Option.isSome_some, if_true] at hout
  cases hout
  have hsorted := (setAll_spec (ops.map fun op => (op.1, op.2.encode)) Record.empty sorted_nil).1
  have hvals : ∀ p ∈ (Record.empty.setAll (ops.map fun op => (op.1, op.2.encode))).pairs,
      ∃ x : Item, p.v = x.encode := by
    intro p hp
    rcases mem_setAll _ Record.empty sorted_nil p hp with hp | hp
    · cases hp
    · obtain ⟨op, -, hop⟩ := List.mem_map.mp hp
      exact ⟨op.2, (congrArg Prod.snd hop).symm⟩
  exact exec_decodeRLP hsorted hvals hid hverify henc

/-- `DecodeRLP` returns only records whose keys are strictly increasing. -/
theorem decodeRLP_sorted (schemes : List UInt8 → Option IdentityScheme) :
    Returns (decodeRLP schemes) fun dec => Sorted dec.pairs := by
  simp only [decodeRLP]
  refine Returns.bind_any fun raw => ?_
  split_ifs
  · exact Returns.bind (Returns.throw (P := fun _ => False)) fun _ h => h.elim
  split
  · rename_i dec hdec
    exact Returns.pure (decodeRaw_sorted schemes raw _ dec _ (Prod.ext hdec rfl))
  · exact Returns.throw

end RoundTrip

/-- Records are sorted maps that round-trip: after any `Set` calls on a new record the pairs are
strictly increasing and `Load` decodes what the last `Set` of the key stored; such a record,
signed by `SetSig`, decodes back from what `EncodeRLP` writes; and `DecodeRLP` returns only
records whose keys are strictly increasing. -/
theorem enr_sorted_map_round_trip :
    (∀ ops : List (List UInt8 × List UInt8),
      Sorted (Record.empty.setAll ops).pairs ∧
      ∀ (key : List UInt8) {α : Type} (decode : List UInt8 → Except EnrErr α),
        (Record.empty.setAll ops).load key decode = match lastSet ops key with
          | some v => (decode v).mapError (KeyError.mk key)
          | none => .error ⟨key, .notFound⟩) ∧
    (∀ (schemes : List UInt8 → Option IdentityScheme) (ops : List (List UInt8 × Item))
      (idscheme : List UInt8) (sig : Option (List UInt8)) (r : Record) (out : List UInt8),
      (Record.empty.setAll (ops.map fun op => (op.1, op.2.encode))).setSig schemes idscheme sig =
        .ok r →
      r.encodeRLP = .ok out →
      ∃ t, exec (decodeRLP schemes) (newStream out) = (.ok r, t)) ∧
    ∀ (schemes : List UInt8 → Option IdentityScheme) (s t : Stream) (dec : Record),
      exec (decodeRLP schemes) s = (.ok dec, t) → Sorted dec.pairs := by
  refine ⟨fun ops => ?_, fun schemes ops idscheme sig _ _ hsig hout =>
    decodeRLP_encodeRLP schemes ops idscheme sig hsig hout,
    fun schemes s t dec hrun => decodeRLP_sorted schemes s dec t hrun⟩
  obtain ⟨hsorted, hvalue⟩ := setAll_spec ops Record.empty sorted_nil
  refine ⟨hsorted, fun key α decode => ?_⟩
  rw [load_eq hsorted, hvalue]
  simp [valueOf, Record.empty]


/-- An identity scheme whose `Verify` accepts every signature. -/
def acceptAllScheme : IdentityScheme := ⟨fun _ _ _ => .ok ()⟩

/-- Three entries, set out of key order: `"udp"`, `"id" = "v4"` and `"ip"`. -/
def sampleEntries : List (List UInt8 × Item) :=
  [([0x75, 0x64, 0x70], .str [0x76, 0x5f]), (idKey, .str [0x76, 0x34]),
    ([0x69, 0x70], .str [127, 0, 0, 1])]

/-- The record of these entries with the signature `01 02 03` and its encoding. -/
def sampleSigned : Record :=
  let r := Record.empty.setAll (sampleEntries.map fun op => (op.1, op.2.encode))
  { r with signature := some [1, 2, 3], raw := encodeElems (r.appendElements [.bytes [1, 2, 3]]) }

theorem enr_round_trip_sampleSigned :
    (Record.empty.setAll (sampleEntries.map fun op => (op.1, op.2.encode))).setSig
      (fun _ => some acceptAllScheme) [0x76, 0x34] (some [1, 2, 3]) = .ok sampleSigned ∧
    ∃ t, exec (decodeRLP fun _ => some acceptAllScheme) (newStream sampleSigned.raw) =
      (.ok sampleSigned, t) := by
  have hsig : (Record.empty.setAll (sampleEntries.map fun op => (op.1, op.2.encode))).setSig
      (fun _ => some acceptAllScheme) [0x76, 0x34] (some [1, 2, 3]) = .ok sampleSigned := by
    decide +kernel
  exact ⟨hsig, enr_sorted_map_round_trip.2.1 _ _ _ _ _ _ hsig rfl⟩

end Srcd.P2p
