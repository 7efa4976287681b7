import Srcd.Rlp.Stream

/-! # The generated decoders (`rlp/decode.go`)

`decode fuel t` is the decoder `makeDecoder` generates for `t`, run on the stream; it returns
the value decoded. Go decodes into an existing value, but every decoder of the model
overwrites all of it on success (a fresh pointer, slice or big integer is allocated where the
target holds none), so the result is the value Go stores. The slice loop `decodeSliceElems`
runs until `EOL`, which need not come: `fuel` bounds its rounds, and running out is
`Err.fuelExhausted`.

`decodeError`'s type and context are not modelled; its message is.
-/

namespace Srcd.Rlp
open Srcd.Library
set_option autoImplicit false

/-- `wrapStreamError`: the stream errors that become a `decodeError` for the type. -/
def wrapStreamError : Err → Err
  | .canonInt => .decodeError "non-canonical integer (leading zero bytes)"
  | .canonSize => .decodeError "non-canonical size information"
  | .expectedList => .decodeError "expected input list"
  | .expectedString => .decodeError "expected input string or byte"
  | .uintOverflow => .decodeError "input string too long"
  | .notAtEOL => .decodeError "input list has too many elements"
  | err => err

/-- A stream method whose error is passed through `wrapStreamError`. -/
def wrap {α : Type} (m : StreamM α) : StreamM α :=
  tryCatch m fun err => throw (wrapStreamError err)

/-- A byte slice or array as a value: its elements are `uint8`s. -/
def byteVals (b : List UInt8) : Val := .list (b.map fun x => .uint x.toNat)

/-! ## Decoders of the scalar types -/

def decodeUint (bits : ℕ) : StreamM Val := do
  let num ← wrap (uint bits)
  pure (.uint num)

def decodeBool : StreamM Val := do
  let b ← wrap bool
  pure (.bool b)

def decodeString : StreamM Val := do
  let b ← wrap bytes
  pure (.string b)

/-- `decodeBigInt`, into a fresh `*big.Int`. -/
def decodeBigInt : StreamM Val := do
  let b ← wrap bytes
  -- Reject leading zero bytes
  if b ≠ [] ∧ b.headD 0 = 0 then throw (wrapStreamError .canonInt)
  pure (.bigInt (some (ofBigEndian b)))

def decodeByteSlice : StreamM Val := do
  let b ← wrap bytes
  pure (byteVals b)

/-- `decodeByteArray` for an array of `vlen` bytes. A single byte goes through `s.Uint()`,
whose error is dropped. -/
def decodeByteArray (vlen : ℕ) : StreamM Val := do
  let (k, size) ← kind
  match k with
  | .byte =>
    if vlen = 0 then throw (.decodeError "input string too long")
    if vlen > 1 then throw (.decodeError "input string too short")
    let bv ← tryCatch (uint 64) fun _ => pure 0
    pure (.list [.uint bv])
  | .string =>
    if vlen < size then throw (.decodeError "input string too long")
    if vlen > size then throw (.decodeError "input string too short")
    let slice ← readFull vlen
    -- Reject cases where single byte encoding should have been used.
    if size = 1 ∧ slice.headD 0 < 128 then throw (wrapStreamError .canonSize)
    pure (byteVals slice)
  | .list => throw (wrapStreamError .expectedString)

/-! ## Lists -/

/-- `decodeSliceElems`: decode elements until `EOL`, for at most `fuel` rounds. -/
def decodeSliceElems (elemdec : StreamM Val) : ℕ → StreamM (List Val)
  | 0 => throw .fuelExhausted
  | fuel + 1 => do
    match ← attempt elemdec with
    | .error .eol => pure []
    | .error err => throw err
    | .ok v => do
      let vs ← decodeSliceElems elemdec fuel
      pure (v :: vs)

/-- `decodeListSlice`. Its `ListEnd` errors are returned unwrapped. -/
def decodeListSlice (elems : StreamM (List Val)) : StreamM Val := do
  let size ← wrap list
  if size = 0 then
    listEnd
    pure (.list [])
  else
    let vs ← elems
    listEnd
    pure (.list vs)

/-- The loop of `decodeListArray`: at most `n` elements, stopping at `EOL`. -/
def decodeArrayElems (elemdec : StreamM Val) : ℕ → StreamM (List Val)
  | 0 => pure []
  | n + 1 => do
    match ← attempt elemdec with
    | .error .eol => pure []
    | .error err => throw err
    | .ok v => do
      let vs ← decodeArrayElems elemdec n
      pure (v :: vs)

def decodeListArray (vlen : ℕ) (elemdec : StreamM Val) : StreamM Val := do
  let _ ← wrap list
  let vs ← decodeArrayElems elemdec vlen
  if vs.length < vlen then throw (.decodeError "input list has too few elements")
  wrap listEnd
  pure (.list vs)

/-- The struct decoder's loop over the field decoders; `EOL` means the list is too short. -/
def decodeFields : List (StreamM Val) → StreamM (List Val)
  | [] => pure []
  | f :: fs => do
    match ← attempt f with
    | .error .eol => throw (.decodeError "too few elements")
    | .error err => throw err
    | .ok v => do
      let vs ← decodeFields fs
      pure (v :: vs)

/-- The decoder `makeStructDecoder` generates. -/
def decodeStruct (fields : List (StreamM Val)) : StreamM Val := do
  let _ ← wrap list
  let vs ← decodeFields fields
  wrap listEnd
  pure (.list vs)

/-- The decoder `makePtrDecoder` generates: decode into a new value of the element type. -/
def decodePtr (elemdec : StreamM Val) : StreamM Val := do
  let v ← elemdec
  pure (.ptr (some v))

/-! ## `makeDecoder` -/

mutual
/-- The decoder `makeDecoder` generates for a type. -/
def decode (fuel : ℕ) : Ty → StreamM Val
  | .uint bits => decodeUint bits
  | .bool => decodeBool
  | .string => decodeString
  | .bigInt => decodeBigInt
  | .slice e =>
    if e.isByte then decodeByteSlice
    else decodeListSlice (decodeSliceElems (decode fuel e) fuel)
  | .array n e =>
    if e.isByte then decodeByteArray n
    else decodeListArray n (decode fuel e)
  | .struct fs tail => decodeStruct (fieldDecoders fuel fs tail)
  | .ptr e => decodePtr (decode fuel e)

/-- The decoders of a struct's fields. A `tail` slice swallows the remaining list elements:
the struct decoder already called `List`. -/
def fieldDecoders (fuel : ℕ) : List Ty → Bool → List (StreamM Val)
  | [], _ => []
  | [.slice e], true =>
    [if e.isByte then decodeByteSlice
      else do
        let vs ← decodeSliceElems (decode fuel e) fuel
        pure (.list vs)]
  | [_], true => [throw .invalidTail]
  | f :: fs, tail => decode fuel f :: fieldDecoders fuel fs tail
end

/-- `DecodeBytes`: decode one value, then reject trailing input. -/
def decodeBytes (fuel : ℕ) (t : Ty) (b : List UInt8) : Except Err Val :=
  match exec (decode fuel t) (newStream b) with
  | (.error err, _) => .error err
  | (.ok v, s) => if s.r.length > 0 then .error .moreThanOneValue else .ok v

end Srcd.Rlp
