import Srcd.Library.ExceptState
import Srcd.Rlp.Value

/-! # The decoding stream (`rlp/decode.go`)

A `Stream` reads from a `bytes.Reader` (`r`, the unread input) with an input limit. The kind
and size of the value ahead are cached in `kind`/`size`/`kinderr` after the first `Kind`
call; `kind = none` is the code's `s.kind = -1`, which re-arms `Kind`. Every method may
change the stream whether it fails or not, so methods live in `StreamM`, where an error keeps
the state reached. The stack of open lists has its top first.

Sizes are `ℕ`: the subtractions `tos.size - tos.pos` never wrap, because `willRead` keeps
`pos ≤ size`. `uintbuf` is scratch space and is not modelled.
-/

namespace Srcd.Rlp
open Srcd.Library
set_option autoImplicit false

/-- The kind of value contained in an RLP stream. -/
inductive Kind where
  | byte
  | string
  | list
  deriving DecidableEq, Repr

/-- An open list: bytes read so far and its payload size. -/
structure Listpos where
  pos : ℕ
  size : ℕ
  deriving DecidableEq, Repr

structure Stream where
  r : List UInt8
  remaining : ℕ
  limited : Bool
  kind : Option Kind
  size : ℕ
  byteval : UInt8
  kinderr : Option Err
  stack : List Listpos
  deriving DecidableEq, Repr

/-- A `Stream` method. -/
abbrev StreamM (α : Type) := ExceptT Err (StateM Stream) α

/-- Running a method and keeping its error as a value, for the callers that test it. -/
def attempt {α : Type} (m : StreamM α) : StreamM (Except Err α) := ExceptT.lift m.run

/-- `NewStream(bytes.NewReader(b), uint64(len(b)))`: the limit is the input length. -/
def newStream (b : List UInt8) : Stream := ⟨b, b.length, true, none, 0, 0, none, []⟩

/-! ## Reading bytes -/

/-- `willRead`: account for `n` bytes in the innermost list and in the input limit. -/
def willRead (n : ℕ) : StreamM Unit := do
  modify fun s => { s with kind := none }
  let s ← get
  match s.stack with
  | tos :: rest =>
    -- check list overflow
    if n > tos.size - tos.pos then throw .elemTooLarge
    set { s with stack := { tos with pos := tos.pos + n } :: rest }
  | [] => pure ()
  let s ← get
  if s.limited then
    if n > s.remaining then throw .valueTooLarge
    set { s with remaining := s.remaining - n }

/-- `readByte`; the reader's `io.EOF` becomes `io.ErrUnexpectedEOF`. -/
def readByte : StreamM UInt8 := do
  willRead 1
  let s ← get
  match s.r with
  | b :: rest =>
    set { s with r := rest }
    pure b
  | [] => throw .unexpectedEOF

/-- `readFull` of a buffer of `n` bytes. -/
def readFull (n : ℕ) : StreamM (List UInt8) := do
  willRead n
  let s ← get
  if n ≤ s.r.length then
    set { s with r := s.r.drop n }
    pure (s.r.take n)
  else
    set { s with r := [] }
    throw .unexpectedEOF

/-- `readUint`: a big-endian integer of `size` bytes without leading zero. -/
def readUint : ℕ → StreamM ℕ
  | 0 => do
    modify fun s => { s with kind := none }
    pure 0
  | 1 => do
    let b ← readByte
    pure b.toNat
  | size + 2 => do
    let b ← readFull (size + 2)
    if b.headD 0 = 0 then throw .canonSize
    pure (ofBigEndian b)

/-! ## Kinds -/

/-- `readKind`: the kind and size read from the type tag, and the error Go returns with them;
`Kind` caches all three. -/
def readKind : StreamM (Kind × ℕ × Option Err) := do
  match ← attempt readByte with
  | .error err =>
    let s ← get
    -- At toplevel, adjust the error to actual EOF.
    let err := if s.stack = [] ∧ (err = .unexpectedEOF ∨ err = .valueTooLarge) then .eof else err
    pure (.byte, 0, some err)
  | .ok b =>
    modify fun s => { s with byteval := 0 }
    if b < 0x80 then
      modify fun s => { s with byteval := b }
      pure (.byte, 0, none)
    else if b < 0xB8 then pure (.string, (b - 0x80).toNat, none)
    else if b < 0xC0 then
      match ← attempt (readUint (b - 0xB7).toNat) with
      | .error err => pure (.string, 0, some err)
      | .ok size => pure (.string, size, if size < 56 then some .canonSize else none)
    else if b < 0xF8 then pure (.list, (b - 0xC0).toNat, none)
    else
      match ← attempt (readUint (b - 0xF7).toNat) with
      | .error err => pure (.list, 0, some err)
      | .ok size => pure (.list, size, if size < 56 then some .canonSize else none)

/-- The check `Kind` makes on a freshly read size: within the innermost list, or within the
input at toplevel. -/
def sizeErr (s : Stream) (size : ℕ) : Option Err :=
  match s.stack with
  | [] => if s.limited ∧ size > s.remaining then some .valueTooLarge else none
  | tos :: _ => if size > tos.size - tos.pos then some .elemTooLarge else none

/-- `Kind`: the kind and size of the next value, read once and then cached until the value is
consumed; the cached error is returned again. -/
def kind : StreamM (Kind × ℕ) := do
  let s ← get
  if s.kind = none then
    set { s with kinderr := none }
    -- Don't read further if we're at the end of the innermost list.
    match s.stack with
    | tos :: _ => if tos.pos = tos.size then throw .eol
    | [] => pure ()
    let (k, size, err) ← readKind
    let s ← get
    set { s with kind := some k, size := size, kinderr := err.orElse fun _ => sizeErr s size }
  let s ← get
  match s.kinderr with
  | some err => throw err
  | none => pure (s.kind.getD .byte, s.size)

/-! ## Values -/

/-- `Bytes`: an RLP string. -/
def bytes : StreamM (List UInt8) := do
  let (k, size) ← kind
  match k with
  | .byte =>
    modify fun s => { s with kind := none }
    pure [(← get).byteval]
  | .string =>
    let b ← readFull size
    if size = 1 ∧ b.headD 0 < 128 then throw .canonSize
    pure b
  | .list => throw .expectedString

/-- `uint`: an unsigned integer of at most `maxbits` bits. The `Byte` case fails on a zero
byte before re-arming `Kind`. -/
def uint (maxbits : ℕ) : StreamM ℕ := do
  let (k, size) ← kind
  match k with
  | .byte =>
    let s ← get
    if s.byteval = 0 then throw .canonInt
    set { s with kind := none }
    pure s.byteval.toNat
  | .string =>
    if size > maxbits / 8 then throw .uintOverflow
    match ← attempt (readUint size) with
    -- Adjust error because we're not reading a size right now.
    | .error .canonSize => throw .canonInt
    | .error err => throw err
    | .ok v => if size > 0 ∧ v < 128 then throw .canonSize else pure v
  | .list => throw .expectedString

/-- `Bool`. -/
def bool : StreamM Bool := do
  let num ← uint 8
  match num with
  | 0 => pure false
  | 1 => pure true
  | num => throw (.invalidBool num)

/-- `Raw`: the next value with its header. `Kind` has already read the header, so a new one is
written in front of the payload. -/
def raw : StreamM (List UInt8) := do
  let (k, size) ← kind
  if k = .byte then
    modify fun s => { s with kind := none }
    pure [(← get).byteval]
  else
    let b ← readFull size
    if k = .string then pure (puthead 0x80 0xB7 size ++ b)
    else pure (puthead 0xC0 0xF7 size ++ b)

/-- `List`: enter a list; the result is its payload size. -/
def list : StreamM ℕ := do
  let (k, size) ← kind
  if k ≠ .list then throw .expectedList
  modify fun s => { s with stack := ⟨0, size⟩ :: s.stack, kind := none, size := 0 }
  pure size

/-- `ListEnd`: leave the innermost list, which must have been read to its end. -/
def listEnd : StreamM Unit := do
  let s ← get
  match s.stack with
  | [] => throw .notInList
  | tos :: rest =>
    if tos.pos ≠ tos.size then throw .notAtEOL
    let rest := match rest with
      | p :: ps => { p with pos := p.pos + tos.size } :: ps
      | [] => []
    set { s with stack := rest, kind := none, size := 0 }

end Srcd.Rlp
