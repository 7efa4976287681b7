import Srcd.Rlp.Encbuf

/-! # Go values and their writers (`rlp/encode.go`, `rlp/typecache.go`)

The encoder dispatches on the Go type (`makeWriter`) and walks the value with `reflect`. The
model has a universe `Ty` of serialisable Go types and untyped values `Val`; `write t v`
is the writer `makeWriter` generates for `t`, run on `v`. Byte slices and byte arrays are
`slice (uint 8)` and `array n (uint 8)`, as in Go, and the writer makes the same `isByte`
test. A struct lists its exported, untagged fields; `tail` marks its last field as
`rlp:"tail"`. A `*big.Int` is `bigInt`, holding `none` for a nil pointer.

Left out (named in `MODEL_MAP.json`): `RawValue`, `Encoder`/`Decoder` implementations, interface
types, `big.Int` by value, the `rlp:"nil"` and `rlp:"-"` tags.
-/

namespace Srcd.Rlp
open Srcd.Library
set_option autoImplicit false

/-- The errors of the package: the exported sentinels, the internal ones, the `io` errors
the stream passes on, and the formatted ones (`decodeError` keeps its message). -/
inductive Err where
  | eol
  | expectedString
  | expectedList
  | canonInt
  | canonSize
  | elemTooLarge
  | valueTooLarge
  | moreThanOneValue
  | notInList
  | notAtEOL
  | uintOverflow
  | unexpectedEOF
  | eof
  | decodeError (msg : String)
  | invalidBool (value : ℕ)
  | negativeBigInt
  | invalidTail
  /-- a value that does not have the type it is written as (no Go counterpart) -/
  | typeMismatch
  /-- the bound on a decoding loop ran out: there the code loops on (no Go counterpart) -/
  | fuelExhausted
  deriving DecidableEq, Repr

/-- The serialisable Go types of the model. -/
inductive Ty where
  /-- `uint8` … `uint64`, `uint`, `uintptr`, by reflect's bit size -/
  | uint (bits : ℕ)
  | bool
  | string
  /-- `*big.Int` -/
  | bigInt
  | slice (elem : Ty)
  | array (len : ℕ) (elem : Ty)
  /-- a struct of the given field types; `tail` tags the last one `rlp:"tail"` -/
  | struct (fields : List Ty) (tail : Bool)
  | ptr (elem : Ty)
  deriving Repr

/-- A Go value, as `reflect` sees it. -/
inductive Val where
  | uint (n : ℕ)
  | bool (b : Bool)
  | string (s : List UInt8)
  /-- a `*big.Int`: `none` is the nil pointer -/
  | bigInt (i : Option ℤ)
  /-- the elements of a slice or an array, or the fields of a struct, in order -/
  | list (elems : List Val)
  | ptr (target : Option Val)
  deriving Repr

mutual
/-- Equality of values is decidable, so that decoded values can be compared by `decide`. -/
def Val.decEq : (a b : Val) → Decidable (a = b)
  | .uint m, .uint n => decidable_of_iff (m = n) (by simp)
  | .bool x, .bool y => decidable_of_iff (x = y) (by simp)
  | .string s, .string t => decidable_of_iff (s = t) (by simp)
  | .bigInt i, .bigInt j => decidable_of_iff (i = j) (by simp)
  | .list as, .list bs =>
    match Val.decEqList as bs with
    | isTrue h => isTrue (congrArg Val.list h)
    | isFalse h => isFalse fun e => h (Val.list.inj e)
  | .ptr none, .ptr none => isTrue rfl
  | .ptr (some x), .ptr (some y) =>
    match Val.decEq x y with
    | isTrue h => isTrue (congrArg (fun v => Val.ptr (some v)) h)
    | isFalse h => isFalse fun e => h (Option.some.inj (Val.ptr.inj e))
  | .ptr none, .ptr (some _) | .ptr (some _), .ptr none
  | .uint _, .bool _ | .uint _, .string _ | .uint _, .bigInt _ | .uint _, .list _ | .uint _, .ptr _
  | .bool _, .uint _ | .bool _, .string _ | .bool _, .bigInt _ | .bool _, .list _ | .bool _, .ptr _
  | .string _, .uint _ | .string _, .bool _ | .string _, .bigInt _ | .string _, .list _
  | .string _, .ptr _ | .bigInt _, .uint _ | .bigInt _, .bool _ | .bigInt _, .string _
  | .bigInt _, .list _ | .bigInt _, .ptr _ | .list _, .uint _ | .list _, .bool _
  | .list _, .string _ | .list _, .bigInt _ | .list _, .ptr _ | .ptr _, .uint _ | .ptr _, .bool _
  | .ptr _, .string _ | .ptr _, .bigInt _ | .ptr _, .list _ => isFalse fun e => by cases e

def Val.decEqList : (as bs : List Val) → Decidable (as = bs)
  | [], [] => isTrue rfl
  | [], _ :: _ | _ :: _, [] => isFalse fun e => by cases e
  | a :: as, b :: bs =>
    match Val.decEq a b, Val.decEqList as bs with
    | isTrue h, isTrue h' => isTrue (by rw [h, h'])
    | isFalse h, _ => isFalse fun e => h (List.cons.inj e).1
    | _, isFalse h' => isFalse fun e => h' (List.cons.inj e).2
end

instance : DecidableEq Val := Val.decEq

/-- `isByte`: the element type of byte slices and byte arrays. -/
def Ty.isByte : Ty → Bool
  | .uint 8 => true
  | _ => false

/-- `val.Bytes()` of a byte slice or array. -/
def Val.bytes (vs : List Val) : List UInt8 :=
  vs.map fun
    | .uint n => UInt8.ofNat n
    | _ => 0

mutual
/-- The zero value of a type (`reflect.Zero`). -/
def Ty.zero : Ty → Val
  | .uint _ => .uint 0
  | .bool => .bool false
  | .string => .string []
  | .bigInt => .bigInt none
  | .slice _ => .list []
  | .array n e => .list (List.replicate n e.zero)
  | .struct fs _ => .list (Ty.zeroFields fs)
  | .ptr _ => .ptr none

/-- The zero values of a struct's fields. -/
def Ty.zeroFields : List Ty → List Val
  | [] => []
  | f :: fs => f.zero :: Ty.zeroFields fs
end

/-! ## Writers of the scalar types -/

/-- `writeUint`. -/
def writeUint (i : ℕ) (w : Encbuf) : Encbuf :=
  if i = 0 then w.appendStr [0x80]
  -- fits single byte
  else if i < 128 then w.appendStr [UInt8.ofNat i]
  else w.appendStr ((0x80 + UInt8.ofNat (putint i).length) :: putint i)

/-- `writeBool`. -/
def writeBool (b : Bool) (w : Encbuf) : Encbuf :=
  if b then w.appendStr [0x01] else w.appendStr [0x80]

/-- `writeBigInt`; `bigEndian` is `big.Int.Bytes`. -/
def writeBigInt (i : ℤ) (w : Encbuf) : Except Err Encbuf :=
  if i < 0 then .error .negativeBigInt
  else if i = 0 then .ok (w.appendStr [0x80])
  else .ok (w.encodeString (bigEndian i.toNat))

/-- `writeBigIntPtr`: a nil pointer is written as zero. -/
def writeBigIntPtr : Option ℤ → Encbuf → Except Err Encbuf
  | none, w => .ok (w.appendStr [0x80])
  | some i, w => writeBigInt i w

/-- `writeBytes`. -/
def writeBytes (b : List UInt8) (w : Encbuf) : Encbuf := w.encodeString b

/-- `writeByteArray` (the copy that makes the array addressable changes nothing). -/
def writeByteArray (b : List UInt8) (w : Encbuf) : Encbuf := w.encodeString b

/-- `writeString`. -/
def writeString (s : List UInt8) (w : Encbuf) : Encbuf :=
  -- fits single byte, no string header
  if s.length = 1 ∧ s.headD 0 ≤ 0x7f then w.appendStr [s.headD 0]
  else (w.encodeStringHeader s.length).appendStr s

/-- Writing the elements of a slice or array one after another with the element writer. -/
def writeElems (elem : Val → Encbuf → Except Err Encbuf) : List Val → Encbuf → Except Err Encbuf
  | [], w => .ok w
  | v :: vs, w => do
    let w ← elem v w
    writeElems elem vs w

/-- `makeSliceWriter`'s writer: the elements inside a list, or, for a `tail` field, spliced
into the enclosing list. The deferred `listEnd` runs on errors too, but the error is returned
and the buffer dropped. -/
def writeSlice (elem : Val → Encbuf → Except Err Encbuf) (tail : Bool) (vs : List Val)
    (w : Encbuf) : Except Err Encbuf :=
  if tail then writeElems elem vs w
  else
    let (lh, w) := w.list
    (writeElems elem vs w).map fun w => w.listEnd lh

/-! ## `makeWriter` -/

mutual
/-- The writer `makeWriter` generates for a type, run on a value. -/
def write : Ty → Val → Encbuf → Except Err Encbuf
  | .uint _, .uint i, w => .ok (writeUint i w)
  | .bool, .bool b, w => .ok (writeBool b w)
  | .string, .string s, w => .ok (writeString s w)
  | .bigInt, .bigInt i, w => writeBigIntPtr i w
  | .slice e, .list vs, w =>
    if e.isByte then .ok (writeBytes (Val.bytes vs) w)
    else writeSlice (fun v w => write e v w) false vs w
  | .array _ e, .list vs, w =>
    if e.isByte then .ok (writeByteArray (Val.bytes vs) w)
    else writeSlice (fun v w => write e v w) false vs w
  | .struct fs tail, .list vs, w =>
    let (lh, w) := w.list
    (writeFields fs tail vs w).map fun w => w.listEnd lh
  | .ptr e, .ptr none, w =>
    -- `makePtrWriter`'s `nilfunc`
    match e with
    | .array _ e' =>
      if e'.isByte then .ok (w.appendStr [0x80])
      -- encoding the zero value of a struct/array could trigger infinite recursion
      else let (lh, w) := w.list; .ok (w.listEnd lh)
    | .struct _ _ => let (lh, w) := w.list; .ok (w.listEnd lh)
    | e => write e e.zero w
  | .ptr e, .ptr (some v), w => write e v w
  | _, _, _ => .error .typeMismatch

/-- The struct writer's loop over the fields; the last field of a `tail` struct uses the
writer generated under the `tail` tag. -/
def writeFields : List Ty → Bool → List Val → Encbuf → Except Err Encbuf
  | [], _, [], w => .ok w
  | [f], true, [v], w => writeTailField f v w
  | f :: fs, tail, v :: vs, w => do
    let w ← write f v w
    writeFields fs tail vs w
  | _, _, _, _ => .error .typeMismatch

/-- `makeWriter` under `tags{tail}`: byte slices are still strings; other slices are
written without a list header. -/
def writeTailField : Ty → Val → Encbuf → Except Err Encbuf
  | .slice e, .list vs, w =>
    if e.isByte then .ok (writeBytes (Val.bytes vs) w)
    else writeSlice (fun v w => write e v w) true vs w
  | _, _, _ => .error .invalidTail
end

/-! ## Entry points -/

/-- `EncodeToBytes`. -/
def encodeToBytes (t : Ty) (v : Val) : Except Err (List UInt8) :=
  (write t v Encbuf.empty).map Encbuf.toBytes

/-- `Encode` on a writer other than an `encbuf`: the `Write` calls it makes. -/
def encode (t : Ty) (v : Val) : Except Err (List (List UInt8)) :=
  (write t v Encbuf.empty).map Encbuf.toWriter

/-- `EncodeToReader`: the announced size and the reader. -/
def encodeToReader (t : Ty) (v : Val) : Except Err (ℕ × EncReader) :=
  (write t v Encbuf.empty).map fun w => (w.size, EncReader.ofEncbuf w)

end Srcd.Rlp
