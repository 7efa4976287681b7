import Srcd.Rlp.Item

/-! # The RLP encode buffer (`rlp/encode.go`)

`encbuf` keeps all string data in `str` and defers list headers: `list` records the offset of
a header and the `lhsize` seen so far, `listEnd` turns that into the payload size, and the
three output paths (`toBytes`, `toWriter`, the `encReader` of `EncodeToReader`) splice the
headers back in. Integers are `ℕ` (the code's `int`/`uint64` sizes never overflow here);
`putint` is modelled as the bytes it writes, `puthead` likewise. `sizebuf` is scratch space
and is not modelled.

The writers of Go values (`Srcd.Rlp.Value`) drive this buffer; `Srcd.Rlp.EncbufSpec` proves
that all three outputs are the reference encoding.
-/

namespace Srcd.Rlp
open Srcd.Library
set_option autoImplicit false

/-! ## Integers and headers -/

/-- `putint`: the bytes of `i` in big-endian order, using the least number of bytes. -/
def putint (i : ℕ) : List UInt8 :=
  if i < 2 ^ 8 then [UInt8.ofNat i]
  else if i < 2 ^ 16 then [UInt8.ofNat (i >>> 8), UInt8.ofNat i]
  else if i < 2 ^ 24 then [UInt8.ofNat (i >>> 16), UInt8.ofNat (i >>> 8), UInt8.ofNat i]
  else if i < 2 ^ 32 then
    [UInt8.ofNat (i >>> 24), UInt8.ofNat (i >>> 16), UInt8.ofNat (i >>> 8), UInt8.ofNat i]
  else if i < 2 ^ 40 then
    [UInt8.ofNat (i >>> 32), UInt8.ofNat (i >>> 24), UInt8.ofNat (i >>> 16),
      UInt8.ofNat (i >>> 8), UInt8.ofNat i]
  else if i < 2 ^ 48 then
    [UInt8.ofNat (i >>> 40), UInt8.ofNat (i >>> 32), UInt8.ofNat (i >>> 24),
      UInt8.ofNat (i >>> 16), UInt8.ofNat (i >>> 8), UInt8.ofNat i]
  else if i < 2 ^ 56 then
    [UInt8.ofNat (i >>> 48), UInt8.ofNat (i >>> 40), UInt8.ofNat (i >>> 32),
      UInt8.ofNat (i >>> 24), UInt8.ofNat (i >>> 16), UInt8.ofNat (i >>> 8), UInt8.ofNat i]
  else
    [UInt8.ofNat (i >>> 56), UInt8.ofNat (i >>> 48), UInt8.ofNat (i >>> 40),
      UInt8.ofNat (i >>> 32), UInt8.ofNat (i >>> 24), UInt8.ofNat (i >>> 16),
      UInt8.ofNat (i >>> 8), UInt8.ofNat i]

/-- `intsize`: the minimum number of bytes required to store `i` (the loop shifting `i` right
by one byte until it is zero). -/
def intsize (i : ℕ) : ℕ :=
  if i >>> 8 = 0 then 1 else intsize (i >>> 8) + 1
termination_by i
decreasing_by
  rw [Nat.shiftRight_eq_div_pow]
  exact Nat.div_lt_self (Nat.pos_of_ne_zero fun h => by simp_all) (by norm_num)

/-- `headsize`: the size of a list or string header for a payload of `size` bytes. -/
def headsize (size : ℕ) : ℕ := if size < 56 then 1 else 1 + intsize size

/-- `puthead`: the list or string header written for a payload of `size` bytes. -/
def puthead (smalltag largetag : UInt8) (size : ℕ) : List UInt8 :=
  if size < 56 then [smalltag + UInt8.ofNat size]
  else (largetag + UInt8.ofNat (putint size).length) :: putint size

/-- Go's `copy(out[pos:], src)`: overwrite `out` from `pos` with as much of `src` as fits;
also the number of bytes copied. -/
def copyInto (out : List UInt8) (pos : ℕ) (src : List UInt8) : List UInt8 × ℕ :=
  let n := min (out.length - pos) src.length
  (out.take pos ++ src.take n ++ out.drop (pos + n), n)

/-! ## The buffer -/

/-- A deferred list header. -/
structure Listhead where
  /-- index of this header in string data -/
  offset : ℕ
  /-- while the list is open, `lhsize` at its start; then the payload size -/
  size : ℕ
  deriving Repr, DecidableEq

/-- `encbuf`: string data (everything except list headers), all list headers, and the sum of
the sizes of the list headers encoded so far. -/
structure Encbuf where
  str : List UInt8
  lheads : List Listhead
  lhsize : ℕ
  deriving Repr, DecidableEq

/-- A buffer after `reset`. -/
def Encbuf.empty : Encbuf := ⟨[], [], 0⟩

/-- The header bytes of a closed list (`listhead.encode`). -/
def Listhead.encode (head : Listhead) : List UInt8 := puthead 0xC0 0xF7 head.size

namespace Encbuf

/-- `size`: the length of the output, headers included. -/
def size (w : Encbuf) : ℕ := w.str.length + w.lhsize

/-- Appending bytes to the string data (`w.str = append(w.str, b...)`). -/
def appendStr (w : Encbuf) (b : List UInt8) : Encbuf := { w with str := w.str ++ b }

/-- `encodeStringHeader`. -/
def encodeStringHeader (w : Encbuf) (size : ℕ) : Encbuf :=
  if size < 56 then w.appendStr [0x80 + UInt8.ofNat size]
  else w.appendStr ((0xB7 + UInt8.ofNat (putint size).length) :: putint size)

/-- `encodeString`: a single byte below `0x80` is written as is, any other string after its
header. -/
def encodeString (w : Encbuf) (b : List UInt8) : Encbuf :=
  if b.length = 1 ∧ b.headD 0 ≤ 0x7F then w.appendStr [b.headD 0]
  else (w.encodeStringHeader b.length).appendStr b

/-- `list`: open a list; the result's first component stands for the returned `*listhead`
(its index in `lheads`). -/
def list (w : Encbuf) : ℕ × Encbuf :=
  (w.lheads.length, { w with lheads := w.lheads ++ [⟨w.str.length, w.lhsize⟩] })

/-- `listEnd`: close the list whose header is at index `lh`. -/
def listEnd (w : Encbuf) (lh : ℕ) : Encbuf :=
  let head := w.lheads.getD lh ⟨0, 0⟩
  let size := w.size - head.offset - head.size
  { w with
    lheads := w.lheads.set lh { head with size := size }
    lhsize := if size < 56 then w.lhsize + 1 else w.lhsize + (1 + intsize size) }

/-! ## The three output paths -/

/-- One round of `toBytes`' loop over the headers: the string data before `head`, then the
header, written into `out` at `pos`. -/
def toBytesStep (str : List UInt8) (acc : List UInt8 × ℕ × ℕ) (head : Listhead) :
    List UInt8 × ℕ × ℕ :=
  let (out, strpos, pos) := acc
  let (out, n) := copyInto out pos ((str.drop strpos).take (head.offset - strpos))
  let enc := head.encode
  ((copyInto out (pos + n) enc).1, strpos + n, pos + n + enc.length)

/-- `toBytes`: an output buffer of `size` bytes, filled header by header. -/
def toBytes (w : Encbuf) : List UInt8 :=
  let (out, strpos, pos) := w.lheads.foldl (toBytesStep w.str) (List.replicate w.size 0, 0, 0)
  -- copy string data after the last list header
  (copyInto out pos (w.str.drop strpos)).1

/-- One round of `toWriter`'s loop: the `Write` calls for the string data before `head` (if
any) and for the header. The writer accepts every write in full. -/
def toWriterStep (str : List UInt8) (acc : List (List UInt8) × ℕ) (head : Listhead) :
    List (List UInt8) × ℕ :=
  let (writes, strpos) := acc
  let before := (str.drop strpos).take (head.offset - strpos)
  let (writes, strpos) :=
    if head.offset - strpos > 0 then (writes ++ [before], strpos + before.length)
    else (writes, strpos)
  (writes ++ [head.encode], strpos)

/-- `toWriter`: the sequence of `Write` calls made on the output writer. -/
def toWriter (w : Encbuf) : List (List UInt8) :=
  let (writes, strpos) := w.lheads.foldl (toWriterStep w.str) ([], 0)
  if strpos < w.str.length then writes ++ [w.str.drop strpos] else writes

end Encbuf

/-- `encReader`: the reader of `EncodeToReader`. `buf` is `none` once EOF was seen; an empty
`piece` stands for `nil` (pieces handed out are never empty). -/
structure EncReader where
  buf : Option Encbuf
  lhpos : ℕ
  strpos : ℕ
  piece : List UInt8

namespace EncReader

/-- `next`: the next piece of data to be read, empty at EOF. -/
def next (r : EncReader) : EncReader × List UInt8 :=
  match r.buf with
  | none => (r, [])
  | some buf =>
    if r.piece ≠ [] then (r, r.piece)
    else
      match buf.lheads[r.lhpos]? with
      | some head =>
        -- before the last list header
        let sizebefore := head.offset - r.strpos
        if sizebefore > 0 then
          ({ r with strpos := r.strpos + sizebefore }, (buf.str.drop r.strpos).take sizebefore)
        else ({ r with lhpos := r.lhpos + 1 }, head.encode)
      | none =>
        -- string data at the end, after all list headers
        if r.strpos < buf.str.length then
          ({ r with strpos := buf.str.length }, buf.str.drop r.strpos)
        else (r, [])

/-- `Read(b)` on a buffer `b` of `space` bytes: the reader afterwards, the bytes copied into
`b`, and whether the call returned `io.EOF`. -/
def read (r : EncReader) (space : ℕ) : EncReader × List UInt8 × Bool :=
  match r.next with
  | (r', p) =>
    if hp : p = [] then ({ r' with buf := none, piece := [] }, [], true)
    else if hs : space < p.length then ({ r' with piece := p.drop space }, p.take space, false)
    else
      let res := read { r' with piece := [] } (space - p.length)
      (res.1, p ++ res.2.1, res.2.2)
termination_by space
decreasing_by
  have : 0 < p.length := List.length_pos_iff.mpr hp
  omega

end EncReader

/-- The reader `EncodeToReader` returns for a filled buffer. -/
def EncReader.ofEncbuf (w : Encbuf) : EncReader := ⟨some w, 0, 0, []⟩

/-- The bytes obtained by calling `Read` with buffers of the given sizes, one after another. -/
def EncReader.readSeq (r : EncReader) : List ℕ → List UInt8
  | [] => []
  | k :: ks => let res := r.read k; res.2.1 ++ EncReader.readSeq res.1 ks

end Srcd.Rlp
