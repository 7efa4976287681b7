import Srcd.Library.BigEndian

/-! # RLP items and their reference encoding

The abstract layer of the RLP package: an RLP value is a byte string or a list of values, and
its encoding is the recursive definition of the format. A string of one byte below `0x80` is
its own encoding; any other string, and every list, is a header followed by the payload. A
header is one byte for payloads below 56 bytes (`0x80`/`0xC0` plus the length), otherwise a
tag byte (`0xB7`/`0xF7` plus the length of the length) and the minimal big-endian length.

The encoder of `Srcd.Rlp.Encbuf` and the Go value writers of `Srcd.Rlp.Value` are proved to
produce exactly `Item.encode`.
-/

namespace Srcd.Rlp
open Srcd.Library
set_option autoImplicit false

/-- An RLP value: a byte string or a list of values. -/
inductive Item where
  | str (bytes : List UInt8)
  | list (items : List Item)
  deriving Repr

/-- The header of a payload of `n` bytes, with short tag `short` and long tag `long`. -/
def header (short long : UInt8) (n : ℕ) : List UInt8 :=
  if n < 56 then [short + UInt8.ofNat n]
  else (long + UInt8.ofNat (bigEndian n).length) :: bigEndian n

/-- A string that is its own encoding: one byte below `0x80`. -/
def isSingleByte : List UInt8 → Bool
  | [b] => decide (b < 0x80)
  | _ => false

mutual
/-- The reference encoding of an RLP value. -/
def Item.encode : Item → List UInt8
  | .str s => if isSingleByte s then s else header 0x80 0xB7 s.length ++ s
  | .list xs => header 0xC0 0xF7 (Item.encodeList xs).length ++ Item.encodeList xs

/-- The concatenated encodings of a list's elements: the payload of the list. -/
def Item.encodeList : List Item → List UInt8
  | [] => []
  | x :: xs => x.encode ++ Item.encodeList xs
end

@[simp] theorem encode_str (s : List UInt8) :
    (Item.str s).encode = if isSingleByte s then s else header 0x80 0xB7 s.length ++ s := by
  rw [Item.encode]

@[simp] theorem encode_list (xs : List Item) :
    (Item.list xs).encode = header 0xC0 0xF7 (Item.encodeList xs).length ++ Item.encodeList xs := by
  rw [Item.encode]

@[simp] theorem encodeList_nil : Item.encodeList [] = [] := rfl

@[simp] theorem encodeList_cons (x : Item) (xs : List Item) :
    Item.encodeList (x :: xs) = x.encode ++ Item.encodeList xs := rfl

theorem encodeList_append (xs ys : List Item) :
    Item.encodeList (xs ++ ys) = Item.encodeList xs ++ Item.encodeList ys := by
  induction xs with
  | nil => rfl
  | cons x xs ih => simp [ih]

theorem length_header (short long : UInt8) (n : ℕ) :
    (header short long n).length = if n < 56 then 1 else 1 + (bigEndian n).length := by
  unfold header
  split <;> simp [Nat.add_comm]

theorem header_ne_nil (short long : UInt8) (n : ℕ) : header short long n ≠ [] := by
  unfold header
  split <;> simp

theorem isSingleByte_iff (s : List UInt8) : isSingleByte s = true ↔ ∃ b, s = [b] ∧ b < 0x80 := by
  match s with
  | [] => simp [isSingleByte]
  | [b] => simp [isSingleByte]
  | _ :: _ :: _ => simp [isSingleByte]

theorem length_encode_pos (x : Item) : 0 < x.encode.length := by
  cases x with
  | str s =>
    rw [encode_str]
    split
    · next h =>
      obtain ⟨b, rfl, -⟩ := (isSingleByte_iff s).mp h
      simp
    · have := header_ne_nil 0x80 0xB7 s.length
      simpa [List.length_pos_iff] using Or.inl this
  | list xs =>
    have := header_ne_nil 0xC0 0xF7 (Item.encodeList xs).length
    simpa [List.length_pos_iff] using Or.inl this

end Srcd.Rlp
