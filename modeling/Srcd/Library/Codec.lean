import Mathlib

/-! # Byte codecs of Go's standard library

Unsigned varints (`encoding/binary`): seven bits a byte, lowest first, the high bit set on every
byte but the last, at most ten bytes for a 64-bit number. Hexadecimal text (`encoding/hex`): two
lower-case digits a byte. Each reader is a function of the unread input that returns its result
or error and the input left, as a reader that consumes what it has read does; what the varint
writer writes reads back (`readUvarint_putUvarint`).
-/

namespace Srcd.Library
set_option autoImplicit false

/-! ## Unsigned varints -/

/-- The loop of `binary.PutUvarint`, with at most `k` rounds before the last byte. -/
def putUvarintLoop : ℕ → ℕ → List UInt8
  | 0, x => [x.toUInt8]
  | k + 1, x => if x < 0x80 then [x.toUInt8] else (x % 128 + 128).toUInt8 :: putUvarintLoop k (x / 128)

/-- `binary.PutUvarint`: a 64-bit number leaves the loop after nine rounds at most. -/
def putUvarint (x : UInt64) : List UInt8 := putUvarintLoop 9 x.toNat

inductive ReadErr where
  /-- `io.EOF`: no byte to read -/
  | eof
  /-- `io.ErrUnexpectedEOF`: the input ends inside a number -/
  | unexpectedEOF
  /-- `binary: varint overflows a 64-bit integer` -/
  | overflow
  deriving DecidableEq, Repr

/-- The loop of `binary.ReadUvarint` at byte `i`, with the value `x` of the bytes before it (their
seven-bit groups do not overlap, so or-ing them in is adding them). -/
def readUvarintFrom (i x : ℕ) : List UInt8 → Except ReadErr ℕ × List UInt8
  | [] => (.error (if 0 < i then .unexpectedEOF else .eof), [])
  | b :: rest =>
    if b < 0x80 then
      if i = 9 ∧ 1 < b then (.error .overflow, rest)
      else (.ok (x + b.toNat * 128 ^ i), rest)
    else if i = 9 then (.error .overflow, rest)
    else readUvarintFrom (i + 1) (x + (b.toNat % 128) * 128 ^ i) rest

/-- `binary.ReadUvarint`. -/
def readUvarint (input : List UInt8) : Except ReadErr ℕ × List UInt8 := readUvarintFrom 0 0 input

/-- The reader only consumes: what it leaves is a suffix of its input. -/
theorem readUvarintFrom_suffix : ∀ (i x : ℕ) (input : List UInt8),
    (readUvarintFrom i x input).2 <:+ input
  | _, _, [] => List.suffix_refl _
  | i, x, b :: rest => by
    have hrest : rest <:+ b :: rest := List.suffix_cons b rest
    unfold readUvarintFrom
    split_ifs
    · exact hrest
    · exact hrest
    · exact hrest
    · exact (readUvarintFrom_suffix _ _ rest).trans hrest

theorem toNat_toUInt8_of_lt {n : ℕ} (h : n < 256) : n.toUInt8.toNat = n := by
  simp [Nat.mod_eq_of_lt h]

/-- The last byte of a number, read at byte `i`, where it still fits 64 bits. -/
theorem readUvarintFrom_last {i y : ℕ} (acc : ℕ) (rest : List UInt8) (hy : y < 128)
    (hfit : y * 128 ^ i < 2 ^ 64) :
    readUvarintFrom i acc (y.toUInt8 :: rest) = (.ok (acc + y * 128 ^ i), rest) := by
  have hb : (y.toUInt8).toNat = y := toNat_toUInt8_of_lt (by omega)
  have hsmall : ¬ (i = 9 ∧ 1 < y) := by
    rintro ⟨rfl, h1⟩
    have : 2 * 128 ^ 9 ≤ y * 128 ^ 9 := Nat.mul_le_mul_right _ h1
    norm_num at this hfit
    omega
  simp [readUvarintFrom, UInt8.lt_iff_toNat_lt, hb, hy, hsmall]

/-- A number of `k + 1` groups at most, read from byte `i` on, where it still fits 64 bits. -/
theorem readUvarintFrom_putUvarintLoop : ∀ (k i acc y : ℕ) (rest : List UInt8),
    y < 128 ^ (k + 1) → y * 128 ^ i < 2 ^ 64 → i + k ≤ 9 →
      readUvarintFrom i acc (putUvarintLoop k y ++ rest) = (.ok (acc + y * 128 ^ i), rest) := by
  intro k
  induction k with
  | zero =>
    intro i acc y rest hy hfit _
    exact readUvarintFrom_last acc rest (by simpa using hy) hfit
  | succ k ih =>
    intro i acc y rest hy hfit hik
    by_cases hsmall : y < 0x80
    · -- one byte: the last
      rw [putUvarintLoop, if_pos hsmall]
      exact readUvarintFrom_last acc rest hsmall hfit
    · -- a byte with the high bit, then the rest of the number at the next byte
      have hb : ((y % 128 + 128).toUInt8).toNat = y % 128 + 128 :=
        toNat_toUInt8_of_lt (by omega)
      have hnext : y / 128 < 128 ^ (k + 1) := by
        rw [Nat.div_lt_iff_lt_mul (by norm_num), ← pow_succ]
        exact hy
      have hfit' : y / 128 * 128 ^ (i + 1) < 2 ^ 64 := by
        calc y / 128 * 128 ^ (i + 1) = y / 128 * 128 * 128 ^ i := by ring
          _ ≤ y * 128 ^ i := Nat.mul_le_mul_right _ (Nat.div_mul_le_self y 128)
          _ < 2 ^ 64 := hfit
      rw [putUvarintLoop, if_neg hsmall, List.cons_append, readUvarintFrom]
      simp only [UInt8.lt_iff_toNat_lt, hb, UInt8.reduceToNat]
      rw [if_neg (by omega), if_neg (by omega), ih (i + 1) _ (y / 128) rest hnext hfit' (by omega)]
      rw [show (y % 128 + 128) % 128 = y % 128 by omega]
      congr 2
      calc acc + y % 128 * 128 ^ i + y / 128 * 128 ^ (i + 1)
          = acc + (y % 128 + 128 * (y / 128)) * 128 ^ i := by ring
        _ = acc + y * 128 ^ i := by rw [Nat.mod_add_div]

theorem readUvarint_putUvarint (x : UInt64) (rest : List UInt8) :
    readUvarint (putUvarint x ++ rest) = (.ok x.toNat, rest) := by
  have hx := x.toNat_lt
  rw [readUvarint, putUvarint, readUvarintFrom_putUvarintLoop 9 0 0 x.toNat rest
    (by norm_num at hx ⊢; omega) (by norm_num at hx ⊢; omega) (by norm_num)]
  simp

/-! ## Hexadecimal text -/

/-- The bytes of a string of ASCII characters. -/
def ascii (s : String) : List UInt8 := s.toList.map fun c => c.toNat.toUInt8

def hextable : List UInt8 := ascii "0123456789abcdef"

/-- `hex.Encode`. -/
def hexEncode (src : List UInt8) : List UInt8 :=
  src.flatMap fun v => [hextable.getD (v.toNat / 16) 0, hextable.getD (v.toNat % 16) 0]

inductive HexErr where
  /-- `hex.ErrLength`: an odd number of digits -/
  | length
  /-- `hex.InvalidByteError`: a byte that is no digit -/
  | invalidByte (b : UInt8)
  deriving DecidableEq, Repr

/-- `fromHexChar`: the value of a digit, upper or lower case. -/
def fromHexChar (c : UInt8) : Option UInt8 :=
  if 0x30 ≤ c ∧ c ≤ 0x39 then some (c - 0x30)
  else if 0x61 ≤ c ∧ c ≤ 0x66 then some (c - 0x61 + 10)
  else if 0x41 ≤ c ∧ c ≤ 0x46 then some (c - 0x41 + 10)
  else none

/-- `hex.Decode`: two digits a byte; a digit left over is an error, and so is a byte left over
that is no digit. -/
def hexDecode : List UInt8 → Except HexErr (List UInt8)
  | [] => .ok []
  | [a] => if (fromHexChar a).isNone then .error (.invalidByte a) else .error .length
  | a :: b :: rest =>
    match fromHexChar a, fromHexChar b with
    | some p, some q => (hexDecode rest).map (((p <<< 4) ||| q) :: ·)
    | none, _ => .error (.invalidByte a)
    | some _, none => .error (.invalidByte b)

end Srcd.Library
