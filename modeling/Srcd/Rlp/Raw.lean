import Srcd.Rlp.Stream

/-! # Splitting encoded values (`rlp/raw.go`)

The functions of `raw.go` read the tag of the first value of a buffer and cut the buffer into
that value's content and what follows, without decoding the content. Their `readKind` is the
buffer counterpart of `Stream.readKind`, with the same canonicity checks. The content and the
rest are returned only when the tag and the size fit in the buffer, so that `split` never cuts
out of range and `countValues` ends (`readKind_spec`).
-/

namespace Srcd.Rlp.Raw
open Srcd.Library
set_option autoImplicit false

/-- `readSize`: a big-endian size of `slen` bytes; sizes below 56 and sizes with a leading
zero byte are not canonical. Every call has `1 ≤ slen ≤ 8`. -/
def readSize (b : List UInt8) (slen : ℕ) : Except Err ℕ :=
  if slen > b.length then .error .unexpectedEOF
  else
    let s := ofBigEndian (b.take slen)
    if s < 56 ∨ b.headD 0 = 0 then .error .canonSize else .ok s

/-- The `switch` of `readKind` on the tag byte `b`: the kind, the size of the tag and the size
of the content. -/
def readTag (b : UInt8) (rest : List UInt8) : Except Err (Kind × ℕ × ℕ) :=
  if b < 0x80 then .ok (.byte, 0, 1)
  else if b < 0xB8 then
    -- Reject strings that should've been single bytes.
    if (b - 0x80).toNat = 1 ∧ rest.head?.any (· < 128) then .error .canonSize
    else .ok (.string, 1, (b - 0x80).toNat)
  else if b < 0xC0 then
    (readSize rest (b - 0xB7).toNat).map fun size => (.string, (b - 0xB7).toNat + 1, size)
  else if b < 0xF8 then .ok (.list, 1, (b - 0xC0).toNat)
  else
    (readSize rest (b - 0xF7).toNat).map fun size => (.list, (b - 0xF7).toNat + 1, size)

def readKind (buf : List UInt8) : Except Err (Kind × ℕ × ℕ) :=
  match buf with
  | [] => .error .unexpectedEOF
  | b :: rest => do
    let (k, tagsize, contentsize) ← readTag b rest
    -- Reject values larger than the input slice.
    if contentsize > buf.length - tagsize then .error .valueTooLarge
    else pure (k, tagsize, contentsize)

/-- `Split`: the kind and content of the first value, and the bytes after it. -/
def split (b : List UInt8) : Except Err (Kind × List UInt8 × List UInt8) := do
  let (k, ts, cs) ← readKind b
  pure (k, (b.drop ts).take cs, b.drop (ts + cs))

def splitString (b : List UInt8) : Except Err (List UInt8 × List UInt8) := do
  let (k, content, rest) ← split b
  if k = .list then throw .expectedString
  pure (content, rest)

def splitList (b : List UInt8) : Except Err (List UInt8 × List UInt8) := do
  let (k, content, rest) ← split b
  if k ≠ .list then throw .expectedList
  pure (content, rest)

/-! ## The sizes `readKind` returns -/

theorem readSize_le {b : List UInt8} {slen s : ℕ} (h : readSize b slen = .ok s) :
    slen ≤ b.length := by
  unfold readSize at h
  split_ifs at h with h₁
  · exact Nat.le_of_not_lt h₁

/-- A tag has room for itself in the buffer and takes at least one byte with its content. -/
theorem readTag_spec {b : UInt8} {rest : List UInt8} {k : Kind} {ts cs : ℕ}
    (h : readTag b rest = .ok (k, ts, cs)) : ts ≤ rest.length + 1 ∧ 0 < ts + cs := by
  unfold readTag at h
  split_ifs at h
  · cases h
    omega
  · cases h
    omega
  · rcases hs : readSize rest (b - 0xB7).toNat with _ | s <;> rw [hs] at h <;> cases h
    have := readSize_le hs
    omega
  · cases h
    omega
  · rcases hs : readSize rest (b - 0xF7).toNat with _ | s <;> rw [hs] at h <;> cases h
    have := readSize_le hs
    omega

theorem readKind_spec {buf : List UInt8} {k : Kind} {ts cs : ℕ}
    (h : readKind buf = .ok (k, ts, cs)) : 0 < ts + cs ∧ ts + cs ≤ buf.length := by
  cases buf with
  | nil => cases h
  | cons b rest =>
    simp only [readKind] at h
    rcases ht : readTag b rest with _ | ⟨k', ts', cs'⟩ <;> rw [ht] at h
    · cases h
    · have hspec := readTag_spec ht
      simp only [except_ok_bind] at h
      split_ifs at h with hgt
      cases h
      simp only [List.length_cons] at hgt ⊢
      omega

/-- `CountValues`: the number of values in a buffer, or the first error of `readKind`. -/
def countValues (b : List UInt8) : Except Err ℕ :=
  if _hb : b = [] then .ok 0
  else
    match hk : readKind b with
    | .error err => .error err
    | .ok (_, tagsize, size) => (countValues (b.drop (tagsize + size))).map (· + 1)
termination_by b.length
decreasing_by
  have := (readKind_spec hk).1
  have hpos : 0 < b.length := List.length_pos_iff.mpr _hb
  simp only [List.length_drop]
  omega

theorem countValues_nil : countValues [] = .ok 0 := by
  rw [countValues, dif_pos rfl]

/-- One round of the loop of `CountValues`. -/
theorem countValues_of_readKind {b : List UInt8} (hb : b ≠ []) {k : Kind} {ts cs : ℕ}
    (h : readKind b = .ok (k, ts, cs)) :
    countValues b = (countValues (b.drop (ts + cs))).map (· + 1) := by
  rw [countValues, dif_neg hb]
  split <;> simp_all

end Srcd.Rlp.Raw
