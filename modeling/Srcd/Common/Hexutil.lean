import Srcd.Common.Math
import Srcd.Library.ExceptState
import Mathlib

/-! # Hex quantities (`common/hexutil`)

A quantity is `0x` followed by hex digits with no leading zero. `DecodeBig` and
`Big.UnmarshalText` check the prefix, then walk the digits backwards in chunks of
`bigWordNibbles`, one `big.Word` per chunk, and hand the words to `SetBits`; `DecodeUint64` hands
the digits to `strconv.ParseUint`. Strings are their bytes; a non-negative `*big.Int` is a
natural number.

Both big decoders read the digits as their value when there are at most 64 of them
(`decodeBigDigits_eq`), so each accepts exactly the quantities of at most 64 digits and returns
their value (`decodeBig_eq_ok_iff`), except that `Big.UnmarshalText` also accepts the empty text
as zero: `checkNumberText` lets it through (`checkNumberText_eq`). `DecodeUint64` accepts
exactly the quantities of at most 16 digits (`decodeUint64_eq_ok_iff`). The encoders write
quantities, so each pair round-trips.
-/

namespace Srcd.Common
open Srcd.Library
set_option autoImplicit false

/-- The sentinel errors these functions return, `ErrSyntax` (`invalid hex string`) as
`invalidHex`; `ErrOddLength` and `ErrUintRange` belong to decoders not modelled here. -/
inductive HexError
  | emptyString
  | invalidHex
  | missingPrefix
  | emptyNumber
  | leadingZero
  | uint64Range
  | big256Range
  deriving DecidableEq, Repr

/-- The errors of `strconv.ParseUint` that `mapError` translates: `ErrRange`, and `ErrSyntax`
(`invalid syntax`) as `invalid`. -/
inductive NumError
  | range
  | invalid
  deriving DecidableEq, Repr

/-- `mapError` on the errors of `strconv.ParseUint`. -/
def mapError : NumError → HexError
  | .range => .uint64Range
  | .invalid => .invalidHex

/-! ## Checking the prefix -/

/-- `has0xPrefix`: `'0'` then `'x'` or `'X'`. -/
def has0xPrefix : List UInt8 → Bool
  | c0 :: c1 :: _ => c0 == 0x30 && (c1 == 0x78 || c1 == 0x58)
  | _ => false

/-- `bytesHave0xPrefix`, the same test on a byte slice. -/
def bytesHave0xPrefix (input : List UInt8) : Bool := has0xPrefix input

/-- `checkNumber`: the digits after the prefix, of which there is at least one and no leading
zero unless it is the only one. -/
def checkNumber (input : List UInt8) : Except HexError (List UInt8) :=
  if input.length = 0 then .error .emptyString
  else if !has0xPrefix input then .error .missingPrefix
  else
    let input := input.drop 2
    if input.length = 0 then .error .emptyNumber
    else if input.length > 1 ∧ input.head? = some 0x30 then .error .leadingZero
    else .ok input

/-- `checkNumberText`, the check of `Big.UnmarshalText`: as `checkNumber`, except that the empty
input passes as no digits. -/
def checkNumberText (input : List UInt8) : Except HexError (List UInt8) :=
  if input.length = 0 then .ok []
  else if !bytesHave0xPrefix input then .error .missingPrefix
  else
    let input := input.drop 2
    if input.length = 0 then .error .emptyNumber
    else if input.length > 1 ∧ input.head? = some 0x30 then .error .leadingZero
    else .ok input

/-! ## Digits -/

/-- `decodeNibble`; `badNibble` is `none`. The guards make the byte subtractions exact. -/
def decodeNibble (c : UInt8) : Option ℕ :=
  if 0x30 ≤ c.toNat ∧ c.toNat ≤ 0x39 then some (c.toNat - 0x30)
  else if 0x41 ≤ c.toNat ∧ c.toNat ≤ 0x46 then some (c.toNat - 0x41 + 10)
  else if 0x61 ≤ c.toNat ∧ c.toNat ≤ 0x66 then some (c.toNat - 0x61 + 10)
  else none

/-- The value of hex digits, most significant first, or `none` if one is not a hex digit. -/
def hexValue (digits : List UInt8) : Option ℕ :=
  (digits.mapM decodeNibble).map fun nibs => Nat.ofDigits 16 nibs.reverse

/-- A hex quantity of at most `k` digits whose digits read as `v`: `0x` or `0X`, then one to `k`
hex digits of either case, with no leading zero unless the number is `0`. -/
def IsQuantity (k : ℕ) (s : List UInt8) (v : ℕ) : Prop :=
  ∃ x digits, s = 0x30 :: x :: digits ∧ (x = 0x78 ∨ x = 0x58) ∧ 0 < digits.length ∧
    digits.length ≤ k ∧ (1 < digits.length → digits.head? ≠ some 0x30) ∧ hexValue digits = some v

/-! ## `DecodeBig` and `Big.UnmarshalText` -/

/-- `bigWordNibbles`: the hex digits of one `big.Word`, sixteen on a 64-bit platform and eight
on a 32-bit one, as `init` finds them. -/
def bigWordNibbles (ws : WordSize) : ℕ := 2 * ws.bytes

/-- The inner loop over `raw[start:end]`: the digits of one word. A word gets at most
`bigWordNibbles` digits, so the `big.Word` arithmetic never wraps. -/
def decodeWord (digits : List UInt8) : Except HexError ℕ :=
  digits.foldlM (fun w c =>
    match decodeNibble c with
    | some nib => .ok (w * 16 + nib)
    | none => .error .invalidHex) 0

/-- The loop over `words`, least significant first, on `raw[:end]`: each word takes the last
`nibbles` digits, all that are left when there are fewer (`start` is clamped at `0`). -/
def decodeWords (nibbles : ℕ) : ℕ → List UInt8 → Except HexError (List ℕ)
  | 0, _ => .ok []
  | n + 1, pre => do
    let start := pre.length - nibbles
    let w ← decodeWord (pre.drop start)
    let words ← decodeWords nibbles n (pre.take start)
    pure (w :: words)

/-- `SetBits`: the number whose words are `words`, least significant first. -/
def setBits (ws : WordSize) (words : List ℕ) : ℕ := Nat.ofDigits (2 ^ ws.bits) words

/-- What `DecodeBig` does after `checkNumber`; `Big.UnmarshalText` repeats it verbatim. -/
def decodeBigDigits (ws : WordSize) (raw : List UInt8) : Except HexError ℕ :=
  if raw.length > 64 then .error .big256Range
  else do
    let words ← decodeWords (bigWordNibbles ws) (raw.length / bigWordNibbles ws + 1) raw
    pure (setBits ws words)

/-- `DecodeBig`. -/
def decodeBig (ws : WordSize) (input : List UInt8) : Except HexError ℕ := do
  let raw ← checkNumber input
  decodeBigDigits ws raw

/-- `Big.UnmarshalText`: the value it stores on success. -/
def Big.unmarshalText (ws : WordSize) (input : List UInt8) : Except HexError ℕ := do
  let raw ← checkNumberText input
  decodeBigDigits ws raw

/-! ## Encoders -/

/-- A lower-case hex digit, as `fmt` and `strconv` write them. -/
def hexDigit (d : ℕ) : UInt8 := if d < 10 then (0x30 + d).toUInt8 else (0x61 + d - 10).toUInt8

/-- `strconv.FormatUint(x, 16)`, which is also what `%x` writes for a `*big.Int`: the
lower-case digits with no leading zero, `"0"` for zero. -/
def formatHex (x : ℕ) : List UInt8 :=
  if x = 0 then [0x30] else (Nat.digits 16 x).reverse.map hexDigit

/-- `EncodeBig`; `BitLen` is `Nat.size`, and `%#x` writes `0x` then the digits. -/
def encodeBig (x : ℕ) : List UInt8 :=
  if Nat.size x = 0 then [0x30, 0x78, 0x30] else [0x30, 0x78] ++ formatHex x

/-- `Big.MarshalText`. -/
def Big.marshalText (x : ℕ) : List UInt8 := encodeBig x

/-- `EncodeUint64`: `0x` then `strconv.AppendUint(_, i, 16)`. -/
def encodeUint64 (i : UInt64) : List UInt8 := [0x30, 0x78] ++ formatHex i.toNat

/-! ## `DecodeUint64` -/

/-- `lower` of `strconv`: sets the bit that makes an ASCII letter lower case. -/
def lower (c : UInt8) : UInt8 := c ||| 0x20

/-- The digit classes of `strconv.ParseUint`: decimal digits, then letters of either case
from ten on; `none` for anything else. -/
def digitValue (c : UInt8) : Option ℕ :=
  if 0x30 ≤ c.toNat ∧ c.toNat ≤ 0x39 then some (c.toNat - 0x30)
  else if 0x61 ≤ (lower c).toNat ∧ (lower c).toNat ≤ 0x7a then some ((lower c).toNat - 0x61 + 10)
  else none

/-- The digit loop of `strconv.ParseUint(s, 16, 64)` from the value `n` so far. `cutoff` is
`maxUint64 / 16 + 1`; the test `n1 < n || n1 > maxVal` on the wrapped `uint64` sum is
`n1 > maxVal` on natural numbers. -/
def parseUintLoop (n : ℕ) : List UInt8 → Except NumError ℕ
  | [] => .ok n
  | c :: s =>
    match digitValue c with
    | none => .error .invalid
    | some d =>
      if d ≥ 16 then .error .invalid
      else if n ≥ (2 ^ 64 - 1) / 16 + 1 then .error .range
      else if n * 16 + d > 2 ^ 64 - 1 then .error .range
      else parseUintLoop (n * 16 + d) s

/-- `strconv.ParseUint(s, 16, 64)`. -/
def parseUint (s : List UInt8) : Except NumError UInt64 :=
  if s = [] then .error .invalid else (parseUintLoop 0 s).map Nat.toUInt64

/-- `DecodeUint64`. -/
def decodeUint64 (input : List UInt8) : Except HexError UInt64 := do
  let raw ← checkNumber input
  (parseUint raw).mapError mapError

/-! ## Digit values -/

theorem decodeNibble_lt {c : UInt8} {d : ℕ} (h : decodeNibble c = some d) : d < 16 := by
  unfold decodeNibble at h
  split_ifs at h <;> (cases h; omega)

theorem eq_zero_char_of_decodeNibble {c : UInt8} (h : decodeNibble c = some 0) : c = 0x30 := by
  unfold decodeNibble at h
  split_ifs at h with h1
  · simp only [Option.some.injEq] at h
    exact UInt8.toNat_inj.mp (by simp; omega)
  all_goals simp at h

theorem decodeNibble_hexDigit : ∀ d, d < 16 → decodeNibble (hexDigit d) = some d := by decide

theorem hexDigit_ne_zero_char : ∀ d, d < 16 → d ≠ 0 → hexDigit d ≠ 0x30 := by decide

set_option maxRecDepth 4000 in
/-- `ParseUint`'s digits below sixteen are the hex digits, at the same values. -/
theorem decodeNibble_eq_filter (c : UInt8) :
    decodeNibble c = (digitValue c).filter fun d => decide (d < 16) := by
  have hall : ∀ n < 256, decodeNibble n.toUInt8 =
      (digitValue n.toUInt8).filter fun d => decide (d < 16) := by decide
  simpa using hall c.toNat c.toNat_lt

/-- What `mapM decodeNibble` returns: one value below sixteen for each digit. -/
theorem mapM_decodeNibble_spec :
    ∀ {digits : List UInt8} {nibs : List ℕ}, digits.mapM decodeNibble = some nibs →
      nibs.length = digits.length ∧ ∀ d ∈ nibs, d < 16
  | [], nibs, h => by
    simp only [List.mapM_nil, Option.pure_def, Option.some.injEq] at h
    simp [← h]
  | c :: cs, nibs, h => by
    simp only [List.mapM_cons, Option.bind_eq_bind, Option.bind_eq_some_iff, Option.pure_def,
      Option.some.injEq] at h
    obtain ⟨d, hd, ds, hds, rfl⟩ := h
    obtain ⟨hlen, hlt⟩ := mapM_decodeNibble_spec hds
    refine ⟨by simp [hlen], ?_⟩
    intro e he
    rcases List.mem_cons.mp he with rfl | he
    · exact decodeNibble_lt hd
    · exact hlt e he

@[simp] theorem hexValue_nil : hexValue [] = some 0 := rfl

/-- Digits after digits: the value of the first part shifts by the length of the second. -/
theorem hexValue_append (a b : List UInt8) :
    hexValue (a ++ b) = (hexValue a).bind fun x => (hexValue b).map fun y => x * 16 ^ b.length + y := by
  unfold hexValue
  rcases ha : a.mapM decodeNibble with _ | xs <;> rcases hb : b.mapM decodeNibble with _ | ys <;>
    simp [List.mapM_append, ha, hb]
  rw [Nat.ofDigits_append, List.length_reverse, (mapM_decodeNibble_spec hb).1]
  ring

theorem hexValue_cons (c : UInt8) (s : List UInt8) :
    hexValue (c :: s) =
      (decodeNibble c).bind fun d => (hexValue s).map fun y => d * 16 ^ s.length + y := by
  have hc : hexValue [c] = decodeNibble c := by
    unfold hexValue
    rcases hd : decodeNibble c with _ | d <;> simp [hd]
  rw [← List.singleton_append, hexValue_append, hc]

theorem hexValue_lt {s : List UInt8} {v : ℕ} (h : hexValue s = some v) : v < 16 ^ s.length := by
  unfold hexValue at h
  obtain ⟨nibs, hnibs, rfl⟩ := Option.map_eq_some_iff.mp h
  obtain ⟨hlen, hlt⟩ := mapM_decodeNibble_spec hnibs
  have hrev : ∀ d ∈ nibs.reverse, d < 16 := fun d hd => hlt d (List.mem_reverse.mp hd)
  simpa [hlen] using Nat.ofDigits_lt_base_pow_length (by decide) hrev

/-! ## The word loops -/

theorem decodeWord_append_singleton (cs : List UInt8) (c : UInt8) :
    decodeWord (cs ++ [c]) = decodeWord cs >>= fun w =>
      match decodeNibble c with
      | some nib => .ok (w * 16 + nib)
      | none => .error .invalidHex := by
  simp only [decodeWord, List.foldlM_append, List.foldlM_cons, List.foldlM_nil, bind_pure]

/-- The inner loop reads its digits as their value, or fails if one is not a hex digit. -/
theorem decodeWord_eq (digits : List UInt8) :
    decodeWord digits = (hexValue digits).elim (.error .invalidHex) .ok := by
  induction digits using List.reverseRecOn with
  | nil => rfl
  | append_singleton cs c ih =>
    rw [decodeWord_append_singleton, ih, hexValue_append, hexValue_cons, hexValue_nil]
    rcases hexValue cs with _ | v <;> rcases decodeNibble c with _ | d <;> simp

/-- The outer loop, given words enough for its digits, reads them as their value in base
`16 ^ nibbles`, or fails as the inner loop does. Induction on the words left, from the least
significant; when fewer digits than a word's are left, the last word takes them all and the
words above it are zero. -/
theorem decodeWords_eq (N : ℕ) : ∀ (k : ℕ) (pre : List UInt8), pre.length ≤ k * N →
    Nat.ofDigits (16 ^ N) <$> decodeWords N k pre = (hexValue pre).elim (.error .invalidHex) .ok
  | 0, pre, hk => by
    have hnil : pre = [] := List.eq_nil_of_length_eq_zero (by simpa using hk)
    subst hnil
    rfl
  | k + 1, pre, hk => by
    have hT : (pre.take (pre.length - N)).length ≤ k * N := by
      rw [List.length_take, Nat.succ_mul] at *
      omega
    have ih := decodeWords_eq N k _ hT
    conv_rhs => rw [← List.take_append_drop (pre.length - N) pre, hexValue_append]
    simp only [decodeWords, decodeWord_eq]
    rcases hD : hexValue (pre.drop (pre.length - N)) with _ | b
    · -- a digit of this word is not a hex digit
      rcases hexValue (pre.take (pre.length - N)) with _ | a <;> rfl
    rcases hW : decodeWords N k (pre.take (pre.length - N)) with e | ws <;>
      rcases hTv : hexValue (pre.take (pre.length - N)) with _ | a <;>
      rw [hW, hTv] at ih <;> cases ih
    · rfl
    show Except.ok (Nat.ofDigits (16 ^ N) (b :: ws)) = .ok (Nat.ofDigits (16 ^ N) ws * 16 ^ _ + b)
    rw [Nat.ofDigits_cons]
    by_cases hN : N ≤ pre.length
    · have hlen : (pre.drop (pre.length - N)).length = N := by
        rw [List.length_drop]
        omega
      rw [hlen, Nat.mul_comm, Nat.add_comm]
    · -- fewer digits than a word's: nothing is left above
      have hnil : pre.take (pre.length - N) = [] := by
        rw [show pre.length - N = 0 by omega, List.take_zero]
      rw [hnil, hexValue_nil, Option.some.injEq] at hTv
      rw [← hTv]
      simp

/-- What both big decoders do after their prefix check: at most 64 digits, read as their value. -/
theorem decodeBigDigits_eq (ws : WordSize) (raw : List UInt8) :
    decodeBigDigits ws raw =
      if raw.length > 64 then .error .big256Range else (hexValue raw).elim (.error .invalidHex) .ok := by
  unfold decodeBigDigits
  split_ifs with hlong
  · rfl
  · have hN : 0 < bigWordNibbles ws := by
      have := ws.bytes_pos
      unfold bigWordNibbles
      omega
    have hk : raw.length ≤ (raw.length / bigWordNibbles ws + 1) * bigWordNibbles ws := by
      rw [Nat.succ_mul]
      exact (Nat.lt_div_mul_add hN).le
    have hradix : 2 ^ ws.bits = 16 ^ bigWordNibbles ws := by
      rw [WordSize.bits, bigWordNibbles, pow_mul, pow_mul]
      norm_num
    rw [← decodeWords_eq _ _ _ hk, ← bind_pure_comp]
    simp only [setBits, hradix]

theorem decodeBigDigits_eq_ok_iff (ws : WordSize) (raw : List UInt8) (v : ℕ) :
    decodeBigDigits ws raw = .ok v ↔ raw.length ≤ 64 ∧ hexValue raw = some v := by
  rw [decodeBigDigits_eq]
  split_ifs with hlong
  · simp only [false_iff, not_and]
    omega
  · rcases hexValue raw with _ | a
    · simp
    · simp only [Option.elim_some, Except.ok.injEq, Option.some.injEq]
      omega

/-! ## The prefix checks -/

/-- `checkNumber` passes exactly the digits after a prefix, at least one and with no leading
zero unless it is the only one. -/
theorem checkNumber_eq_ok_iff (input raw : List UInt8) :
    checkNumber input = .ok raw ↔ ∃ x, input = 0x30 :: x :: raw ∧ (x = 0x78 ∨ x = 0x58) ∧
      0 < raw.length ∧ (1 < raw.length → raw.head? ≠ some 0x30) := by
  rcases input with _ | ⟨c0, _ | ⟨c1, rest⟩⟩
  · simp [checkNumber]
  · simp [checkNumber, has0xPrefix]
  · simp only [checkNumber, has0xPrefix]
    simp
    split_ifs <;> grind

/-- `checkNumberText` is `checkNumber` except on the empty input, which it passes as no digits. -/
theorem checkNumberText_eq (input : List UInt8) :
    checkNumberText input = if input = [] then .ok [] else checkNumber input := by
  cases input with
  | nil => rfl
  | cons c rest => simp [checkNumberText, checkNumber, bytesHave0xPrefix]

/-! ## What the big decoders accept -/

theorem decodeBig_eq_ok_iff (ws : WordSize) (s : List UInt8) (v : ℕ) :
    decodeBig ws s = .ok v ↔ IsQuantity 64 s v := by
  unfold decodeBig IsQuantity
  simp only [except_bind_eq_ok, checkNumber_eq_ok_iff, decodeBigDigits_eq_ok_iff]
  constructor
  · rintro ⟨raw, ⟨x, rfl, hx, hpos, hlead⟩, hlen, hval⟩
    exact ⟨x, raw, rfl, hx, hpos, hlen, hlead, hval⟩
  · rintro ⟨x, raw, rfl, hx, hpos, hlen, hlead, hval⟩
    exact ⟨raw, ⟨x, rfl, hx, hpos, hlead⟩, hlen, hval⟩

/-- `Big.UnmarshalText` accepts what `DecodeBig` does, and the empty text as zero. -/
theorem unmarshalText_eq_ok_iff (ws : WordSize) (s : List UInt8) (v : ℕ) :
    Big.unmarshalText ws s = .ok v ↔ IsQuantity 64 s v ∨ (s = [] ∧ v = 0) := by
  unfold Big.unmarshalText
  rw [checkNumberText_eq]
  by_cases hs : s = []
  · subst hs
    have hnot : ¬ IsQuantity 64 [] v := by
      rintro ⟨x, digits, h, -⟩
      cases h
    simp only [if_true, except_ok_bind, decodeBigDigits_eq_ok_iff, hnot, false_or]
    simp [eq_comm]
  · rw [if_neg hs]
    change decodeBig ws s = .ok v ↔ _
    simp [decodeBig_eq_ok_iff, hs]

/-! ## The encoders write quantities -/

theorem encodeBig_eq (x : ℕ) : encodeBig x = [0x30, 0x78] ++ formatHex x := by
  unfold encodeBig
  split_ifs with h
  · rw [Nat.size_eq_zero.mp h]
    rfl
  · rfl

theorem mapM_decodeNibble_hexDigit :
    ∀ {L : List ℕ}, (∀ d ∈ L, d < 16) → (L.map hexDigit).mapM decodeNibble = some L
  | [], _ => rfl
  | d :: L, h => by
    have htail := mapM_decodeNibble_hexDigit fun e he => h e (List.mem_cons_of_mem d he)
    simp [decodeNibble_hexDigit d (h d List.mem_cons_self), htail]

theorem hexValue_formatHex (x : ℕ) : hexValue (formatHex x) = some x := by
  unfold formatHex
  split_ifs with hx
  · subst hx
    rfl
  · have hlt : ∀ d ∈ (Nat.digits 16 x).reverse, d < 16 := fun d hd =>
      Nat.digits_lt_base (by decide) (List.mem_reverse.mp hd)
    rw [hexValue, mapM_decodeNibble_hexDigit hlt]
    simp [Nat.ofDigits_digits]

theorem length_formatHex_pos (x : ℕ) : 0 < (formatHex x).length := by
  unfold formatHex
  split_ifs with hx
  · simp
  · simpa [List.length_pos_iff] using Nat.digits_ne_nil_iff_ne_zero.mpr hx

theorem length_formatHex_le {x k : ℕ} (hk : 0 < k) (hx : x < 16 ^ k) : (formatHex x).length ≤ k := by
  unfold formatHex
  split_ifs
  · exact hk
  · simpa using (Nat.digits_length_le_iff (by decide) x).mpr hx

/-- The top digit written for a nonzero number is its last base-16 digit, which is not zero. -/
theorem head_formatHex_ne_zero_char (x : ℕ) (hx : x ≠ 0) : (formatHex x).head? ≠ some 0x30 := by
  have hne := (Nat.digits_ne_nil_iff_ne_zero (b := 16)).mpr hx
  have htop := Nat.getLast_digit_ne_zero 16 hx
  have hlt := Nat.digits_lt_base (b := 16) (m := x) (by decide) (List.getLast_mem hne)
  rw [formatHex, if_neg hx, List.head?_map, List.head?_reverse, List.getLast?_eq_some_getLast hne]
  simpa using hexDigit_ne_zero_char _ hlt htop

theorem isQuantity_formatHex {k x : ℕ} (hk : 0 < k) (hx : x < 16 ^ k) :
    IsQuantity k ([0x30, 0x78] ++ formatHex x) x := by
  refine ⟨0x78, formatHex x, rfl, .inl rfl, length_formatHex_pos x, length_formatHex_le hk hx,
    ?_, hexValue_formatHex x⟩
  intro hlen
  by_cases hx0 : x = 0
  · subst hx0
    simp [formatHex] at hlen
  · exact head_formatHex_ne_zero_char x hx0

/-! ## `DecodeUint64` -/

/-- The digit loop from `n` succeeds exactly when every digit is a hex digit and the value they
extend `n` to fits in 64 bits, and returns that value. Induction on the digits; the two range
checks fail only where the final value would not fit, since more digits only make it larger. -/
theorem parseUintLoop_eq_ok_iff : ∀ (s : List UInt8) (n v : ℕ), n < 2 ^ 64 →
    (parseUintLoop n s = .ok v ↔ ∃ a, hexValue s = some a ∧ v = n * 16 ^ s.length + a ∧ v < 2 ^ 64)
  | [], n, v, hn => by
    simp only [parseUintLoop, Except.ok.injEq, hexValue_nil, Option.some.injEq, List.length_nil]
    constructor
    · rintro rfl
      exact ⟨0, rfl, by simp, hn⟩
    · rintro ⟨a, rfl, rfl, -⟩
      simp
  | c :: s, n, v, hn => by
    have hc := decodeNibble_eq_filter c
    rw [hexValue_cons]
    rcases hd : digitValue c with _ | d
    · rw [hd] at hc
      simp [parseUintLoop, hd, hc]
    rw [hd] at hc
    by_cases h16 : 16 ≤ d
    · have hnone : decodeNibble c = none := by simp [hc]; omega
      simp [parseUintLoop, hd, h16, hnone]
    have hnib : decodeNibble c = some d := by simp [hc]; omega
    have hrhs : (∃ a, ((decodeNibble c).bind fun d =>
          (hexValue s).map fun y => d * 16 ^ s.length + y) = some a ∧
          v = n * 16 ^ (c :: s).length + a ∧ v < 2 ^ 64) ↔
        ∃ a, hexValue s = some a ∧ v = (n * 16 + d) * 16 ^ s.length + a ∧ v < 2 ^ 64 := by
      rw [hnib]
      simp only [Option.bind_some, Option.map_eq_some_iff, List.length_cons]
      constructor
      · rintro ⟨-, ⟨a, ha, rfl⟩, rfl, hlt⟩
        exact ⟨a, ha, by ring, by ring_nf at hlt ⊢; omega⟩
      · rintro ⟨a, ha, rfl, hlt⟩
        exact ⟨_, ⟨a, ha, rfl⟩, by ring, hlt⟩
    rw [hrhs]
    have hfits : (∃ a, hexValue s = some a ∧ v = (n * 16 + d) * 16 ^ s.length + a ∧ v < 2 ^ 64) →
        n * 16 + d < 2 ^ 64 := by
      rintro ⟨a, -, rfl, hlt⟩
      have : n * 16 + d ≤ (n * 16 + d) * 16 ^ s.length := Nat.le_mul_of_pos_right _ (by positivity)
      omega
    simp only [parseUintLoop, hd, if_neg (show ¬ d ≥ 16 by omega)]
    split_ifs with hcut hover
    · exact iff_of_false (by simp) fun h => by have := hfits h; omega
    · exact iff_of_false (by simp) fun h => by have := hfits h; omega
    · exact parseUintLoop_eq_ok_iff s (n * 16 + d) v (by omega)

theorem parseUint_eq_ok_iff (s : List UInt8) (v : UInt64) :
    parseUint s = .ok v ↔ 0 < s.length ∧ ∃ a, hexValue s = some a ∧ a < 2 ^ 64 ∧ v.toNat = a := by
  unfold parseUint
  split_ifs with hs
  · subst hs
    simp
  have hpos : 0 < s.length := List.length_pos_iff.mpr hs
  constructor
  · intro h
    obtain ⟨n, hn, rfl⟩ := except_map_eq_ok h
    obtain ⟨a, ha, rfl, hlt⟩ := (parseUintLoop_eq_ok_iff s 0 n (by norm_num)).mp hn
    refine ⟨hpos, a, ha, by simpa using hlt, ?_⟩
    simp only [zero_mul, zero_add, Nat.toUInt64_eq, UInt64.toNat_ofNat']
    exact Nat.mod_eq_of_lt (by simpa using hlt)
  · rintro ⟨-, a, ha, hlt, rfl⟩
    rw [(parseUintLoop_eq_ok_iff s 0 v.toNat (by norm_num)).mpr ⟨v.toNat, ha, by simp, hlt⟩]
    simp

/-- Digits with no leading zero fit below `16 ^ k` exactly when there are at most `k` of them. -/
theorem hexValue_lt_pow_iff {digits : List UInt8} {a k : ℕ} (hk : 0 < k)
    (hpos : 0 < digits.length) (hlead : 1 < digits.length → digits.head? ≠ some 0x30)
    (ha : hexValue digits = some a) : a < 16 ^ k ↔ digits.length ≤ k := by
  constructor
  · intro hlt
    by_contra hlong
    obtain ⟨c, cs, rfl⟩ := List.exists_cons_of_length_pos hpos
    rw [hexValue_cons] at ha
    obtain ⟨d, hd, hb⟩ := Option.bind_eq_some_iff.mp ha
    obtain ⟨b, -, rfl⟩ := Option.map_eq_some_iff.mp hb
    have hd0 : d ≠ 0 := by
      rintro rfl
      exact hlead (by simp at hlong ⊢; omega) (by simp [eq_zero_char_of_decodeNibble hd])
    have hpow : 16 ^ k ≤ 16 ^ cs.length := Nat.pow_le_pow_right (by decide) (by simp at hlong; omega)
    have hmul : 16 ^ cs.length ≤ d * 16 ^ cs.length := Nat.le_mul_of_pos_left _ (by omega)
    omega
  · intro hlen
    exact (hexValue_lt ha).trans_le (Nat.pow_le_pow_right (by decide) hlen)

theorem decodeUint64_eq_ok_iff (s : List UInt8) (v : UInt64) :
    decodeUint64 s = .ok v ↔ IsQuantity 16 s v.toNat := by
  unfold decodeUint64 IsQuantity
  simp only [except_bind_eq_ok, checkNumber_eq_ok_iff, except_mapError_eq_ok, parseUint_eq_ok_iff]
  have h64 : (2 : ℕ) ^ 64 = 16 ^ 16 := by norm_num
  constructor
  · rintro ⟨raw, ⟨x, rfl, hx, hpos, hlead⟩, -, a, ha, hlt, hv⟩
    subst hv
    refine ⟨x, raw, rfl, hx, hpos, ?_, hlead, ha⟩
    exact (hexValue_lt_pow_iff (by decide) hpos hlead ha).mp (h64 ▸ hlt)
  · rintro ⟨x, raw, rfl, hx, hpos, hlen, hlead, ha⟩
    refine ⟨raw, ⟨x, rfl, hx, hpos, hlead⟩, hpos, v.toNat, ha, ?_, rfl⟩
    exact h64 ▸ (hexValue_lt_pow_iff (by decide) hpos hlead ha).mpr hlen

/-! ## The codec -/

/-- `Big.UnmarshalText` accepts the empty text, which is no quantity, and reads it as zero. -/
theorem unmarshalText_accepts_empty :
    Big.unmarshalText WordSize.w64 [] = .ok 0 ∧ ¬ IsQuantity 64 [] 0 := by
  refine ⟨rfl, ?_⟩
  rintro ⟨x, digits, h, -⟩
  cases h

/-- Every number below `2 ^ 256` round-trips through both big codecs, and every `uint64` through
its own; `DecodeBig` accepts exactly the quantities of at most 64 digits and returns their value,
`Big.UnmarshalText` those and the empty text, as zero, and `DecodeUint64` exactly the quantities
of at most 16 digits. -/
theorem hex_quantity_codec_exact :
    (∀ (ws : WordSize) (x : ℕ), x < 2 ^ 256 →
      decodeBig ws (encodeBig x) = .ok x ∧ Big.unmarshalText ws (Big.marshalText x) = .ok x) ∧
    (∀ (ws : WordSize) (s : List UInt8) (v : ℕ), decodeBig ws s = .ok v ↔ IsQuantity 64 s v) ∧
    (∀ (ws : WordSize) (s : List UInt8) (v : ℕ),
      Big.unmarshalText ws s = .ok v ↔ IsQuantity 64 s v ∨ (s = [] ∧ v = 0)) ∧
    (∀ x : UInt64, decodeUint64 (encodeUint64 x) = .ok x) ∧
    (∀ (s : List UInt8) (v : UInt64), decodeUint64 s = .ok v ↔ IsQuantity 16 s v.toNat) := by
  refine ⟨?_, decodeBig_eq_ok_iff, unmarshalText_eq_ok_iff, ?_, decodeUint64_eq_ok_iff⟩
  · intro ws x hx
    have hq : IsQuantity 64 (encodeBig x) x := by
      rw [encodeBig_eq]
      exact isQuantity_formatHex (by decide) (by simpa using hx)
    exact ⟨(decodeBig_eq_ok_iff ws _ x).mpr hq, (unmarshalText_eq_ok_iff ws _ x).mpr (.inl hq)⟩
  · intro x
    rw [decodeUint64_eq_ok_iff]
    exact isQuantity_formatHex (by decide) (by simpa using x.toNat_lt)

/-- The largest 256-bit number, all 64 digits, goes through `DecodeBig`, and `UnmarshalText`
reads the empty string as zero. -/
theorem hex_quantity_codec_exact_edges :
    decodeBig WordSize.w64 (encodeBig (2 ^ 256 - 1)) = .ok (2 ^ 256 - 1) ∧
      Big.unmarshalText WordSize.w64 [] = .ok 0 :=
  ⟨(hex_quantity_codec_exact.1 WordSize.w64 (2 ^ 256 - 1) (by norm_num)).1,
    (hex_quantity_codec_exact.2.2.1 WordSize.w64 [] 0).mpr (.inr ⟨rfl, rfl⟩)⟩

end Srcd.Common
