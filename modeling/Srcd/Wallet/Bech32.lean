import Srcd.Library.Bits
import Srcd.Library.ExceptState
import Mathlib

/-! # Bech32 (`account/wallet/address/bech32.go`)

A Bech32 string is a human-readable part, the separator `1`, and the data and a six-character
checksum written in a 32-character alphabet. The checksum is `bech32Polymod` of the expanded
human-readable part, the data and six zeros; `bech32Polymod` folds a step that is linear in
exclusive or, so appending the checksum brings the fold to `1` (`polymod_checksum`), which is
what the decoder checks.

`ConvertBits` regroups a string of bits into groups of another width. Its state is the groups
written and the group being filled; the loops keep the number the bits read so far make, and
their count (`extractLoop_spec`), so regrouping bytes into five-bit groups with padding and back
without gives the bytes back (`convertBits_round_trip`).

Strings are their bytes. `strings.ToLower` and `strings.ToUpper` are called only on text whose
bytes are all printable ASCII, where they change the letters alone.
-/

namespace Srcd.Wallet
open Srcd.Library
set_option autoImplicit false

/-- The errors of the `address` package, with what their messages print. -/
inductive AddressError
  /-- `invalid bech32 string length %d` -/
  | invalidLength (n : ℕ)
  /-- `invalid character in string: '%c'` -/
  | invalidCharacter (c : UInt8)
  /-- `string not all lowercase or all uppercase` -/
  | mixedCase
  /-- `invalid index of 1` -/
  | invalidIndexOfOne
  /-- `failed converting data to bytes: %v` -/
  | convertingData (e : AddressError)
  /-- `checksum failed. Expected %v, got %v.`, or no more information when the expected
  checksum cannot be written -/
  | checksumFailed (moreInfo : Option (List UInt8 × List UInt8))
  /-- `unable to convert data bytes to chars: %v` -/
  | convertingChars (e : AddressError)
  /-- `invalid character not part of charset: %v` -/
  | notInCharset (c : UInt8)
  /-- `invalid data byte: %v` -/
  | invalidDataByte (b : UInt8)
  /-- `only bit groups between 1 and 8 allowed` -/
  | bitGroups
  /-- `invalid incomplete group` -/
  | incompleteGroup
  /-- `no witness version` -/
  | noWitnessVersion
  /-- `invalid witness version: %v` -/
  | invalidWitnessVersion (v : UInt8)
  /-- `invalid data length` -/
  | invalidDataLength
  /-- `invalid data length for witness version 0: %v` -/
  | invalidDataLengthV0 (n : ℕ)
  /-- `invalid segwit address: %v` -/
  | invalidSegwit (e : AddressError)
  /-- `invalid segwit address` -/
  | invalidSegwitAddress
  deriving DecidableEq, Repr

/-! ## The alphabet -/

/-- `charset`: `qpzry9x8gf2tvdw0s3jn54khce6mua7l`. -/
def charset : List UInt8 :=
  [0x71, 0x70, 0x7a, 0x72, 0x79, 0x39, 0x78, 0x38, 0x67, 0x66, 0x32, 0x74, 0x76, 0x64, 0x77, 0x30,
   0x73, 0x33, 0x6a, 0x6e, 0x35, 0x34, 0x6b, 0x68, 0x63, 0x65, 0x36, 0x6d, 0x75, 0x61, 0x37, 0x6c]

/-- `strings.IndexByte`: the first position of `c` in `s`, `-1` if there is none. -/
def indexByte (s : List UInt8) (c : UInt8) : ℤ :=
  match s.idxOf? c with
  | some i => i
  | none => -1

/-- `strings.LastIndexByte` searching backwards from position `i`. -/
def lastIndexByteFrom (s : List UInt8) (c : UInt8) : ℕ → ℤ
  | 0 => -1
  | i + 1 => if s[i]? = some c then i else lastIndexByteFrom s c i

/-- `strings.LastIndexByte`: the last position of `c` in `s`, `-1` if there is none. -/
def lastIndexByte (s : List UInt8) (c : UInt8) : ℤ := lastIndexByteFrom s c s.length

/-- `unicode.ToLower` on an ASCII byte. -/
def toLowerByte (c : UInt8) : UInt8 := if 0x41 ≤ c.toNat ∧ c.toNat ≤ 0x5a then c + 0x20 else c

/-- `unicode.ToUpper` on an ASCII byte. -/
def toUpperByte (c : UInt8) : UInt8 := if 0x61 ≤ c.toNat ∧ c.toNat ≤ 0x7a then c - 0x20 else c

/-- `strings.ToLower` on ASCII text. -/
def toLower (s : List UInt8) : List UInt8 := s.map toLowerByte

/-- `strings.ToUpper` on ASCII text. -/
def toUpper (s : List UInt8) : List UInt8 := s.map toUpperByte

/-- `toBytes`: each character's position in `charset`. -/
def toBytes (chars : List UInt8) : Except AddressError (List UInt8) :=
  chars.mapM fun c =>
    let index := indexByte charset c
    if index < 0 then .error (.notInCharset c) else .ok index.toNat.toUInt8

/-- `toChars`: the characters of `charset` at the positions in `data`. -/
def toChars (data : List UInt8) : Except AddressError (List UInt8) :=
  data.mapM fun b =>
    if b.toNat ≥ charset.length then .error (.invalidDataByte b) else .ok (charset.getD b.toNat 0)

/-! ## The checksum -/

/-- `gen`. -/
def gen : List ℕ := [0x3b6a57b2, 0x26508e6d, 0x1ea119fa, 0x3d4233dd, 0x2a1462b3]

/-- One pass of the loop of `bech32Polymod` on the value `v`. -/
def polymodStep (chk v : ℕ) : ℕ :=
  let b := chk >>> 25
  let chk := (chk &&& 0x1ffffff) <<< 5 ^^^ v
  (List.range 5).foldl (fun chk i => if (b >>> i) &&& 1 = 1 then chk ^^^ gen.getD i 0 else chk) chk

/-- `bech32Polymod`. -/
def bech32Polymod (values : List ℕ) : ℕ := values.foldl polymodStep 1

/-- `bech32HrpExpand`: the high bits of each character, a zero, then the low five bits of each. -/
def bech32HrpExpand (hrp : List UInt8) : List ℕ :=
  hrp.map (fun c => c.toNat >>> 5) ++ [0] ++ hrp.map (fun c => c.toNat &&& 31)

/-- `bech32Checksum`: six five-bit groups of the polymod, most significant first. -/
def bech32Checksum (hrp data : List UInt8) : List UInt8 :=
  let values := bech32HrpExpand hrp ++ data.map UInt8.toNat ++ [0, 0, 0, 0, 0, 0]
  let polymod := bech32Polymod values ^^^ 1
  (List.range 6).map fun i => ((polymod >>> (5 * (5 - i))) &&& 31).toUInt8

/-- `bech32VerifyChecksum`. -/
def bech32VerifyChecksum (hrp data : List UInt8) : Bool :=
  bech32Polymod (bech32HrpExpand hrp ++ data.map UInt8.toNat) == 1

/-! ## Encoding and decoding -/

/-- `Bech32Encode`. -/
def bech32Encode (hrp data : List UInt8) : Except AddressError (List UInt8) := do
  let checksum := bech32Checksum hrp data
  let combined := data ++ checksum
  let dataChars ← (toChars combined).mapError .convertingChars
  pure (hrp ++ [0x31] ++ dataChars)

/-- `Bech32Decode`: the human-readable part and the data without the checksum. -/
def bech32Decode (bech : List UInt8) : Except AddressError (List UInt8 × List UInt8) := do
  if bech.length < 8 ∨ bech.length > 90 then throw (.invalidLength bech.length)
  -- the loop stops at the first byte out of range
  match bech.find? (fun c => c.toNat < 33 || c.toNat > 126) with
  | some c => throw (.invalidCharacter c)
  | none => pure ()
  let lower := toLower bech
  let upper := toUpper bech
  if bech ≠ lower ∧ bech ≠ upper then throw .mixedCase
  let bech := lower
  let one := lastIndexByte bech 0x31
  if one < 1 ∨ one + 7 > bech.length then throw .invalidIndexOfOne
  let hrp := bech.take one.toNat
  let data := bech.drop (one.toNat + 1)
  let decoded ← (toBytes data).mapError .convertingData
  if !bech32VerifyChecksum hrp decoded then
    let checksum := bech.drop (bech.length - 6)
    match toChars (bech32Checksum hrp (decoded.take (decoded.length - 6))) with
    | .ok expected => throw (.checksumFailed (some (expected, checksum)))
    | .error _ => throw (.checksumFailed none)
  pure (hrp, decoded.take (decoded.length - 6))

/-! ## `ConvertBits` -/

/-- The state of `ConvertBits` between extractions: the groups written, and the group being
filled, which has `filledBits` of its `toBits` bits. -/
structure Regroup (toBits : ℕ) where
  regrouped : List ℕ
  nextByte : ℕ
  filledBits : ℕ
  filled_lt : filledBits < toBits

/-- The group being filled now has `filledBits` bits, `nextByte`; when that is all of them, it is
written out and a new group begun. -/
def Regroup.fill {toBits : ℕ} (st : Regroup toBits) (nextByte filledBits : ℕ)
    (h : filledBits ≤ toBits) : Regroup toBits :=
  if hfull : filledBits = toBits then
    ⟨st.regrouped ++ [nextByte], 0, 0, by have := st.filled_lt; omega⟩
  else ⟨st.regrouped, nextByte, filledBits, by omega⟩

/-- The inner loop of `ConvertBits` on one byte `b`, whose top `remFromBits` bits are still to
move: each pass moves as many as the group being filled has room for. The counters never wrap,
as `filledBits` stays below `toBits` and the extracted bits are at most the remaining ones. -/
def extractLoop {toBits : ℕ} (remFromBits b : ℕ) (st : Regroup toBits) : Regroup toBits :=
  if h : remFromBits = 0 then st
  else
    let remToBits := toBits - st.filledBits
    let toExtract := min remFromBits remToBits
    let nextByte := (st.nextByte <<< toExtract) % 256 ||| b >>> (8 - toExtract)
    extractLoop (remFromBits - toExtract) ((b <<< toExtract) % 256)
      (st.fill nextByte (st.filledBits + toExtract) (by have := st.filled_lt; omega))
termination_by remFromBits
decreasing_by have := st.filled_lt; omega

/-- The loop of `ConvertBits` over `data`: the low `fromBits` bits of each byte, moved to the top
of the byte, through the inner loop. -/
def regroupAll {toBits : ℕ} (fromBits : ℕ) (data : List UInt8) (st : Regroup toBits) :
    Regroup toBits :=
  data.foldl (fun st b => extractLoop fromBits ((b.toNat <<< (8 - fromBits)) % 256) st) st

/-- `ConvertBits`: the bits of `data`, `fromBits` from each byte, regrouped `toBits` to a byte;
a last incomplete group is padded with zeros if `pad` and must otherwise be at most four zero
bits. -/
def convertBits (data : List UInt8) (fromBits toBits : ℕ) (pad : Bool) :
    Except AddressError (List UInt8) :=
  if h : fromBits < 1 ∨ fromBits > 8 ∨ toBits < 1 ∨ toBits > 8 then .error .bitGroups
  else
    let st := regroupAll fromBits data (⟨[], 0, 0, by omega⟩ : Regroup toBits)
    let st : Regroup toBits :=
      if pad ∧ st.filledBits > 0 then
        st.fill ((st.nextByte <<< (toBits - st.filledBits)) % 256) toBits le_rfl
      else st
    if st.filledBits > 0 ∧ (st.filledBits > 4 ∨ st.nextByte ≠ 0) then .error .incompleteGroup
    else .ok (st.regrouped.map Nat.toUInt8)

namespace Regroup
variable {toBits : ℕ}

/-- The number the bits held make: the groups, then the bits of the group being filled. -/
def value (st : Regroup toBits) : ℕ :=
  beValue (2 ^ toBits) st.regrouped * 2 ^ st.filledBits + st.nextByte

/-- How many bits are held. -/
def bits (st : Regroup toBits) : ℕ := st.regrouped.length * toBits + st.filledBits

/-- Every group has `toBits` bits, and the group being filled `filledBits`. -/
def Valid (st : Regroup toBits) : Prop :=
  st.nextByte < 2 ^ st.filledBits ∧ ∀ g ∈ st.regrouped, g < 2 ^ toBits

end Regroup

/-- Filling the group with `t` more bits of value `x` appends them to the bits held. -/
theorem fill_spec {toBits : ℕ} (st : Regroup toBits) (t x : ℕ) (h : st.filledBits + t ≤ toBits)
    (hst : st.Valid) (hx : x < 2 ^ t) :
    (st.fill (st.nextByte * 2 ^ t + x) (st.filledBits + t) h).Valid ∧
    (st.fill (st.nextByte * 2 ^ t + x) (st.filledBits + t) h).value = st.value * 2 ^ t + x ∧
    (st.fill (st.nextByte * 2 ^ t + x) (st.filledBits + t) h).bits = st.bits + t := by
  have hnext := mul_two_pow_add_lt hst.1 hx
  unfold Regroup.fill
  split_ifs with hfull
  · -- the group is full and is written out
    refine ⟨⟨by simp, fun g hg => ?_⟩, ?_, ?_⟩
    · rcases List.mem_append.mp hg with hg | hg
      · exact hst.2 g hg
      · rw [List.mem_singleton.mp hg]
        rwa [hfull] at hnext
    · simp only [Regroup.value, beValue_append_singleton, ← hfull, pow_zero, mul_one, add_zero,
        pow_add]
      ring
    · simp only [Regroup.bits, List.length_append, List.length_singleton, add_mul, one_mul]
      omega
  · exact ⟨⟨hnext, hst.2⟩, by simp only [Regroup.value, pow_add]; ring, by simp only [Regroup.bits]; omega⟩

/-- One byte through the inner loop: with the `R` bits of `r` at the top of `b`, the state
afterwards holds its bits followed by those of `r`. Induction on the bits left to move; each
pass moves the top `t` of them into the group being filled. -/
theorem extractLoop_spec {toBits : ℕ} (htoBits : toBits ≤ 8) (R : ℕ) :
    ∀ (r : ℕ) (st : Regroup toBits), R ≤ 8 → r < 2 ^ R → st.Valid →
      (extractLoop R (r * 2 ^ (8 - R)) st).Valid ∧
      (extractLoop R (r * 2 ^ (8 - R)) st).value = st.value * 2 ^ R + r ∧
      (extractLoop R (r * 2 ^ (8 - R)) st).bits = st.bits + R := by
  induction R using Nat.strong_induction_on with
  | _ R ih =>
  intro r st hR hr hst
  have hfilled := st.filled_lt
  rw [extractLoop]
  dsimp only
  split_ifs with h0
  · subst h0
    have hr0 : r = 0 := by simpa using hr
    subst hr0
    simpa using hst
  set t := min R (toBits - st.filledBits) with ht_def
  have ht : 0 < t ∧ t ≤ R ∧ st.filledBits + t ≤ toBits := by omega
  have hx : r / 2 ^ (R - t) < 2 ^ t := by
    rw [Nat.div_lt_iff_lt_mul (by positivity), ← pow_add, Nat.add_sub_cancel' ht.2.1]
    exact hr
  have hnext : (st.nextByte <<< t) % 256 ||| (r * 2 ^ (8 - R)) >>> (8 - t) =
      st.nextByte * 2 ^ t + r / 2 ^ (R - t) := by
    have hlt : st.nextByte * 2 ^ t < 256 := by
      have h1 : st.nextByte * 2 ^ t < 2 ^ (st.filledBits + t) := by
        rw [pow_add]
        exact Nat.mul_lt_mul_of_pos_right hst.1 (by positivity)
      have h2 : 2 ^ (st.filledBits + t) ≤ 2 ^ 8 := Nat.pow_le_pow_right (by decide) (by omega)
      omega
    rw [show 8 - t = 8 - R + (R - t) by omega, mul_two_pow_shiftRight, Nat.shiftLeft_eq,
      Nat.mod_eq_of_lt hlt, mul_two_pow_or hx]
  have hrest : (r * 2 ^ (8 - R)) <<< t % 256 = r % 2 ^ (R - t) * 2 ^ (8 - (R - t)) := by
    have h := mul_two_pow_shiftLeft_mod r (8 - R) t R ht.2.1
    rwa [show 8 - R + R = 8 by omega, show 8 - R + t = 8 - (R - t) by omega] at h
  rw [hnext, hrest]
  obtain ⟨hv', hval', hbits'⟩ := fill_spec st t (r / 2 ^ (R - t)) ht.2.2 hst hx
  obtain ⟨hv, hval, hbits⟩ := ih (R - t) (by omega) (r % 2 ^ (R - t)) _ (by omega)
    (Nat.mod_lt _ (by positivity)) hv'
  refine ⟨hv, ?_, ?_⟩
  · rw [hval, hval', shift_in st.value r t R ht.2.1]
  · rw [hbits, hbits']
    omega

/-- All bytes through the loops: the state then holds the low `fromBits` bits of each byte, in
order. Induction on the bytes from the last. -/
theorem regroupAll_spec {fromBits toBits : ℕ} (hfrom : fromBits ≤ 8) (hto : toBits ≤ 8)
    (st : Regroup toBits) (hst : st.Valid) (data : List UInt8) :
    (regroupAll fromBits data st).Valid ∧
    (regroupAll fromBits data st).value = st.value * 2 ^ (fromBits * data.length) +
      beValue (2 ^ fromBits) (data.map fun b => b.toNat % 2 ^ fromBits) ∧
    (regroupAll fromBits data st).bits = st.bits + fromBits * data.length := by
  induction data using List.reverseRecOn with
  | nil => simpa [regroupAll] using hst
  | append_singleton data b ih =>
    obtain ⟨hv, hval, hbits⟩ := ih
    have hb : (b.toNat <<< (8 - fromBits)) % 256 = b.toNat % 2 ^ fromBits * 2 ^ (8 - fromBits) := by
      have h := mul_two_pow_shiftLeft_mod b.toNat 0 (8 - fromBits) 8 (by omega)
      simpa [show 8 - (8 - fromBits) = fromBits by omega] using h
    have hstep : regroupAll fromBits (data ++ [b]) st =
        extractLoop fromBits (b.toNat % 2 ^ fromBits * 2 ^ (8 - fromBits))
          (regroupAll fromBits data st) := by
      rw [regroupAll, List.foldl_append, List.foldl_cons, List.foldl_nil, hb]
      rfl
    obtain ⟨hv', hval', hbits'⟩ := extractLoop_spec hto fromBits (b.toNat % 2 ^ fromBits) _ hfrom
      (Nat.mod_lt _ (by positivity)) hv
    rw [hstep]
    refine ⟨hv', ?_, ?_⟩
    · rw [hval', hval]
      simp only [List.map_append, List.map_singleton, beValue_append_singleton, List.length_append,
        List.length_singleton, mul_add, mul_one, pow_add]
      ring
    · rw [hbits', hbits]
      simp only [List.length_append, List.length_singleton]
      ring

theorem fill_full {toBits : ℕ} (st : Regroup toBits) (a : ℕ) (h : toBits ≤ toBits) :
    st.fill a toBits h = ⟨st.regrouped ++ [a], 0, 0, by have := st.filled_lt; omega⟩ := by
  simp [Regroup.fill]

theorem map_toNat_toUInt8 {L : List ℕ} (h : ∀ x ∈ L, x < 256) :
    (L.map Nat.toUInt8).map UInt8.toNat = L := by
  rw [List.map_map]
  conv_rhs => rw [← List.map_id L]
  apply List.map_congr_left
  intro x hx
  simp [Nat.mod_eq_of_lt (h x hx)]

/-- Bytes into five-bit groups with padding: the groups hold the bytes' bits and fewer than five
zero bits after them. -/
theorem convertBits_pad (data : List UInt8) :
    ∃ groups, convertBits data 8 5 true = .ok groups ∧ (∀ g ∈ groups, g.toNat < 32) ∧
      ∃ k < 5, beValue 32 (groups.map UInt8.toNat) = beValue 256 (data.map UInt8.toNat) * 2 ^ k ∧
        5 * groups.length = 8 * data.length + k := by
  unfold convertBits
  rw [dif_neg (show ¬ (8 < 1 ∨ 8 > 8 ∨ 5 < 1 ∨ 5 > 8) by omega)]
  dsimp only
  set st := regroupAll 8 data (⟨[], 0, 0, by omega⟩ : Regroup 5) with hst_def
  obtain ⟨hv, hval, hbits⟩ := regroupAll_spec (le_refl 8) (by omega) _
    (⟨by simp, by simp⟩ : Regroup.Valid (⟨[], 0, 0, by omega⟩ : Regroup 5)) data
  rw [← hst_def] at hv hval hbits
  have hbytes : (data.map fun b => b.toNat % 2 ^ 8) = data.map UInt8.toNat := by
    simp [Nat.mod_eq_of_lt (UInt8.toNat_lt _)]
  simp only [Regroup.value, Regroup.bits, beValue_nil, zero_mul, zero_add, hbytes] at hval hbits
  norm_num at hval hbits
  have hgroups : ∀ g ∈ st.regrouped, g < 32 := hv.2
  have hfilled := st.filled_lt
  by_cases hf : 0 < st.filledBits
  · -- the last group is padded with zeros
    have hk : 5 - st.filledBits < 5 := by omega
    have hx : st.nextByte * 2 ^ (5 - st.filledBits) < 32 := by
      have h := mul_two_pow_add_lt (x := 0) hv.1 (Nat.two_pow_pos (5 - st.filledBits))
      rwa [add_zero, Nat.add_sub_cancel' st.filled_lt.le] at h
    have hnb : st.nextByte <<< (5 - st.filledBits) % 256 = st.nextByte * 2 ^ (5 - st.filledBits) := by
      rw [Nat.shiftLeft_eq, Nat.mod_eq_of_lt (by omega)]
    have hall : ∀ g ∈ st.regrouped ++ [st.nextByte * 2 ^ (5 - st.filledBits)], g < 32 := by
      intro g hg
      rcases List.mem_append.mp hg with hg | hg
      · exact hgroups g hg
      · rw [List.mem_singleton.mp hg]
        exact hx
    rw [if_pos (show true = true ∧ st.filledBits > 0 from ⟨rfl, hf⟩), fill_full, hnb]
    simp only [gt_iff_lt, lt_self_iff_false, false_and, if_false]
    refine ⟨_, rfl, ?_, 5 - st.filledBits, hk, ?_, ?_⟩
    · intro g hg
      obtain ⟨x, hx, rfl⟩ := List.mem_map.mp hg
      have := hall x hx
      simp [Nat.mod_eq_of_lt (show x < 256 by omega), this]
    · rw [map_toNat_toUInt8 (fun x hx => (hall x hx).trans (by norm_num)), beValue_append_singleton,
        ← hval]
      have hpow : (32 : ℕ) = 2 ^ st.filledBits * 2 ^ (5 - st.filledBits) := by
        rw [← pow_add, Nat.add_sub_cancel' st.filled_lt.le]
        norm_num
      rw [hpow]
      ring
    · simp only [List.length_map, List.length_append, List.length_singleton]
      omega
  · -- no bits are left over
    have hf0 : st.filledBits = 0 := by omega
    have hnb : st.nextByte = 0 := by simpa [hf0] using hv.1
    have hnot : ¬ (true = true ∧ st.filledBits > 0) := by omega
    rw [if_neg hnot]
    simp only [hf0, gt_iff_lt, lt_self_iff_false, false_and, if_false]
    refine ⟨_, rfl, ?_, 0, by norm_num, ?_, ?_⟩
    · intro g hg
      obtain ⟨x, hx, rfl⟩ := List.mem_map.mp hg
      have := hgroups x hx
      simp [Nat.mod_eq_of_lt (show x < 256 by omega), this]
    · rw [map_toNat_toUInt8 (fun x hx => (hgroups x hx).trans (by norm_num)), ← hval, hf0, hnb]
      simp
    · simp only [List.length_map]
      omega

/-- Five-bit groups that hold a string of bytes and fewer than five zero bits after it regroup
into those bytes without padding. -/
theorem convertBits_unpad {groups bytes : List UInt8} (hg : ∀ g ∈ groups, g.toNat < 32) {k : ℕ}
    (hk : k < 5)
    (hval : beValue 32 (groups.map UInt8.toNat) = beValue 256 (bytes.map UInt8.toNat) * 2 ^ k)
    (hlen : 5 * groups.length = 8 * bytes.length + k) :
    convertBits groups 5 8 false = .ok bytes := by
  unfold convertBits
  rw [dif_neg (show ¬ (5 < 1 ∨ 5 > 8 ∨ 8 < 1 ∨ 8 > 8) by omega)]
  dsimp only
  set st := regroupAll 5 groups (⟨[], 0, 0, by omega⟩ : Regroup 8) with hst_def
  obtain ⟨hv, hval', hbits⟩ := regroupAll_spec (show 5 ≤ 8 by omega) (le_refl 8) _
    (⟨by simp, by simp⟩ : Regroup.Valid (⟨[], 0, 0, by omega⟩ : Regroup 8)) groups
  rw [← hst_def] at hv hval' hbits
  have hgroups : (groups.map fun g => g.toNat % 2 ^ 5) = groups.map UInt8.toNat :=
    List.map_congr_left fun g hg' => Nat.mod_eq_of_lt (hg g hg')
  simp only [Regroup.value, Regroup.bits, beValue_nil, zero_mul, zero_add, hgroups] at hval' hbits
  norm_num at hval' hbits
  have hfilled := st.filled_lt
  have hf : st.filledBits = k := by omega
  have hR : st.regrouped.length = bytes.length := by omega
  have hnb_lt : st.nextByte < 2 ^ k := hf ▸ hv.1
  have heq : beValue 256 st.regrouped * 2 ^ k + st.nextByte =
      beValue 256 (bytes.map UInt8.toNat) * 2 ^ k := by
    rw [← hval, ← hval', hf]
  have hnb : st.nextByte = 0 := by
    have h := congrArg (· % 2 ^ k) heq
    simpa [Nat.mul_mod_left, Nat.mod_eq_of_lt hnb_lt] using h
  have hregrouped : st.regrouped = bytes.map UInt8.toNat := by
    rw [hnb, add_zero] at heq
    refine beValue_inj (by norm_num) (by simp [hR]) (fun x hx => ?_) (fun x hx => ?_)
      (Nat.eq_of_mul_eq_mul_right (by positivity) heq)
    · simpa using hv.2 x hx
    · obtain ⟨b, -, rfl⟩ := List.mem_map.mp hx
      exact b.toNat_lt
  have hnot : ¬ (false = true ∧ st.filledBits > 0) := by simp
  rw [if_neg hnot, if_neg (by omega), hregrouped, List.map_map]
  conv_rhs => rw [← List.map_id bytes]
  exact congrArg Except.ok (List.map_congr_left fun b _ => UInt8.ofNat_toNat)

/-- Bytes regrouped into five-bit groups with padding, and back without, are the bytes. -/
theorem convertBits_round_trip (data : List UInt8) :
    ∃ groups, convertBits data 8 5 true = .ok groups ∧ (∀ g ∈ groups, g.toNat < 32) ∧
      5 * groups.length < 8 * data.length + 5 ∧ convertBits groups 5 8 false = .ok data := by
  obtain ⟨groups, hok, hg, k, hk, hval, hlen⟩ := convertBits_pad data
  exact ⟨groups, hok, hg, by omega, convertBits_unpad hg hk hval hlen⟩

/-! ## The checksum equation -/

theorem shiftRight_and_one_eq_one_iff (B i : ℕ) : (B >>> i) &&& 1 = 1 ↔ B.testBit i = true := by
  rw [Nat.and_one_is_mod, Nat.testBit_eq_decide_div_mod_eq]
  simp [Nat.shiftRight_eq_div_pow]

/-- The generators xored in by the bits of `B` are linear in `B`. Induction on the bit positions;
at each, the four cases of the two bits. -/
theorem foldl_gen_xor (B₁ B₂ : ℕ) :
    ∀ (L : List ℕ) (c₁ c₂ : ℕ),
      L.foldl (fun chk i => if (B₁ ^^^ B₂).testBit i then chk ^^^ gen.getD i 0 else chk)
        (c₁ ^^^ c₂) =
      L.foldl (fun chk i => if B₁.testBit i then chk ^^^ gen.getD i 0 else chk) c₁ ^^^
      L.foldl (fun chk i => if B₂.testBit i then chk ^^^ gen.getD i 0 else chk) c₂
  | [], c₁, c₂ => rfl
  | i :: L, c₁, c₂ => by
    rw [List.foldl_cons, List.foldl_cons, List.foldl_cons, ← foldl_gen_xor B₁ B₂ L]
    congr 1
    rw [Nat.testBit_xor]
    cases B₁.testBit i <;> cases B₂.testBit i <;> simp only [Bool.xor_false, Bool.xor_true,
      Bool.not_true, Bool.not_false, Bool.false_eq_true, if_true, if_false]
    · ac_rfl
    · ac_rfl
    · exact (xor_xor_xor_cancel c₁ c₂ _).symm

/-- The step of `bech32Polymod` is linear in exclusive or, in the checksum and the value together. -/
theorem polymodStep_xor (a b v w : ℕ) :
    polymodStep (a ^^^ b) (v ^^^ w) = polymodStep a v ^^^ polymodStep b w := by
  unfold polymodStep
  dsimp only
  rw [Nat.shiftRight_xor_distrib, Nat.and_xor_distrib_right, Nat.shiftLeft_xor_distrib]
  simp only [shiftRight_and_one_eq_one_iff]
  have hstart : (a &&& 0x1ffffff) <<< 5 ^^^ (b &&& 0x1ffffff) <<< 5 ^^^ (v ^^^ w) =
      ((a &&& 0x1ffffff) <<< 5 ^^^ v) ^^^ ((b &&& 0x1ffffff) <<< 5 ^^^ w) := by ac_rfl
  rw [hstart, foldl_gen_xor]

theorem gen_lt (i : ℕ) : gen.getD i 0 < 2 ^ 30 := by
  rcases i with _ | _ | _ | _ | _ | i <;> simp [gen]

theorem foldl_gen_lt (B : ℕ) :
    ∀ (L : List ℕ) (c : ℕ), c < 2 ^ 30 →
      L.foldl (fun chk i => if (B >>> i) &&& 1 = 1 then chk ^^^ gen.getD i 0 else chk) c < 2 ^ 30
  | [], c, hc => hc
  | i :: L, c, hc => by
    simp only [List.foldl_cons]
    apply foldl_gen_lt B L
    split_ifs
    · exact Nat.xor_lt_two_pow hc (gen_lt i)
    · exact hc

theorem polymodStep_lt {chk v : ℕ} (hv : v < 2 ^ 30) : polymodStep chk v < 2 ^ 30 := by
  unfold polymodStep
  apply foldl_gen_lt
  apply Nat.xor_lt_two_pow _ hv
  have hlow : chk &&& 0x1ffffff < 2 ^ 25 := by
    rw [show (0x1ffffff : ℕ) = 2 ^ 25 - 1 by norm_num, Nat.and_two_pow_sub_one_eq_mod]
    exact Nat.mod_lt _ (by positivity)
  rw [Nat.shiftLeft_eq, show (2 : ℕ) ^ 30 = 2 ^ 25 * 2 ^ 5 by norm_num]
  exact Nat.mul_lt_mul_of_pos_right hlow (by positivity)

/-- A checksum below `2 ^ 25` only shifts up: no generator is xored in. -/
theorem polymodStep_small {chk v : ℕ} (hchk : chk < 2 ^ 25) (hv : v < 32) :
    polymodStep chk v = chk * 2 ^ 5 + v := by
  have hb : chk >>> 25 = 0 := by
    rw [Nat.shiftRight_eq_div_pow]
    exact Nat.div_eq_of_lt hchk
  have hlow : chk &&& 0x1ffffff = chk := by
    rw [show (0x1ffffff : ℕ) = 2 ^ 25 - 1 by norm_num, Nat.and_two_pow_sub_one_eq_mod,
      Nat.mod_eq_of_lt hchk]
  unfold polymodStep
  rw [hb, hlow, show List.range 5 = [0, 1, 2, 3, 4] from rfl]
  simpa [Nat.shiftLeft_eq] using mul_two_pow_xor (a := chk) (k := 5) hv

/-- Feeding `y`'s low five bits after the rest of it gives `y` back. -/
theorem polymodStep_shift {y : ℕ} (hy : y < 2 ^ 30) : polymodStep (y >>> 5) (y &&& 31) = y := by
  have hhi : y >>> 5 < 2 ^ 25 := by
    rw [Nat.shiftRight_eq_div_pow, Nat.div_lt_iff_lt_mul (by positivity), ← pow_add]
    exact hy
  have hlo : y &&& 31 = y % 2 ^ 5 := by
    rw [show (31 : ℕ) = 2 ^ 5 - 1 by norm_num, Nat.and_two_pow_sub_one_eq_mod]
  rw [polymodStep_small hhi (by rw [hlo]; exact Nat.mod_lt _ (by positivity)), hlo,
    Nat.shiftRight_eq_div_pow, Nat.div_add_mod']

/-- The six five-bit groups of `P`, fed to the fold from zero, give `P` back. -/
theorem foldl_polymodStep_groups {P : ℕ} (hP : P < 2 ^ 30) :
    ((List.range 6).map fun i => (P >>> (5 * (5 - i))) &&& 31).foldl polymodStep 0 = P := by
  have hzero : P >>> 30 = 0 := by
    rw [Nat.shiftRight_eq_div_pow]
    exact Nat.div_eq_of_lt hP
  have step : ∀ k j, j = k + 5 → polymodStep (P >>> j) ((P >>> k) &&& 31) = P >>> k := by
    rintro k j rfl
    rw [Nat.shiftRight_add, polymodStep_shift]
    exact lt_of_le_of_lt (Nat.shiftRight_le P k) hP
  have hfirst : polymodStep 0 ((P >>> 25) &&& 31) = P >>> 25 := by
    rw [← hzero]
    exact step 25 30 rfl
  rw [show List.range 6 = [0, 1, 2, 3, 4, 5] from rfl]
  simp only [List.map_cons, List.map_nil, List.foldl_cons, List.foldl_nil, Nat.reduceSub,
    Nat.reduceMul]
  rw [hfirst, step 20 25 rfl, step 15 20 rfl, step 10 15 rfl, step 5 10 rfl, step 0 5 rfl,
    Nat.shiftRight_zero]

theorem foldl_polymodStep_lt {c : ℕ} (hc : c < 2 ^ 30) :
    ∀ {vs : List ℕ}, (∀ v ∈ vs, v < 2 ^ 30) → vs.foldl polymodStep c < 2 ^ 30 := by
  intro vs hvs
  induction vs using List.reverseRecOn with
  | nil => exact hc
  | append_singleton vs v _ =>
    rw [List.foldl_append, List.foldl_cons, List.foldl_nil]
    exact polymodStep_lt (hvs v (by simp))

/-- The checksum equation: `bech32Polymod` of the values followed by their checksum is `1`. The
fold is affine; the values followed by zeros contribute `P ^^^ 1`, and the checksum's groups fed
from zero contribute `P`. -/
theorem polymod_checksum (values : List ℕ) (hv : ∀ v ∈ values, v < 2 ^ 30) :
    bech32Polymod (values ++ (List.range 6).map fun i =>
      ((bech32Polymod (values ++ [0, 0, 0, 0, 0, 0]) ^^^ 1) >>> (5 * (5 - i))) &&& 31) = 1 := by
  set P := bech32Polymod (values ++ [0, 0, 0, 0, 0, 0]) ^^^ 1 with hP_def
  have hP : P < 2 ^ 30 := by
    refine Nat.xor_lt_two_pow ?_ (by norm_num)
    refine foldl_polymodStep_lt (by norm_num) fun v hv' => ?_
    rcases List.mem_append.mp hv' with hv' | hv'
    · exact hv v hv'
    · simp at hv'
      simp [hv']
  have hzeros : ((List.range 6).map fun i => (P >>> (5 * (5 - i))) &&& 31).length = 6 := by simp
  rw [bech32Polymod, List.foldl_append, ← Nat.zero_xor (values.foldl polymodStep 1),
    foldl_xor polymodStep_xor, foldl_polymodStep_groups hP, hzeros]
  have hrest : (List.replicate 6 0).foldl polymodStep (values.foldl polymodStep 1) = P ^^^ 1 := by
    rw [hP_def, Nat.xor_assoc, Nat.xor_self, Nat.xor_zero, bech32Polymod, List.foldl_append]
    rfl
  rw [hrest, ← Nat.xor_assoc, Nat.xor_self, Nat.zero_xor]

theorem toNat_and_31_toUInt8 (x : ℕ) : (x &&& 31).toUInt8.toNat = x &&& 31 := by
  have h : x &&& 31 < 256 := lt_of_le_of_lt Nat.and_le_right (by norm_num)
  generalize x &&& 31 = y at h ⊢
  simp [Nat.mod_eq_of_lt h]

/-- The checksum `Bech32Encode` appends passes `bech32VerifyChecksum`. -/
theorem verifyChecksum_checksum (hrp data : List UInt8) :
    bech32VerifyChecksum hrp (data ++ bech32Checksum hrp data) = true := by
  have hv : ∀ v ∈ bech32HrpExpand hrp ++ data.map UInt8.toNat, v < 2 ^ 30 := by
    intro v hv'
    simp only [bech32HrpExpand, List.mem_append, List.mem_map, List.mem_singleton] at hv'
    rcases hv' with ((⟨c, -, rfl⟩ | rfl) | ⟨c, -, rfl⟩) | ⟨d, -, rfl⟩
    · exact lt_of_le_of_lt (Nat.shiftRight_le _ _) (lt_trans c.toNat_lt (by norm_num))
    · norm_num
    · exact lt_of_le_of_lt Nat.and_le_right (by norm_num)
    · exact lt_trans d.toNat_lt (by norm_num)
  have hcs : (bech32Checksum hrp data).map UInt8.toNat = (List.range 6).map fun i =>
      ((bech32Polymod (bech32HrpExpand hrp ++ data.map UInt8.toNat ++ [0, 0, 0, 0, 0, 0]) ^^^ 1) >>>
        (5 * (5 - i))) &&& 31 := by
    simp only [bech32Checksum, List.map_map, Function.comp_def, toNat_and_31_toUInt8]
  rw [bech32VerifyChecksum, List.map_append, ← List.append_assoc, hcs, polymod_checksum _ hv]
  rfl

/-! ## Encoding and decoding -/

theorem charset_length : charset.length = 32 := rfl

theorem charset_printable : ∀ c ∈ charset, 33 ≤ c.toNat ∧ c.toNat ≤ 126 := by
  simp only [charset, List.forall_mem_cons, List.not_mem_nil, IsEmpty.forall_iff, implies_true,
    and_true]
  decide

theorem toLowerByte_charset : ∀ c ∈ charset, toLowerByte c = c := by
  simp only [charset, List.forall_mem_cons, List.not_mem_nil, IsEmpty.forall_iff, implies_true,
    and_true]
  decide

theorem separator_not_mem_charset : (0x31 : UInt8) ∉ charset := by decide

theorem indexByte_charset : ∀ b < 32, indexByte charset (charset.getD b 0) = b := by decide

/-- The character that stands for the five-bit value `b`. -/
theorem toChars_eq {L : List UInt8} (h : ∀ b ∈ L, b.toNat < 32) :
    toChars L = .ok (L.map fun b => charset.getD b.toNat 0) := by
  refine except_mapM_eq_ok_map fun b hb => ?_
  rw [if_neg (by rw [charset_length]; exact Nat.not_le.mpr (h b hb))]

theorem toBytes_toChars {L : List UInt8} (h : ∀ b ∈ L, b.toNat < 32) :
    toBytes (L.map fun b => charset.getD b.toNat 0) = .ok L := by
  rw [toBytes, List.mapM_map]
  conv_rhs => rw [← List.map_id L]
  refine except_mapM_eq_ok_map fun b hb => ?_
  simp only [Function.comp_apply, indexByte_charset _ (h b hb)]
  rw [if_neg (by omega)]
  simp

/-- The last separator is the one after the human-readable part when none follows it. Induction
on the characters after it, searched from the end. -/
theorem lastIndexByteFrom_append (a b : List UInt8) (c : UInt8) (hb : c ∉ b) :
    ∀ j ≤ b.length, lastIndexByteFrom (a ++ c :: b) c (a.length + 1 + j) = a.length
  | 0, _ => by simp [lastIndexByteFrom]
  | j + 1, hj => by
    have hne : (a ++ c :: b)[a.length + 1 + j]? ≠ some c := by
      rw [List.getElem?_append_right (by omega), show a.length + 1 + j - a.length = j + 1 by omega,
        List.getElem?_cons_succ]
      intro hj'
      exact hb (List.mem_of_getElem? hj')
    rw [show a.length + 1 + (j + 1) = a.length + 1 + j + 1 by omega, lastIndexByteFrom, if_neg hne,
      lastIndexByteFrom_append a b c hb j (by omega)]

theorem lastIndexByte_append {a b : List UInt8} {c : UInt8} (hb : c ∉ b) :
    lastIndexByte (a ++ c :: b) c = a.length := by
  have h := lastIndexByteFrom_append a b c hb b.length le_rfl
  rwa [show a.length + 1 + b.length = (a ++ c :: b).length by simp; omega] at h

theorem checksum_lt {hrp data : List UInt8} : ∀ b ∈ bech32Checksum hrp data, b.toNat < 32 := by
  intro b hb
  simp only [bech32Checksum, List.mem_map, List.mem_range] at hb
  obtain ⟨i, -, rfl⟩ := hb
  rw [toNat_and_31_toUInt8]
  exact lt_of_le_of_lt Nat.and_le_right (by norm_num)

/-- `Bech32Encode` writes the human-readable part, the separator, and the characters of the data
and its checksum. -/
theorem bech32Encode_eq {hrp data : List UInt8} (hdata : ∀ d ∈ data, d.toNat < 32) :
    bech32Encode hrp data = .ok (hrp ++ [0x31] ++
      (data ++ bech32Checksum hrp data).map fun b => charset.getD b.toNat 0) := by
  have hall : ∀ b ∈ data ++ bech32Checksum hrp data, b.toNat < 32 := by
    intro b hb
    rcases List.mem_append.mp hb with hb | hb
    · exact hdata b hb
    · exact checksum_lt b hb
  rw [bech32Encode, toChars_eq hall]
  rfl

/-- Decoding what `Bech32Encode` wrote gives back its human-readable part and data, when that
part is non-empty, printable and lower-case and the string is at most 90 characters long. -/
theorem bech32Decode_bech32Encode {hrp data : List UInt8} (hpos : 0 < hrp.length)
    (hprint : ∀ c ∈ hrp, 33 ≤ c.toNat ∧ c.toNat ≤ 126) (hlower : toLower hrp = hrp)
    (hdata : ∀ d ∈ data, d.toNat < 32) (hlen : hrp.length + 1 + data.length + 6 ≤ 90) :
    ∃ bech, bech32Encode hrp data = .ok bech ∧ bech32Decode bech = .ok (hrp, data) := by
  refine ⟨_, bech32Encode_eq hdata, ?_⟩
  rw [List.append_assoc, List.singleton_append]
  have hall : ∀ b ∈ data ++ bech32Checksum hrp data, b.toNat < 32 := by
    intro b hb
    rcases List.mem_append.mp hb with hb | hb
    · exact hdata b hb
    · exact checksum_lt b hb
  set chars := (data ++ bech32Checksum hrp data).map fun b => charset.getD b.toNat 0 with hchars
  have hcharsLen : chars.length = data.length + 6 := by simp [chars, bech32Checksum]
  have hcharsIn : ∀ c ∈ chars, c ∈ charset := by
    intro c hc
    obtain ⟨b, hb, rfl⟩ := List.mem_map.mp hc
    rw [List.getD_eq_getElem _ _ (by rw [charset_length]; exact hall b hb)]
    exact List.getElem_mem _
  have hfind : (hrp ++ 0x31 :: chars).find? (fun c => c.toNat < 33 || c.toNat > 126) = none := by
    refine List.find?_eq_none.mpr fun c hc => ?_
    have hin : 33 ≤ c.toNat ∧ c.toNat ≤ 126 := by
      rcases List.mem_append.mp hc with hc | hc
      · exact hprint c hc
      · rcases List.mem_cons.mp hc with rfl | hc
        · decide
        · exact charset_printable c (hcharsIn c hc)
    simp only [Bool.or_eq_true, decide_eq_true_eq, not_or]
    omega
  have hlowerBech : toLower (hrp ++ 0x31 :: chars) = hrp ++ 0x31 :: chars := by
    have hcl : toLower chars = chars := by
      conv_rhs => rw [← List.map_id chars]
      exact List.map_congr_left fun c hc => toLowerByte_charset c (hcharsIn c hc)
    rw [toLower, List.map_append, List.map_cons, ← toLower, ← toLower, hlower, hcl]
    rfl
  have hone : lastIndexByte (hrp ++ 0x31 :: chars) 0x31 = hrp.length :=
    lastIndexByte_append fun h => separator_not_mem_charset (hcharsIn _ h)
  have hdrop : (hrp ++ 0x31 :: chars).drop (hrp.length + 1) = chars := by
    rw [← List.singleton_append, ← List.append_assoc, List.drop_left' (by simp)]
  unfold bech32Decode
  dsimp only
  rw [if_neg (by simp [hcharsLen]; omega), hfind]
  dsimp only
  rw [hlowerBech, if_neg (by simp)]
  have hidx : ¬ ((hrp.length : ℤ) < 1 ∨ (hrp.length : ℤ) + 7 > ((hrp ++ 0x31 :: chars).length : ℤ)) := by
    simp only [List.length_append, List.length_cons, hcharsLen]
    omega
  rw [hone, if_neg hidx, Int.toNat_natCast, hdrop, List.take_left' rfl, toBytes_toChars hall]
  have hcsLen : (bech32Checksum hrp data).length = 6 := by simp [bech32Checksum]
  simp only [Except.mapError, except_ok_bind, verifyChecksum_checksum, Bool.not_true,
    Bool.false_eq_true, if_false, List.length_append, hcsLen, Nat.add_sub_cancel,
    List.take_left']
  rfl

end Srcd.Wallet
