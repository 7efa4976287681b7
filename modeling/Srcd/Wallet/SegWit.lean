import Srcd.Wallet.Bech32

/-! # Segregated witness addresses (`account/wallet/address/address.go`)

A witness address is the Bech32 string of the witness version followed by the program regrouped
into five-bit groups. `encodeSegWitAddress` checks what it writes by decoding it again, so it
succeeds exactly when the decoder accepts the string: for a twenty-byte program, a Bech32 string
of `hrp.length + 40` characters, which the decoder's limit of 90 characters admits only for
human-readable parts of at most 50 characters (`encodeSegWitAddress_long_hrp`).
-/

namespace Srcd.Wallet
open Srcd.Library
set_option autoImplicit false

/-- `decodeSegWitAddress`: the witness version and program of a Bech32 address. -/
def decodeSegWitAddress (address : List UInt8) : Except AddressError (UInt8 × List UInt8) := do
  let (_, data) ← bech32Decode address
  if data.length < 1 then throw .noWitnessVersion
  let version := data.headD 0
  if version > 16 then throw (.invalidWitnessVersion version)
  let regrouped ← convertBits (data.drop 1) 5 8 false
  if regrouped.length < 2 ∨ regrouped.length > 40 then throw .invalidDataLength
  if version = 0 ∧ regrouped.length ≠ 20 ∧ regrouped.length ≠ 32 then
    throw (.invalidDataLengthV0 regrouped.length)
  pure (version, regrouped)

/-- `encodeSegWitAddress`: the address of a witness program, checked by decoding it again. -/
def encodeSegWitAddress (hrp : List UInt8) (witnessVersion : UInt8) (witnessProgram : List UInt8) :
    Except AddressError (List UInt8) := do
  let converted ← convertBits witnessProgram 8 5 true
  let combined := witnessVersion :: converted
  let bech ← bech32Encode hrp combined
  let (version, program) ← (decodeSegWitAddress bech).mapError .invalidSegwit
  if version ≠ witnessVersion ∨ program ≠ witnessProgram then throw .invalidSegwitAddress
  pure bech

theorem bech32Decode_of_long {bech : List UInt8} (h : bech.length > 90) :
    bech32Decode bech = .error (.invalidLength bech.length) := by
  unfold bech32Decode
  rw [if_pos (Or.inr h)]
  rfl

/-- What the decoder returns for a Bech32 string of a witness version and five-bit groups that
regroup into a program of an allowed length. -/
theorem decodeSegWitAddress_eq {address hrp : List UInt8} {version : UInt8}
    {groups program : List UInt8} (h : bech32Decode address = .ok (hrp, version :: groups))
    (hv : version ≤ 16) (hconv : convertBits groups 5 8 false = .ok program)
    (hlen : 2 ≤ program.length ∧ program.length ≤ 40)
    (hv0 : version = 0 → program.length = 20 ∨ program.length = 32) :
    decodeSegWitAddress address = .ok (version, program) := by
  unfold decodeSegWitAddress
  rw [h]
  have hv' : ¬ version > 16 := by
    rw [UInt8.le_iff_toNat_le] at hv
    rw [gt_iff_lt, UInt8.lt_iff_toNat_lt]
    simpa using hv
  have hlen' : ¬ (program.length < 2 ∨ program.length > 40) := by omega
  have hv0' : ¬ (version = 0 ∧ program.length ≠ 20 ∧ program.length ≠ 32) := by
    rintro ⟨h0, h20, h32⟩
    rcases hv0 h0 with h' | h'
    · exact h20 h'
    · exact h32 h'
  simp only [except_ok_bind, List.length_cons, List.headD_cons, List.drop_succ_cons, List.drop_zero]
  rw [if_neg (by omega), if_neg hv', hconv]
  simp only [except_ok_bind]
  rw [if_neg hlen']
  simp only [hv0', if_false]
  rfl

theorem decodeSegWitAddress_of_error {address : List UInt8} {e : AddressError}
    (h : bech32Decode address = .error e) : decodeSegWitAddress address = .error e := by
  unfold decodeSegWitAddress
  rw [h]
  rfl

/-- A twenty-byte program regroups into thirty-two five-bit groups, which regroup back. -/
theorem convertBits_twenty {w : List UInt8} (hw : w.length = 20) :
    ∃ groups, convertBits w 8 5 true = .ok groups ∧ (∀ g ∈ groups, g.toNat < 32) ∧
      groups.length = 32 ∧ convertBits groups 5 8 false = .ok w := by
  obtain ⟨groups, hpad, hg, k, hk, hval, hlen⟩ := convertBits_pad w
  exact ⟨groups, hpad, hg, by omega, convertBits_unpad hg hk hval hlen⟩

/-- A twenty-byte program of witness version `0` round-trips through its address when the
human-readable part is non-empty, printable, lower-case and at most 50 characters long. -/
theorem encodeSegWitAddress_round_trip {hrp w : List UInt8} (hw : w.length = 20)
    (hpos : 0 < hrp.length) (hmax : hrp.length ≤ 50)
    (hprint : ∀ c ∈ hrp, 33 ≤ c.toNat ∧ c.toNat ≤ 126) (hlower : toLower hrp = hrp) :
    ∃ addr, encodeSegWitAddress hrp 0 w = .ok addr ∧ decodeSegWitAddress addr = .ok (0, w) := by
  obtain ⟨groups, hpad, hg, hglen, hunpad⟩ := convertBits_twenty hw
  have hdata : ∀ d ∈ (0 : UInt8) :: groups, d.toNat < 32 := by
    intro d hd
    rcases List.mem_cons.mp hd with rfl | hd
    · decide
    · exact hg d hd
  obtain ⟨bech, henc, hdec⟩ := bech32Decode_bech32Encode hpos hprint hlower hdata
    (by simp [hglen]; omega)
  have hseg : decodeSegWitAddress bech = .ok (0, w) :=
    decodeSegWitAddress_eq hdec (by decide) hunpad (by omega) fun _ => .inl hw
  refine ⟨bech, ?_, hseg⟩
  have hcheck : (decodeSegWitAddress bech).mapError AddressError.invalidSegwit = .ok (0, w) :=
    except_mapError_eq_ok.mpr hseg
  unfold encodeSegWitAddress
  simp only [hpad, henc, hcheck, except_ok_bind, ne_eq, not_true_eq_false, or_self, if_false]
  rfl

/-- With a human-readable part of more than 50 characters the address of a twenty-byte program is
longer than the decoder accepts, and `encodeSegWitAddress` fails its own check. -/
theorem encodeSegWitAddress_long_hrp {hrp w : List UInt8} (hw : w.length = 20)
    (hlong : 50 < hrp.length) :
    encodeSegWitAddress hrp 0 w = .error (.invalidSegwit (.invalidLength (hrp.length + 40))) := by
  obtain ⟨groups, hpad, hg, hglen, -⟩ := convertBits_twenty hw
  have hdata' : ∀ d ∈ (0 : UInt8) :: groups, d.toNat < 32 := by
    intro d hd
    rcases List.mem_cons.mp hd with rfl | hd
    · decide
    · exact hg d hd
  obtain ⟨bech, henc, hblen⟩ : ∃ bech, bech32Encode hrp (0 :: groups) = .ok bech ∧
      bech.length = hrp.length + 40 := by
    refine ⟨_, bech32Encode_eq hdata', ?_⟩
    simp [hglen, bech32Checksum]
  have hdec := bech32Decode_of_long (show bech.length > 90 by omega)
  rw [hblen] at hdec
  unfold encodeSegWitAddress
  simp only [hpad, henc, except_ok_bind, decodeSegWitAddress_of_error hdec]
  rfl

/-- The round trips fail at both ends of the human-readable part: with an empty one the separator
stands first and the decoder rejects it, and with one of 51 characters the address of a
twenty-byte program has 91 characters. -/
theorem bech32_round_trip_fails_at_hrp_bounds :
    (bech32Encode [] [0] >>= bech32Decode) = .error .invalidIndexOfOne ∧
    (encodeSegWitAddress (List.replicate 51 0x61) 0 (List.replicate 20 0) >>= decodeSegWitAddress) =
      .error (.invalidSegwit (.invalidLength 91)) := by
  refine ⟨rfl, ?_⟩
  rw [encodeSegWitAddress_long_hrp (by rfl) (by decide)]
  rfl

/-- The Bech32 round trip for a non-empty printable lower-case human-readable part, the bit
regrouping round trip for every byte string, and the witness-address round trip for a twenty-byte
program and a human-readable part that fits the decoder's length limit. -/
theorem bech32_segwit_round_trip :
    (∀ hrp data : List UInt8, 0 < hrp.length → (∀ c ∈ hrp, 33 ≤ c.toNat ∧ c.toNat ≤ 126) →
      toLower hrp = hrp → (∀ d ∈ data, d.toNat < 32) → hrp.length + 1 + data.length + 6 ≤ 90 →
      (bech32Encode hrp data >>= bech32Decode) = .ok (hrp, data)) ∧
    (∀ p : List UInt8, (convertBits p 8 5 true >>= fun g => convertBits g 5 8 false) = .ok p) ∧
    (∀ hrp w : List UInt8, w.length = 20 → 2 ≤ hrp.length → hrp.length ≤ 50 →
      (∀ c ∈ hrp, 33 ≤ c.toNat ∧ c.toNat ≤ 126) → toLower hrp = hrp →
      (encodeSegWitAddress hrp 0 w >>= decodeSegWitAddress) = .ok (0, w)) := by
  refine ⟨?bech32, ?regroup, ?segwit⟩
  case bech32 =>
    intro hrp data hpos hprint hlower hdata hlen
    obtain ⟨bech, henc, hdec⟩ := bech32Decode_bech32Encode hpos hprint hlower hdata hlen
    rw [henc, except_ok_bind, hdec]
  case regroup =>
    intro p
    obtain ⟨groups, hpad, -, -, hunpad⟩ := convertBits_round_trip p
    rw [hpad, except_ok_bind, hunpad]
  case segwit =>
    intro hrp w hw hmin hmax hprint hlower
    obtain ⟨addr, henc, hdec⟩ := encodeSegWitAddress_round_trip hw (by omega) hmax hprint hlower
    rw [henc, except_ok_bind, hdec]

/-- The witness program `751e76e8199196d454941c45d1b3a323f1433bd6`. -/
def sampleProgram : List UInt8 :=
  [0x75, 0x1e, 0x76, 0xe8, 0x19, 0x91, 0x96, 0xd4, 0x54, 0x94, 0x1c, 0x45, 0xd1, 0xb3, 0xa3, 0x23,
    0xf1, 0x43, 0x3b, 0xd6]

/-- Its version-0 address under the human-readable part `bc` decodes back. -/
theorem bech32_segwit_round_trip_bc :
    (encodeSegWitAddress [0x62, 0x63] 0 sampleProgram >>= decodeSegWitAddress) =
      .ok (0, sampleProgram) :=
  bech32_segwit_round_trip.2.2 [0x62, 0x63] sampleProgram rfl (by decide) (by decide)
    (by simp only [List.forall_mem_cons, List.not_mem_nil, IsEmpty.forall_iff, implies_true,
      and_true]; decide) rfl

end Srcd.Wallet
