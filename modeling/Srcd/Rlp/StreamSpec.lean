import Srcd.Rlp.Decode
import Srcd.Rlp.ValueSpec

/-! # Decoding an unsigned integer from the front of the input

`rlp.Decode` into a `uint64` reads one value from its reader and no more: on the encoding of
an integer followed by any bytes it returns the integer and leaves those bytes unread. The
lemmas run the stream methods at toplevel, where no list is open and the input limit is the
reader's length, one method at a time.
-/

namespace Srcd.Rlp
open Srcd.Library
set_option autoImplicit false

theorem exec_attempt_of_ok {α : Type} {m : StreamM α} {s s' : Stream} {a : α}
    (h : exec m s = (.ok a, s')) : exec (attempt m) s = (.ok (.ok a), s') := by
  simp [attempt, h]

section Toplevel
variable {s : Stream}

theorem exec_willRead_top (hs : s.stack = []) (hl : s.limited = true) {n : ℕ} (hn : n ≤ s.remaining) :
    exec (willRead n) s = (.ok (), { s with kind := none, remaining := s.remaining - n }) := by
  obtain ⟨r, remaining, limited, kind, size, byteval, kinderr, stack⟩ := s
  simp only at hs hl hn
  subst hs hl
  simp only [willRead]
  rw [exec_bind_of_ok (exec_modify _ _), exec_bind_of_ok (exec_get _)]
  dsimp only
  rw [exec_bind_of_ok (exec_get _)]
  simp [Nat.not_lt.mpr hn]

theorem exec_readByte_top (hs : s.stack = []) (hl : s.limited = true) {b : UInt8}
    {rest : List UInt8} (hr : s.r = b :: rest) (hn : 1 ≤ s.remaining) :
    exec readByte s = (.ok b, { s with kind := none, remaining := s.remaining - 1, r := rest }) := by
  simp only [readByte]
  rw [exec_bind_of_ok (exec_willRead_top hs hl hn), exec_bind_of_ok (exec_get _)]
  simp only [hr]
  rfl

theorem exec_readFull_top (hs : s.stack = []) (hl : s.limited = true) {n : ℕ}
    (hn : n ≤ s.remaining) (hr : n ≤ s.r.length) :
    exec (readFull n) s =
      (.ok (s.r.take n), { s with kind := none, remaining := s.remaining - n, r := s.r.drop n }) := by
  simp only [readFull]
  rw [exec_bind_of_ok (exec_willRead_top hs hl hn), exec_bind_of_ok (exec_get _)]
  simp only [hr, if_true]
  rfl

theorem exec_readKind_byte (hs : s.stack = []) (hl : s.limited = true) {b : UInt8}
    {rest : List UInt8} (hr : s.r = b :: rest) (hn : 1 ≤ s.remaining) (hb : b < 0x80) :
    exec readKind s = (.ok (.byte, 0, none),
      { s with kind := none, remaining := s.remaining - 1, r := rest, byteval := b }) := by
  simp only [readKind]
  rw [exec_bind_of_ok (exec_attempt_of_ok (exec_readByte_top hs hl hr hn))]
  dsimp only
  rw [exec_bind_of_ok (exec_modify _ _), if_pos hb, exec_bind_of_ok (exec_modify _ _)]
  rfl

theorem exec_readKind_string (hs : s.stack = []) (hl : s.limited = true) {b : UInt8}
    {rest : List UInt8} (hr : s.r = b :: rest) (hn : 1 ≤ s.remaining) (hb : 0x80 ≤ b)
    (hb' : b < 0xB8) :
    exec readKind s = (.ok (.string, (b - 0x80).toNat, none),
      { s with kind := none, remaining := s.remaining - 1, r := rest, byteval := 0 }) := by
  simp only [readKind]
  rw [exec_bind_of_ok (exec_attempt_of_ok (exec_readByte_top hs hl hr hn))]
  dsimp only
  rw [exec_bind_of_ok (exec_modify _ _), if_neg (UInt8.not_lt.mpr hb), if_pos hb']
  rfl

/-- `Kind` on a stream with nothing cached reads the kind and caches it. -/
theorem exec_kind_fresh (hk : s.kind = none) (hs : s.stack = []) {k : Kind} {size : ℕ}
    {t : Stream} (hread : exec readKind { s with kinderr := none } = (.ok (k, size, none), t))
    (hsize : sizeErr t size = none) :
    exec kind s = (.ok (k, size), { t with kind := some k, size := size, kinderr := none }) := by
  obtain ⟨r, remaining, limited, kind', size', byteval, kinderr, stack⟩ := s
  simp only at hk hs
  subst hk hs
  simp only [kind]
  rw [exec_bind_of_ok (exec_get _), if_pos rfl, exec_bind_of_ok (exec_set _ _)]
  dsimp only
  rw [exec_bind_of_ok hread]
  dsimp only
  rw [exec_bind_of_ok (exec_get _), exec_bind_of_ok (exec_set _ _), exec_bind_of_ok (exec_get _)]
  simp [hsize]

end Toplevel

theorem exec_readUint_zero (s : Stream) : exec (readUint 0) s = (.ok 0, { s with kind := none }) :=
  rfl

theorem exec_readUint_bigEndian {s : Stream} (hs : s.stack = []) (hl : s.limited = true) {v : ℕ}
    {rest : List UInt8} (hv : 0 < v) (hr : s.r = bigEndian v ++ rest) (hn : s.remaining = s.r.length) :
    exec (readUint (bigEndian v).length) s =
      (.ok v, { s with kind := none, remaining := s.remaining - (bigEndian v).length, r := rest }) := by
  by_cases hsmall : v < 256
  · -- one byte
    rw [bigEndian_of_lt hv hsmall] at hr ⊢
    simp only [List.length_singleton, readUint]
    rw [exec_bind_of_ok (exec_readByte_top hs hl hr (by simp [hn, hr]))]
    simp [Nat.mod_eq_of_lt hsmall]
  · -- two bytes or more, with no leading zero
    have hlen : ¬ (bigEndian v).length ≤ 1 := by
      rw [length_bigEndian_le_iff]
      omega
    obtain ⟨k, hk⟩ : ∃ k, (bigEndian v).length = k + 2 := ⟨(bigEndian v).length - 2, by omega⟩
    have htake : s.r.take (k + 2) = bigEndian v := by simp [hr, ← hk]
    have hdrop : s.r.drop (k + 2) = rest := by simp [hr, ← hk]
    obtain ⟨b, bs, hbs⟩ := List.exists_cons_of_ne_nil (bigEndian_ne_nil hv)
    rw [hk]
    simp only [readUint]
    rw [exec_bind_of_ok (exec_readFull_top hs hl (by simp [hn, hr]; omega) (by simp [hr]; omega)),
      htake, hdrop, hbs, List.headD_cons, if_neg (bigEndian_head_ne_zero hbs), ← hbs,
      ofBigEndian_bigEndian]
    rfl

/-- `uint` once `Kind` has found a single byte. -/
theorem exec_uint_of_byte {s t : Stream} {size : ℕ} (maxbits : ℕ) (hkind : exec kind s = (.ok (.byte, size), t))
    (h0 : t.byteval ≠ 0) : exec (uint maxbits) s = (.ok t.byteval.toNat, { t with kind := none }) := by
  simp only [uint]
  rw [exec_bind_of_ok hkind]
  dsimp only
  rw [exec_bind_of_ok (exec_get _), if_neg h0, exec_bind_of_ok (exec_set _ _)]
  rfl

/-- `uint` once `Kind` has found a string of at most `maxbits` bits. -/
theorem exec_uint_of_string {s t u : Stream} {size v : ℕ} (maxbits : ℕ)
    (hkind : exec kind s = (.ok (.string, size), t)) (hsize : size ≤ maxbits / 8)
    (hread : exec (readUint size) t = (.ok v, u)) (hcanon : ¬ (size > 0 ∧ v < 128)) :
    exec (uint maxbits) s = (.ok v, u) := by
  simp only [uint]
  rw [exec_bind_of_ok hkind]
  dsimp only
  rw [if_neg (Nat.not_lt.mpr hsize), exec_bind_of_ok (exec_attempt_of_ok hread)]
  dsimp only
  rw [if_neg hcanon]
  rfl

theorem exec_decode_uint_of_ok {s t : Stream} {bits v : ℕ} (fuel : ℕ)
    (h : exec (uint bits) s = (.ok v, t)) : exec (decode fuel (.uint bits)) s = (.ok (.uint v), t) := by
  simp only [decode, decodeUint, wrap]
  rw [exec_bind_of_ok (exec_tryCatch_of_ok h)]
  rfl

/-- `EncodeToBytes` of an unsigned integer writes the string of its big-endian bytes. -/
theorem encodeToBytes_uint {code : ℕ} (hcode : code < 2 ^ 64) (bits : ℕ) :
    encodeToBytes (.uint bits) (.uint code) = .ok (Item.str (bigEndian code)).encode := by
  have hlen : (bigEndian code).length ≤ 8 := (length_bigEndian_le_iff code 8).mpr (by simpa using hcode)
  have hx : (Item.str (bigEndian code)).encode.length < 2 ^ 64 := by
    rw [encode_str]
    split
    · omega
    · simp [length_header, show (bigEndian code).length < 56 by omega]
      omega
  simp only [encodeToBytes, write, writeUint_eq code _ hcode]
  rw [← (outputs_writeItem _ hx).1]
  rfl

/-- `rlp.Decode` into a `uint64` reads the integer and leaves what follows it unread. -/
theorem decode_uint_prefix (code : ℕ) (hcode : code < 2 ^ 64) (rest : List UInt8) (fuel : ℕ) :
    ∃ t, exec (decode fuel (.uint 64)) (newStream ((Item.str (bigEndian code)).encode ++ rest)) =
      (.ok (.uint code), t) ∧ t.r = rest := by
  rcases Nat.eq_zero_or_pos code with rfl | hpos
  · -- `0x80`, the empty string
    have henc : (Item.str (bigEndian 0)).encode = [0x80] := by decide
    rw [henc]
    have hkind := exec_kind_fresh rfl rfl
      (exec_readKind_string (s := { newStream ([0x80] ++ rest) with kinderr := none }) rfl rfl rfl
        (by simp [newStream]) (by decide) (by decide))
      (by simp [sizeErr, newStream])
    exact ⟨_, exec_decode_uint_of_ok fuel
      (exec_uint_of_string 64 hkind (by decide) (exec_readUint_zero _) (by simp)), rfl⟩
  by_cases hsmall : code < 128
  · -- a single byte below `0x80` is its own encoding
    have hmod : (UInt8.ofNat code).toNat = code := by simp [Nat.mod_eq_of_lt (by omega : code < 256)]
    have hb : UInt8.ofNat code < 0x80 := by
      rw [UInt8.lt_iff_toNat_lt, hmod]
      exact hsmall
    have henc : (Item.str (bigEndian code)).encode = [UInt8.ofNat code] := by
      simp [bigEndian_of_lt hpos (by omega : code < 256), isSingleByte, hb]
    rw [henc]
    have hkind := exec_kind_fresh rfl rfl
      (exec_readKind_byte (s := { newStream ([UInt8.ofNat code] ++ rest) with kinderr := none }) rfl rfl
        rfl (by simp [newStream]) hb)
      (by simp [sizeErr, newStream])
    have h0 : UInt8.ofNat code ≠ 0 := fun h => by
      have := congrArg UInt8.toNat h
      rw [hmod] at this
      simp at this
      omega
    have huint := exec_uint_of_byte 64 hkind h0
    dsimp only at huint
    rw [hmod] at huint
    exact ⟨_, exec_decode_uint_of_ok fuel huint, rfl⟩
  · -- a string of one to eight bytes after its header
    set L := (bigEndian code).length with hLdef
    have hL8 : L ≤ 8 := (length_bigEndian_le_iff code 8).mpr (by simpa using hcode)
    have hL1 : 1 ≤ L := length_bigEndian_pos hpos
    have hsingle : isSingleByte (bigEndian code) = false := by
      by_contra hne
      obtain ⟨b, hbe, hb⟩ := (isSingleByte_iff _).mp (Bool.not_eq_false _ ▸ hne)
      have hlt : code < 256 := (length_bigEndian_le_iff code 1).mp (by simp [hbe])
      rw [bigEndian_of_lt hpos hlt, List.cons.injEq] at hbe
      rw [← hbe.1, UInt8.lt_iff_toNat_lt] at hb
      simp [Nat.mod_eq_of_lt hlt] at hb
      omega
    have htag : ∀ n, n < 9 → (0x80 : UInt8) ≤ 0x80 + UInt8.ofNat n ∧ 0x80 + UInt8.ofNat n < 0xB8 ∧
        ((0x80 + UInt8.ofNat n) - 0x80).toNat = n := by decide
    obtain ⟨hb, hb', hsize⟩ := htag L (by omega)
    have henc : (Item.str (bigEndian code)).encode = (0x80 + UInt8.ofNat L) :: bigEndian code := by
      simp [hsingle, header, ← hLdef, show L < 56 by omega]
    rw [henc]
    have hkind := exec_kind_fresh rfl rfl
      (exec_readKind_string (s := { newStream ((0x80 + UInt8.ofNat L) :: bigEndian code ++ rest) with
        kinderr := none }) rfl rfl rfl (by simp [newStream]) hb hb')
      (by simp [sizeErr, hsize, newStream]; omega)
    rw [hsize] at hkind
    have huint := exec_uint_of_string 64 hkind (by omega)
      (exec_readUint_bigEndian rfl rfl hpos rfl (by simp [newStream])) (by omega)
    exact ⟨_, exec_decode_uint_of_ok fuel huint, rfl⟩

end Srcd.Rlp
