import Srcd.Rlp.StreamSpec

/-! # RLPx framing (`p2p/rlpx.go`)

`rlpxFrameRW` writes a message as a 32-byte header (the frame size and `zeroHeader`,
encrypted, then the header MAC) followed by the encrypted frame (the RLP-encoded code and the
payload, padded to 16 bytes) and the frame MAC, and reads it back.

The primitives are parameters. AES-CTR under the session key and the zero IV is a keystream,
and an endpoint's `enc` or `dec` stream is its position in it; a `cipher.StreamWriter` that
encrypts the code, the payload and the padding in turn uses the keystream as one call on their
concatenation does. A Keccak MAC state is the bytes written into it, with `macSum` its
digest; `macEncrypt` is the AES block cipher under the MAC key. Snappy is an encoder with the
decoder that inverts it. The connection is the byte string between the two endpoints. A read
that fails ends the connection; the state it leaves is not kept.
-/

namespace Srcd.P2p
open Srcd.Library Srcd.Rlp
set_option autoImplicit false

/-- AES-CTR, the MAC states' digest and the MAC block cipher. -/
structure Cipher where
  /-- the AES-CTR keystream, byte by byte -/
  keystream : ℕ → UInt8
  /-- `Sum(nil)` of a Keccak-256 state after the bytes written into it -/
  macSum : List UInt8 → List UInt8
  sixteen_le_macSum : ∀ m, 16 ≤ (macSum m).length
  /-- `macCipher.Encrypt` of the first block of its input -/
  macEncrypt : List UInt8 → List UInt8

/-- A Snappy block codec. -/
structure Snappy where
  encode : List UInt8 → List UInt8
  decodedLen : List UInt8 → Except String ℕ
  decode : List UInt8 → Except String (List UInt8)
  decodedLen_encode : ∀ p, decodedLen (encode p) = .ok p.length
  decode_encode : ∀ p, decode (encode p) = .ok p

/-- A message; its `Size` is the length of its payload, as a `uint32`. -/
structure Msg where
  code : UInt64
  payload : List UInt8
  deriving DecidableEq, Repr

def Msg.size (msg : Msg) : ℕ := msg.payload.length % 2 ^ 32

structure FrameRW where
  /-- the position of `enc` in the keystream -/
  enc : ℕ
  /-- the position of `dec` in the keystream -/
  dec : ℕ
  egressMAC : List UInt8
  ingressMAC : List UInt8
  snappy : Bool
  deriving DecidableEq, Repr

inductive FrameErr where
  | plainMessageTooLarge
  /-- "message size overflows uint24" -/
  | sizeOverflow
  | eof
  | unexpectedEOF
  | badHeaderMAC
  | badFrameMAC
  | rlp (err : Err)
  | snappy (err : String)
  deriving DecidableEq, Repr

def maxUint24 : ℕ := 2 ^ 24 - 1

def zeroHeader : List UInt8 := [0xC2, 0x80, 0x80]

def putInt24 (v : ℕ) : List UInt8 := [UInt8.ofNat (v >>> 16), UInt8.ofNat (v >>> 8), UInt8.ofNat v]

def readInt24 (b : List UInt8) : ℕ :=
  (b.getD 2 0).toNat ||| (b.getD 1 0).toNat <<< 8 ||| (b.getD 0 0).toNat <<< 16

/-- `XORKeyStream` from position `pos` of the keystream. -/
def xorKeyStream (c : Cipher) (pos : ℕ) (buf : List UInt8) : List UInt8 :=
  buf.mapIdx fun i b => b ^^^ c.keystream (pos + i)

/-- `updateMAC`: the MAC state after the seeded block is written, and the first 16 bytes of its
digest. -/
def updateMAC (c : Cipher) (mac seed : List UInt8) : List UInt8 × List UInt8 :=
  let aesbuf := List.zipWith (· ^^^ ·) (c.macEncrypt (c.macSum mac)) seed
  let mac := mac ++ aesbuf
  (mac, (c.macSum mac).take 16)

/-- `io.ReadFull` of `n` bytes from the connection. -/
def readFull (conn : List UInt8) (n : ℕ) : Except FrameErr (List UInt8 × List UInt8) :=
  if n ≤ conn.length then .ok (conn.take n, conn.drop n)
  else if conn = [] then .error .eof
  else .error .unexpectedEOF

/-- The zero bytes that pad a frame of `fsize` bytes to a multiple of 16. -/
def framePadding (fsize : ℕ) : List UInt8 :=
  if fsize % 16 > 0 then List.replicate (16 - fsize % 16) 0 else []

/-- `rlp.EncodeToBytes(msg.Code)`. -/
def Msg.ptype (msg : Msg) : List UInt8 :=
  match encodeToBytes (.uint 64) (.uint msg.code.toNat) with
  | .ok b => b
  | .error _ => []

/-- `WriteMsg` from the header on, for a frame of `fsize` bytes holding `content` (the code's
encoding and the payload as sent): the endpoint afterwards and the bytes written. -/
def FrameRW.writeFrame (c : Cipher) (rw : FrameRW) (fsize : ℕ) (content : List UInt8) :
    FrameRW × List UInt8 :=
  -- write header
  let headbuf := xorKeyStream c rw.enc (putInt24 fsize ++ zeroHeader ++ List.replicate 10 0)
  let (egress, headMAC) := updateMAC c rw.egressMAC headbuf
  -- write encrypted frame, updating the egress MAC hash with the data written to conn
  let frame := xorKeyStream c (rw.enc + 16) (content ++ framePadding fsize)
  let egress := egress ++ frame
  -- write frame MAC
  let (egress, frameMAC) := updateMAC c egress (c.macSum egress)
  ({ rw with enc := rw.enc + 16 + frame.length, egressMAC := egress },
    headbuf ++ (headMAC ++ List.replicate 16 0).take 16 ++ frame ++ frameMAC)

/-- `WriteMsg`. -/
def FrameRW.writeMsg (c : Cipher) (sn : Snappy) (rw : FrameRW) (msg : Msg) :
    Except FrameErr (FrameRW × List UInt8) := do
  let ptype := msg.ptype
  -- if snappy is enabled, compress message now
  let (payload, size) ← if rw.snappy then
      if msg.size > maxUint24 then throw .plainMessageTooLarge
      else
        let payload := sn.encode msg.payload
        pure (payload, payload.length % 2 ^ 32)
    else pure (msg.payload, msg.size)
  let fsize := (ptype.length + size) % 2 ^ 32
  if fsize > maxUint24 then throw .sizeOverflow
  pure (rw.writeFrame c fsize (ptype ++ payload))

/-- `ReadMsg` up to the decrypted frame: its size, its content with the padding, the endpoint
afterwards and the bytes left on the connection. -/
def FrameRW.readFrame (c : Cipher) (rw : FrameRW) (conn : List UInt8) :
    Except FrameErr (ℕ × List UInt8 × FrameRW × List UInt8) := do
  -- read the header
  let (headbuf, conn) ← readFull conn 32
  -- verify header mac
  let (ingress, shouldMAC) := updateMAC c rw.ingressMAC (headbuf.take 16)
  if shouldMAC ≠ headbuf.drop 16 then throw .badHeaderMAC
  let fsize := readInt24 (xorKeyStream c rw.dec (headbuf.take 16))
  -- read the frame content, rounded up to 16 bytes
  let rsize := fsize + (framePadding fsize).length
  let (framebuf, conn) ← readFull conn rsize
  -- read and validate frame MAC
  let ingress := ingress ++ framebuf
  let fmacseed := c.macSum ingress
  let (frameMAC, conn) ← readFull conn 16
  let (ingress, shouldMAC) := updateMAC c ingress fmacseed
  if shouldMAC ≠ frameMAC then throw .badFrameMAC
  -- decrypt frame content
  pure (fsize, xorKeyStream c (rw.dec + 16) framebuf,
    { rw with dec := rw.dec + 16 + rsize, ingressMAC := ingress }, conn)

/-- `ReadMsg`: the message, the endpoint afterwards and the bytes left on the connection. -/
def FrameRW.readMsg (c : Cipher) (sn : Snappy) (rw : FrameRW) (conn : List UInt8) :
    Except FrameErr (Msg × FrameRW × List UInt8) := do
  let (fsize, frame, rw, conn) ← rw.readFrame c conn
  -- decode message code
  match exec (decode 0 (.uint 64)) (newStream (frame.take fsize)) with
  | (.error err, _) => throw (.rlp err)
  | (.ok v, content) =>
    let code : UInt64 := match v with
      | .uint n => UInt64.ofNat n
      | _ => 0
    if rw.snappy then
      let size ← (sn.decodedLen content.r).mapError .snappy
      if size > maxUint24 then throw .plainMessageTooLarge
      let payload ← (sn.decode content.r).mapError .snappy
      pure (⟨code, payload⟩, rw, conn)
    else pure (⟨code, content.r⟩, rw, conn)

/-- `WriteMsg` for each message in turn, up to the first error. -/
def FrameRW.writeMsgs (c : Cipher) (sn : Snappy) : FrameRW → List Msg →
    Except FrameErr (FrameRW × List UInt8)
  | rw, [] => .ok (rw, [])
  | rw, msg :: msgs => do
    let (rw, wire) ← rw.writeMsg c sn msg
    let (rw, rest) ← rw.writeMsgs c sn msgs
    pure (rw, wire ++ rest)

/-- `ReadMsg` `k` times, up to the first error. -/
def FrameRW.readMsgs (c : Cipher) (sn : Snappy) : FrameRW → ℕ → List UInt8 →
    Except FrameErr (List Msg × FrameRW × List UInt8)
  | rw, 0, conn => .ok ([], rw, conn)
  | rw, k + 1, conn => do
    let (msg, rw, conn) ← rw.readMsg c sn conn
    let (msgs, rw, conn) ← rw.readMsgs c sn k conn
    pure (msg :: msgs, rw, conn)

/-! ## The two endpoints in lock step -/

/-- `A`'s egress side and `B`'s ingress side agree: the same position in the keystream, the
same MAC state and the same snappy flag. -/
structure Matched (a b : FrameRW) : Prop where
  keystream : a.enc = b.dec
  mac : a.egressMAC = b.ingressMAC
  snappy : a.snappy = b.snappy

@[simp] theorem length_xorKeyStream (c : Cipher) (pos : ℕ) (buf : List UInt8) :
    (xorKeyStream c pos buf).length = buf.length := by
  simp [xorKeyStream]

theorem xorKeyStream_xorKeyStream (c : Cipher) (pos : ℕ) (buf : List UInt8) :
    xorKeyStream c pos (xorKeyStream c pos buf) = buf := by
  apply List.ext_getElem (by simp)
  intro i h₁ h₂
  simp [xorKeyStream, UInt8.xor_assoc]

theorem readInt24_putInt24 {v : ℕ} (hv : v < 2 ^ 24) (rest : List UInt8) :
    readInt24 (putInt24 v ++ rest) = v := by
  simp only [readInt24, putInt24, List.cons_append, List.getD_cons_succ, List.getD_cons_zero,
    UInt8.toNat_ofNat']
  have h8 : v % 2 ^ 8 < 2 ^ 8 := Nat.mod_lt _ (by norm_num)
  have h16 : (v >>> 8 % 2 ^ 8) <<< 8 + v % 2 ^ 8 < 2 ^ 16 := by
    simp only [Nat.shiftLeft_eq, Nat.shiftRight_eq_div_pow]
    omega
  rw [Nat.or_comm (v % 2 ^ 8), ← Nat.shiftLeft_add_eq_or_of_lt h8, Nat.or_comm,
    ← Nat.shiftLeft_add_eq_or_of_lt h16]
  simp only [Nat.shiftLeft_eq, Nat.shiftRight_eq_div_pow]
  omega

theorem length_updateMAC (c : Cipher) (mac seed : List UInt8) : (updateMAC c mac seed).2.length = 16 := by
  simp [updateMAC, c.sixteen_le_macSum]

theorem readFull_append {conn : List UInt8} {n : ℕ} (h : conn.length = n) (rest : List UInt8) :
    readFull (conn ++ rest) n = .ok (conn, rest) := by
  simp [readFull, ← h]

/-- What `B` reads from what `A` wrote for one frame, and the endpoints again in lock step. -/
theorem readFrame_writeFrame (c : Cipher) {a b : FrameRW} (hab : Matched a b) {fsize : ℕ}
    (hfsize : fsize ≤ maxUint24) {content : List UInt8} (hlen : content.length = fsize) :
    ∃ b', Matched (a.writeFrame c fsize content).1 b' ∧ ∀ rest,
      b.readFrame c ((a.writeFrame c fsize content).2 ++ rest) =
        .ok (fsize, content ++ framePadding fsize, b', rest) := by
  obtain ⟨henc, hmac, hsnappy⟩ := hab
  have hfsize24 : fsize < 2 ^ 24 := by
    unfold maxUint24 at hfsize
    omega
  simp only [FrameRW.writeFrame, FrameRW.readFrame]
  set header := xorKeyStream c a.enc (putInt24 fsize ++ zeroHeader ++ List.replicate 10 0)
    with hheader
  set headMAC := updateMAC c a.egressMAC header with hheadMAC
  set frame := xorKeyStream c (a.enc + 16) (content ++ framePadding fsize) with hframe
  set frameMAC := updateMAC c (headMAC.1 ++ frame) (c.macSum (headMAC.1 ++ frame)) with hframeMAC
  have hheaderLen : header.length = 16 := by simp [header, putInt24, zeroHeader]
  have hheadMACLen : headMAC.2.length = 16 := length_updateMAC ..
  have hcopy : (headMAC.2 ++ List.replicate 16 0).take 16 = headMAC.2 := List.take_left' hheadMACLen
  have hsize : readInt24 (xorKeyStream c b.dec header) = fsize := by
    rw [← henc, xorKeyStream_xorKeyStream, List.append_assoc, readInt24_putInt24 hfsize24]
  have hframeLen : frame.length = fsize + (framePadding fsize).length := by simp [frame, hlen]
  have hpos : a.enc + 16 + frame.length = b.dec + 16 + (fsize + (framePadding fsize).length) := by
    rw [henc, hframeLen]
  refine ⟨{ b with
      dec := b.dec + 16 + (fsize + (framePadding fsize).length)
      ingressMAC := frameMAC.1 }, ⟨hpos, rfl, hsnappy⟩, fun rest => ?_⟩
  have hread32 : readFull (header ++ headMAC.2 ++ frame ++ frameMAC.2 ++ rest) 32 =
      .ok (header ++ headMAC.2, frame ++ frameMAC.2 ++ rest) := by
    simp only [List.append_assoc]
    rw [← List.append_assoc header]
    exact readFull_append (by simp [hheaderLen, hheadMACLen]) _
  have hreadFrame : readFull (frame ++ frameMAC.2 ++ rest) (fsize + (framePadding fsize).length) =
      .ok (frame, frameMAC.2 ++ rest) := by
    rw [List.append_assoc]
    exact readFull_append hframeLen _
  have hread16 : readFull (frameMAC.2 ++ rest) 16 = .ok (frameMAC.2, rest) :=
    readFull_append (length_updateMAC ..) _
  rw [hcopy, hread32, except_ok_bind]
  simp only [List.take_left' hheaderLen, List.drop_left' hheaderLen, ← hmac, ← hheadMAC, hsize,
    ne_eq, not_true_eq_false, if_false, hreadFrame, except_ok_bind, hread16, ← hframeMAC]
  rw [hframe, ← henc, xorKeyStream_xorKeyStream]
  rfl

/-- The payload as `WriteMsg` sends it. -/
def Msg.body (sn : Snappy) (snappy : Bool) (msg : Msg) : List UInt8 :=
  if snappy then sn.encode msg.payload else msg.payload

/-- The size of a message's frame: the code's encoding and the payload as sent. -/
def Msg.framedSize (sn : Snappy) (snappy : Bool) (msg : Msg) : ℕ :=
  msg.ptype.length + (msg.body sn snappy).length

/-- A message `WriteMsg` accepts: its frame size fits in 24 bits, and so does its payload
before compression when compression is on. -/
structure Msg.Fits (sn : Snappy) (snappy : Bool) (msg : Msg) : Prop where
  framed : msg.framedSize sn snappy ≤ maxUint24
  plain : snappy = true → msg.payload.length ≤ maxUint24

theorem Msg.ptype_eq (msg : Msg) : msg.ptype = (Item.str (bigEndian msg.code.toNat)).encode := by
  simp only [Msg.ptype, encodeToBytes_uint (UInt64.toNat_lt msg.code)]

theorem writeMsg_eq (c : Cipher) (sn : Snappy) (rw : FrameRW) {msg : Msg}
    (hfit : msg.Fits sn rw.snappy) :
    rw.writeMsg c sn msg = .ok (rw.writeFrame c (msg.framedSize sn rw.snappy)
      (msg.ptype ++ msg.body sn rw.snappy)) := by
  obtain ⟨hframed, hplain⟩ := hfit
  simp only [Msg.framedSize, Msg.body] at hframed ⊢
  simp only [FrameRW.writeMsg, Msg.size]
  have hmax : maxUint24 < 2 ^ 32 := by decide
  cases hs : rw.snappy with
  | false =>
    simp only [hs, Bool.false_eq_true, if_false] at hframed ⊢
    have hsize : msg.payload.length % 2 ^ 32 = msg.payload.length := Nat.mod_eq_of_lt (by omega)
    have hfsize : (msg.ptype.length + msg.payload.length) % 2 ^ 32 =
        msg.ptype.length + msg.payload.length := Nat.mod_eq_of_lt (by omega)
    simp only [pure_bind, hsize, hfsize, gt_iff_lt, Nat.not_lt.mpr hframed, if_false]
    rfl
  | true =>
    have hplain := hplain hs
    simp only [hs, if_true] at hframed ⊢
    have hsize : msg.payload.length % 2 ^ 32 = msg.payload.length := Nat.mod_eq_of_lt (by omega)
    have hbody : (sn.encode msg.payload).length % 2 ^ 32 = (sn.encode msg.payload).length :=
      Nat.mod_eq_of_lt (by omega)
    have hfsize : (msg.ptype.length + (sn.encode msg.payload).length) % 2 ^ 32 =
        msg.ptype.length + (sn.encode msg.payload).length := Nat.mod_eq_of_lt (by omega)
    simp only [hsize, gt_iff_lt, Nat.not_lt.mpr hplain, if_false, pure_bind, hbody, hfsize,
      Nat.not_lt.mpr hframed]
    rfl

@[simp] theorem snappy_writeFrame (c : Cipher) (rw : FrameRW) (fsize : ℕ) (content : List UInt8) :
    (rw.writeFrame c fsize content).1.snappy = rw.snappy := rfl

theorem readMsg_of_readFrame (c : Cipher) (sn : Snappy) {b b' : FrameRW} {conn rest : List UInt8}
    {msg : Msg} {snappy : Bool} (hsn : b'.snappy = snappy) (hfit : msg.Fits sn snappy)
    (h : b.readFrame c conn = .ok (msg.framedSize sn snappy,
      msg.ptype ++ msg.body sn snappy ++ framePadding (msg.framedSize sn snappy), b', rest)) :
    b.readMsg c sn conn = .ok (msg, b', rest) := by
  subst hsn
  have htake : (msg.ptype ++ msg.body sn b'.snappy ++ framePadding (msg.framedSize sn b'.snappy)).take
      (msg.framedSize sn b'.snappy) = msg.ptype ++ msg.body sn b'.snappy :=
    List.take_left' (by simp [Msg.framedSize])
  obtain ⟨t, hdecode, hr⟩ := decode_uint_prefix msg.code.toNat (UInt64.toNat_lt msg.code)
    (msg.body sn b'.snappy) 0
  rw [← msg.ptype_eq] at hdecode
  simp only [FrameRW.readMsg, h, except_ok_bind, htake, hdecode, hr, UInt64.ofNat_toNat]
  cases hs : b'.snappy with
  | false =>
    simp [Msg.body]
    rfl
  | true =>
    have hplain := hfit.plain hs
    simp [Msg.body, sn.decodedLen_encode, sn.decode_encode, Except.mapError, Nat.not_lt.mpr hplain]

/-- One message: what `B` reads from what `A` wrote is the message, whatever follows it, and the
endpoints are again in lock step. -/
theorem readMsg_writeMsg (c : Cipher) (sn : Snappy) {a b : FrameRW} (hab : Matched a b)
    {msg : Msg} (hfit : msg.Fits sn a.snappy) :
    ∃ a' b' wire, a.writeMsg c sn msg = .ok (a', wire) ∧ Matched a' b' ∧
      ∀ rest, b.readMsg c sn (wire ++ rest) = .ok (msg, b', rest) := by
  have hlen : (msg.ptype ++ msg.body sn a.snappy).length = msg.framedSize sn a.snappy := by
    simp [Msg.framedSize]
  obtain ⟨b', hmatched, hread⟩ := readFrame_writeFrame c hab hfit.framed hlen
  have hsnappy : b'.snappy = a.snappy := by
    rw [← hmatched.snappy, snappy_writeFrame]
  exact ⟨_, b', _, writeMsg_eq c sn a hfit, hmatched,
    fun rest => readMsg_of_readFrame c sn hsnappy hfit (hread rest)⟩

/-- `A` writes the messages one after another and `B` reads as many: it gets them back in order,
every MAC check passes, and the bytes after them are left on the connection. -/
theorem readMsgs_writeMsgs (c : Cipher) (sn : Snappy) {a b : FrameRW} (hab : Matched a b)
    (msgs : List Msg) (hfit : ∀ msg ∈ msgs, msg.Fits sn a.snappy) (rest : List UInt8) :
    ∃ a' b' wire, a.writeMsgs c sn msgs = .ok (a', wire) ∧
      b.readMsgs c sn msgs.length (wire ++ rest) = .ok (msgs, b', rest) ∧ Matched a' b' := by
  induction msgs generalizing a b with
  | nil => exact ⟨a, b, [], rfl, rfl, hab⟩
  | cons msg msgs ih =>
    obtain ⟨a₁, b₁, wire₁, hwrite, hmatched, hread⟩ :=
      readMsg_writeMsg c sn hab (hfit msg List.mem_cons_self)
    have hsnappy : a₁.snappy = a.snappy := by
      obtain ⟨rfl, -⟩ := (writeMsg_eq c sn a (hfit msg List.mem_cons_self)).symm.trans hwrite
        |> Except.ok.inj |> Prod.mk.inj
      exact snappy_writeFrame ..
    obtain ⟨a', b', wire, hwrites, hreads, hmatched'⟩ :=
      ih hmatched (fun m hm => hsnappy ▸ hfit m (List.mem_cons_of_mem msg hm))
    refine ⟨a', b', wire₁ ++ wire, ?_, ?_, hmatched'⟩
    · simp only [FrameRW.writeMsgs, hwrite, except_ok_bind, hwrites]
      rfl
    · simp only [FrameRW.readMsgs, List.length_cons, List.append_assoc, hread, except_ok_bind,
        hreads]
      rfl

/-- A keystream and digest to run frames on: the low byte of the position, and the length of the
MAC state. -/
def sampleCipher : Cipher :=
  ⟨fun i => UInt8.ofNat i, fun m => List.replicate 32 (UInt8.ofNat m.length), fun m => by simp,
    fun b => b.take 16⟩

/-- A codec that sends a run of zero bytes as `0` and the run's big-endian length, and any other
payload as `1` and the payload. -/
def zeroRun : Snappy where
  encode p := if p.all (· = 0) then 0 :: bigEndian p.length else 1 :: p
  decodedLen
    | b :: n => if b = 0 then .ok (ofBigEndian n) else if b = 1 then .ok n.length
        else .error "snappy: corrupt input"
    | [] => .error "snappy: corrupt input"
  decode
    | b :: n => if b = 0 then .ok (List.replicate (ofBigEndian n) 0) else if b = 1 then .ok n
        else .error "snappy: corrupt input"
    | [] => .error "snappy: corrupt input"
  decodedLen_encode p := by
    by_cases h : p.all (· = 0) = true <;> simp [h, ofBigEndian_bigEndian]
  decode_encode p := by
    by_cases h : p.all (· = 0) = true
    · have hp : p = List.replicate p.length 0 :=
        List.eq_replicate_iff.mpr ⟨rfl, by simpa using h⟩
      simp only [h, if_true, ofBigEndian_bigEndian]
      exact congrArg Except.ok hp.symm
    · simp [h]

/-- A fresh endpoint with compression on. -/
def sampleStart : FrameRW := ⟨0, 0, [], [], true⟩

def sampleMsgs : List Msg := [⟨1, [0, 0, 0]⟩, ⟨300, [7, 8]⟩]

theorem readMsgs_writeMsgs_twoMessages :
    Matched sampleStart sampleStart ∧ (∀ msg ∈ sampleMsgs, msg.Fits zeroRun sampleStart.snappy) ∧
      ∃ a' b' wire, sampleStart.writeMsgs sampleCipher zeroRun sampleMsgs = .ok (a', wire) ∧
        sampleStart.readMsgs sampleCipher zeroRun sampleMsgs.length (wire ++ []) =
          .ok (sampleMsgs, b', []) ∧ Matched a' b' := by
  have hab : Matched sampleStart sampleStart := ⟨rfl, rfl, rfl⟩
  have hfit : ∀ msg ∈ sampleMsgs, msg.Fits zeroRun sampleStart.snappy := by
    intro msg hmsg
    simp only [sampleMsgs, List.mem_cons, List.not_mem_nil, or_false] at hmsg
    rcases hmsg with rfl | rfl
    · exact ⟨by decide, fun _ => by decide⟩
    · exact ⟨by decide, fun _ => by decide⟩
  exact ⟨hab, hfit, readMsgs_writeMsgs sampleCipher zeroRun hab sampleMsgs hfit []⟩

/-- With compression on, `WriteMsg` refuses a payload of more than `maxUint24` bytes before it
compresses it. -/
theorem writeMsg_plain_too_large (c : Cipher) (sn : Snappy) {rw : FrameRW} (hs : rw.snappy = true)
    {msg : Msg} (hsize : maxUint24 < msg.size) :
    rw.writeMsg c sn msg = .error .plainMessageTooLarge := by
  simp only [FrameRW.writeMsg, hs, if_true, gt_iff_lt, hsize]
  rfl

theorem ptype_code_zero (payload : List UInt8) : (⟨0, payload⟩ : Msg).ptype = [0x80] := by
  simp [Msg.ptype_eq, isSingleByte, header]

/-- `zeroRun` sends a run of fewer than `256 ^ 4` zero bytes in at most five bytes. -/
theorem framedSize_zeroRun_replicate {n : ℕ} (hn : n < 256 ^ 4) :
    (⟨0, List.replicate n 0⟩ : Msg).framedSize zeroRun true ≤ 6 := by
  have hlen : (bigEndian n).length ≤ 4 := (length_bigEndian_le_iff _ 4).mpr hn
  simp only [Msg.framedSize, Msg.body, if_true, ptype_code_zero]
  simp [zeroRun]
  omega

theorem writeMsg_rejects_compressible_payload :
    (⟨0, List.replicate (2 ^ 24) 0⟩ : Msg).framedSize zeroRun true ≤ maxUint24 ∧
      (⟨0, 0, [], [], true⟩ : FrameRW).writeMsg sampleCipher zeroRun ⟨0, List.replicate (2 ^ 24) 0⟩ =
        .error .plainMessageTooLarge := by
  have hframed : (⟨0, List.replicate (2 ^ 24) 0⟩ : Msg).framedSize zeroRun true ≤ 6 :=
    framedSize_zeroRun_replicate (by norm_num)
  have hsize : ∀ n, n < 2 ^ 32 → (⟨0, List.replicate n 0⟩ : Msg).size = n := fun n hn => by
    simp only [Msg.size, List.length_replicate, Nat.mod_eq_of_lt hn]
  have hbig : maxUint24 < (⟨0, List.replicate (2 ^ 24) 0⟩ : Msg).size := by
    rw [hsize (2 ^ 24) (by norm_num)]
    unfold maxUint24
    omega
  exact ⟨Nat.le_trans hframed (by decide), writeMsg_plain_too_large sampleCipher zeroRun rfl hbig⟩

end Srcd.P2p
