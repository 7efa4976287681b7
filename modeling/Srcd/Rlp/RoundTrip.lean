import Srcd.Rlp.Decode
import Srcd.Rlp.ValueSpec

/-! # Encoding and decoding back

A byte array of length one holding `0x00` is encoded as the single byte `00`. The decoder
reads it back through `decodeByteArray`'s `Byte` case, which calls `s.Uint()` and drops its
error: on a zero byte `uint` fails with `ErrCanonInt` before re-arming `Kind`, so the `Byte`
kind stays cached and the next read of the stream sees the same byte again without consuming
input.

* Followed by another field, the next decoder takes the cached byte as its own value and the
  list is left one byte short of its end: `EncodeToBytes` then `DecodeBytes` fails
  (`roundTrip_byteArray_zero_fails`).
* The same cache makes the decoder accept `C1 00` for a two-field struct, a string that
  `EncodeToBytes` never produces for the value decoded (`decode_accepts_noncanonical`).
* In a slice of such arrays the element loop never reaches `EOL`: decoding loops forever
  (`decodeBytes_byteArraySlice_loops`).
-/

namespace Srcd.Rlp
open Srcd.Library
set_option autoImplicit false

/-- The struct `struct { A [1]byte; B string }`. -/
def byteArrayStringTy : Ty := .struct [.array 1 (.uint 8), .string] false

/-- Its value `{A: [1]byte{0}, B: "\x00"}`. -/
def byteArrayStringVal : Val := .list [.list [.uint 0], .string [0]]

/-- The decoder `makeDecoder` builds for the struct: no slice loop, so the fuel plays no part. -/
theorem decode_byteArrayStringTy (fuel : ℕ) :
    decode fuel byteArrayStringTy = decodeStruct [decodeByteArray 1, decodeString] := rfl

theorem encodeToBytes_byteArrayStringVal :
    encodeToBytes byteArrayStringTy byteArrayStringVal = .ok [0xC2, 0x00, 0x00] := rfl

/-! ## The struct decoder, one field at a time -/

/-- A field that decodes leaves the struct decoder's loop to the fields after it. -/
theorem exec_decodeFields_cons {f : StreamM Val} {fs : List (StreamM Val)} {s s' : Stream}
    {v : Val} (hf : exec (attempt f) s = (.ok (.ok v), s')) :
    exec (decodeFields (f :: fs)) s = exec (do let vs ← decodeFields fs; pure (v :: vs)) s' := by
  rw [decodeFields, exec_bind_of_ok hf]

/-- Two fields that decode, one after the other. -/
theorem exec_decodeFields_pair {f g : StreamM Val} {s₀ s₁ s₂ : Stream} {a b : Val}
    (hf : exec (attempt f) s₀ = (.ok (.ok a), s₁)) (hg : exec (attempt g) s₁ = (.ok (.ok b), s₂)) :
    exec (decodeFields [f, g]) s₀ = (.ok [a, b], s₂) := by
  have hrest : exec (decodeFields [g]) s₁ = (.ok [b], s₂) := by
    rw [exec_decodeFields_cons hg]
    rfl
  rw [exec_decodeFields_cons hf, exec_bind_of_ok hrest]
  rfl

/-- The struct decoder on fields that all decode: what is left is its `ListEnd`. -/
theorem exec_decodeStruct_of_fields {fields : List (StreamM Val)} {s₀ s₁ s₂ : Stream} {n : ℕ}
    {vs : List Val} (hlist : exec (wrap list) s₀ = (.ok n, s₁))
    (hfields : exec (decodeFields fields) s₁ = (.ok vs, s₂)) :
    exec (decodeStruct fields) s₀ = exec (do wrap listEnd; pure (.list vs)) s₂ := by
  rw [decodeStruct, exec_bind_of_ok hlist, exec_bind_of_ok hfields]

/-- The stream inside `C2 00 00` once the list is entered. -/
def byteArrayStringStream : Stream := ⟨[0x00, 0x00], 2, true, none, 0, 0, none, [⟨0, 2⟩]⟩

/-- Inside `C2 00 00` both fields read the first `00`: the byte array through `Uint`, which
leaves the `Byte` kind cached, and the string from that cache. -/
theorem exec_decodeFields_byteArrayString :
    exec (decodeFields [decodeByteArray 1, decodeString]) byteArrayStringStream =
      (.ok [.list [.uint 0], .string [0x00]], ⟨[0x00], 1, true, none, 0, 0, none, [⟨1, 2⟩]⟩) := by
  have hfirst : exec (attempt (decodeByteArray 1)) byteArrayStringStream =
      (.ok (.ok (.list [.uint 0])), ⟨[0x00], 1, true, some .byte, 0, 0, none, [⟨1, 2⟩]⟩) := rfl
  have hsecond : exec (attempt decodeString) ⟨[0x00], 1, true, some .byte, 0, 0, none, [⟨1, 2⟩]⟩ =
      (.ok (.ok (.string [0x00])), ⟨[0x00], 1, true, none, 0, 0, none, [⟨1, 2⟩]⟩) := rfl
  exact exec_decodeFields_pair hfirst hsecond

theorem roundTrip_byteArray_zero_fails (fuel : ℕ) :
    encodeToBytes byteArrayStringTy byteArrayStringVal = .ok [0xC2, 0x00, 0x00] ∧
      decodeBytes fuel byteArrayStringTy [0xC2, 0x00, 0x00] =
        .error (.decodeError "input list has too many elements") := by
  refine ⟨encodeToBytes_byteArrayStringVal, ?_⟩
  have hlist : exec (wrap list) (newStream [0xC2, 0x00, 0x00]) = (.ok 2, byteArrayStringStream) :=
    rfl
  have hend : exec (wrap listEnd) ⟨[0x00], 1, true, none, 0, 0, none, [⟨1, 2⟩]⟩ =
      (.error (.decodeError "input list has too many elements"),
        ⟨[0x00], 1, true, none, 0, 0, none, [⟨1, 2⟩]⟩) := rfl
  have hdec : exec (decode fuel byteArrayStringTy) (newStream [0xC2, 0x00, 0x00]) =
      (.error (.decodeError "input list has too many elements"),
        ⟨[0x00], 1, true, none, 0, 0, none, [⟨1, 2⟩]⟩) := by
    rw [decode_byteArrayStringTy,
      exec_decodeStruct_of_fields hlist exec_decodeFields_byteArrayString, exec_bind_of_error hend]
  unfold decodeBytes
  rw [hdec]

/-! ## A slice of one-byte arrays -/

/-- The stream inside `C1 00` once the list is entered and the element `00` has been read:
the `Byte` kind is cached. -/
def byteCachedStream : Stream :=
  ⟨[], 0, true, some .byte, 0, 0, none, [⟨1, 1⟩]⟩

/-- In `C1 00` the list header is read, and a `[1]byte` then reads `00` and caches the `Byte`
kind. -/
theorem exec_byteArray_C1 :
    exec (wrap list) (newStream [0xC1, 0x00]) =
      (.ok 1, ⟨[0x00], 1, true, none, 0, 0, none, [⟨0, 1⟩]⟩) ∧
    exec (attempt (decodeByteArray 1)) ⟨[0x00], 1, true, none, 0, 0, none, [⟨0, 1⟩]⟩ =
      (.ok (.ok (.list [.uint 0])), byteCachedStream) :=
  ⟨rfl, rfl⟩

theorem decode_accepts_noncanonical (fuel : ℕ) :
    decodeBytes fuel byteArrayStringTy [0xC1, 0x00] = .ok byteArrayStringVal ∧
      encodeToBytes byteArrayStringTy byteArrayStringVal = .ok [0xC2, 0x00, 0x00] := by
  refine ⟨?_, encodeToBytes_byteArrayStringVal⟩
  obtain ⟨hlist, hfirst⟩ := exec_byteArray_C1
  have hsecond : exec (attempt decodeString) byteCachedStream =
      (.ok (.ok (.string [0x00])), ⟨[], 0, true, none, 0, 0, none, [⟨1, 1⟩]⟩) := rfl
  have hdec : exec (decode fuel byteArrayStringTy) (newStream [0xC1, 0x00]) =
      (.ok byteArrayStringVal, ⟨[], 0, true, none, 0, 0, none, []⟩) := by
    rw [decode_byteArrayStringTy,
      exec_decodeStruct_of_fields hlist (exec_decodeFields_pair hfirst hsecond)]
    rfl
  unfold decodeBytes
  rw [hdec]
  rfl

/-- Decoding a `[1]byte` from that stream succeeds and leaves it as it was. -/
theorem decodeByteArray_byteCached :
    exec (attempt (decodeByteArray 1)) byteCachedStream =
      (.ok (.ok (.list [.uint 0])), byteCachedStream) := rfl

/-- Hence the element loop, from that stream, runs until its bound is spent. -/
theorem decodeSliceElems_byteCached (n : ℕ) :
    exec (decodeSliceElems (decodeByteArray 1) n) byteCachedStream =
      (.error .fuelExhausted, byteCachedStream) := by
  induction n with
  | zero => rfl
  | succ n ih =>
    rw [decodeSliceElems, exec_bind_of_ok decodeByteArray_byteCached]
    exact exec_bind_of_error ih

theorem decodeBytes_byteArraySlice_loops (fuel : ℕ) :
    decodeBytes fuel (.slice (.array 1 (.uint 8))) [0xC1, 0x00] = .error .fuelExhausted := by
  cases fuel with
  | zero => rfl
  | succ n =>
    obtain ⟨hlist, hfirst⟩ := exec_byteArray_C1
    have helems : exec (decodeSliceElems (decodeByteArray 1) (n + 1))
        ⟨[0x00], 1, true, none, 0, 0, none, [⟨0, 1⟩]⟩ =
          (.error .fuelExhausted, byteCachedStream) := by
      rw [decodeSliceElems, exec_bind_of_ok hfirst]
      exact exec_bind_of_error (decodeSliceElems_byteCached n)
    have hslice : exec (decode (n + 1) (.slice (.array 1 (.uint 8)))) (newStream [0xC1, 0x00]) =
        (.error .fuelExhausted, byteCachedStream) := by
      show exec (decodeListSlice (decodeSliceElems (decodeByteArray 1) (n + 1))) _ = _
      rw [decodeListSlice, exec_bind_of_ok hlist]
      exact exec_bind_of_error helems
    unfold decodeBytes
    rw [hslice]

end Srcd.Rlp
