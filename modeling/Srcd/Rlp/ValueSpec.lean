import Srcd.Rlp.Value
import Srcd.Rlp.EncbufSpec

/-! # What the Go value writers encode

`itemOf t v` is the RLP item a value `v` of type `t` stands for: integers, booleans, strings,
byte slices and big integers are strings, other slices and arrays and structs are lists, and
the elements of a `tail` field join the struct's list. `encodable t v` says that `v` has type
`t` (an integer fits its bit size, an array has its length, a `tail` field is a slice) and
that every `*big.Int` in it is non-negative.

`write_eq`: the generated writer runs `writeItem` on `itemOf t v`. With the buffer results of
`Srcd.Rlp.EncbufSpec` this gives `encode_paths_agree`: `EncodeToBytes`, the writes of
`Encode` and the bytes read back from `EncodeToReader` are all `Item.encode (itemOf t v)`.
-/

namespace Srcd.Rlp
open Srcd.Library
set_option autoImplicit false

mutual
/-- The RLP item of a value of a given type. -/
def itemOf : Ty → Val → Item
  | .uint _, .uint i => .str (bigEndian i)
  | .bool, .bool b => .str (if b then [1] else [])
  | .string, .string s => .str s
  | .bigInt, .bigInt none => .str []
  | .bigInt, .bigInt (some i) => .str (bigEndian i.toNat)
  | .slice e, .list vs => if e.isByte then .str (Val.bytes vs) else .list (vs.map (itemOf e))
  | .array _ e, .list vs => if e.isByte then .str (Val.bytes vs) else .list (vs.map (itemOf e))
  | .struct fs tail, .list vs => .list (fieldItems fs tail vs)
  | .ptr e, .ptr none =>
    match e with
    | .array _ e' => if e'.isByte then .str [] else .list []
    | .struct _ _ => .list []
    | e => itemOf e e.zero
  | .ptr e, .ptr (some v) => itemOf e v
  | _, _ => .str []

/-- The items of a struct's fields; a `tail` field contributes its elements. -/
def fieldItems : List Ty → Bool → List Val → List Item
  | [], _, [] => []
  | [.slice e], true, [.list vs] =>
    if e.isByte then [.str (Val.bytes vs)] else vs.map (itemOf e)
  | f :: fs, tail, v :: vs => itemOf f v :: fieldItems fs tail vs
  | _, _, _ => []
end

mutual
/-- A value that has the type and that the encoder accepts. -/
def encodable : Ty → Val → Bool
  | .uint bits, .uint n => decide (n < 2 ^ bits) && decide (bits ≤ 64)
  | .bool, .bool _ => true
  | .string, .string _ => true
  | .bigInt, .bigInt none => true
  | .bigInt, .bigInt (some i) => decide (0 ≤ i)
  | .slice e, .list vs => vs.all (encodable e)
  | .array n e, .list vs => vs.length == n && vs.all (encodable e)
  | .struct fs tail, .list vs => encodableFields fs tail vs
  | .ptr _, .ptr none => true
  | .ptr e, .ptr (some v) => encodable e v
  | _, _ => false

/-- The fields of a struct value have the field types; a `tail` field is a slice. -/
def encodableFields : List Ty → Bool → List Val → Bool
  | [], _, [] => true
  | [.slice e], true, [.list vs] => vs.all (encodable e)
  | [_], true, [_] => false
  | f :: fs, tail, v :: vs => encodable f v && encodableFields fs tail vs
  | _, _, _ => false
end

/-! ## Scalars -/

theorem writeUint_eq (i : ℕ) (w : Encbuf) (h : i < 2 ^ 64) :
    writeUint i w = writeItem (.str (bigEndian i)) w := by
  rw [writeItem, Encbuf.encodeString]
  unfold writeUint
  rcases Nat.eq_zero_or_pos i with rfl | hpos
  · simp [Encbuf.encodeStringHeader, Encbuf.appendStr_appendStr]
  have hput := putint_eq_bigEndian hpos h
  by_cases hsmall : i < 128
  · have hbe := bigEndian_of_lt hpos (by omega : i < 256)
    have hle : UInt8.ofNat i ≤ 0x7F := by
      rw [UInt8.le_iff_toNat_le]
      simp [Nat.mod_eq_of_lt (by omega : i < 256)]
      omega
    simp [hbe, hle, Nat.pos_iff_ne_zero.mp hpos, hsmall]
  · have hlen : (bigEndian i).length ≤ 8 := (length_bigEndian_le_iff i 8).mpr (by simpa using h)
    have hsingle : ¬ ((bigEndian i).length = 1 ∧ (bigEndian i).headD 0 ≤ 0x7F) := by
      rintro ⟨h1, h2⟩
      have hlt : i < 256 := (length_bigEndian_le_iff i 1).mp (by omega)
      rw [bigEndian_of_lt hpos hlt] at h2
      rw [UInt8.le_iff_toNat_le] at h2
      simp [Nat.mod_eq_of_lt hlt] at h2
      omega
    rw [if_neg (Nat.pos_iff_ne_zero.mp hpos), if_neg hsmall, if_neg hsingle]
    simp [Encbuf.encodeStringHeader, hput, Encbuf.appendStr_appendStr, show (bigEndian i).length < 56 by omega]

theorem writeBool_eq (b : Bool) (w : Encbuf) :
    writeBool b w = writeItem (.str (if b then [1] else [])) w := by
  cases b <;> simp [writeBool, writeItem, Encbuf.encodeString, Encbuf.encodeStringHeader,
    Encbuf.appendStr_appendStr]

theorem writeString_eq (s : List UInt8) (w : Encbuf) : writeString s w = writeItem (.str s) w := rfl

theorem writeBigIntPtr_eq (i : Option ℤ) (w : Encbuf) (h : ∀ j, i = some j → 0 ≤ j) :
    writeBigIntPtr i w = .ok (writeItem (itemOf .bigInt (.bigInt i)) w) := by
  cases i with
  | none =>
    simp [writeBigIntPtr, itemOf, writeItem, Encbuf.encodeString, Encbuf.encodeStringHeader,
      Encbuf.appendStr_appendStr]
  | some j =>
    have hj := h j rfl
    simp only [writeBigIntPtr, writeBigInt, itemOf, writeItem, not_lt.mpr hj, if_false]
    split_ifs with h0
    · subst h0
      simp [Encbuf.encodeString, Encbuf.encodeStringHeader, Encbuf.appendStr_appendStr]
    · rfl

/-! ## Slices, structs and pointers -/

/-- Writing elements with a writer that writes items writes those items. -/
theorem writeElems_eq (f : Val → Encbuf → Except Err Encbuf) (g : Val → Item) :
    ∀ (vs : List Val) (w : Encbuf), (∀ v ∈ vs, ∀ w, f v w = .ok (writeItem (g v) w)) →
      writeElems f vs w = .ok (writeItems (vs.map g) w)
  | [], w, _ => rfl
  | v :: vs, w, h => by
    simp only [writeElems, h v (List.mem_cons_self ..), bind, Except.bind, List.map_cons,
      writeItems]
    exact writeElems_eq f g vs _ (fun v' hv' => h v' (List.mem_cons_of_mem v hv'))

theorem writeSlice_eq (f : Val → Encbuf → Except Err Encbuf) (g : Val → Item) (vs : List Val)
    (w : Encbuf) (h : ∀ v ∈ vs, ∀ w, f v w = .ok (writeItem (g v) w)) :
    writeSlice f false vs w = .ok (writeItem (.list (vs.map g)) w) := by
  simp [writeSlice, writeElems_eq f g vs _ h, writeItem, Except.map]

/-- The nil pointer to any type is written as the item `itemOf` gives it. -/
theorem write_nilPtr : ∀ (e : Ty) (w : Encbuf),
    write (.ptr e) (.ptr none) w = .ok (writeItem (itemOf (.ptr e) (.ptr none)) w)
  | .uint _, w => by
    simp [write, itemOf, Ty.zero, writeUint, writeItem, Encbuf.encodeString,
      Encbuf.encodeStringHeader, Encbuf.appendStr_appendStr]
  | .bool, w => by simp [write, itemOf, Ty.zero, writeBool_eq]
  | .string, w => by simp [write, itemOf, Ty.zero, writeString_eq]
  | .bigInt, w => by simp [write, itemOf, Ty.zero, writeBigIntPtr_eq]
  | .slice e, w => by
    by_cases hb : e.isByte
    · simp [write, itemOf, Ty.zero, hb, writeBytes, writeItem, Val.bytes]
    · simp [write, itemOf, Ty.zero, hb, writeSlice, writeElems, writeItem, writeItems,
        Except.map]
  | .array _ e, w => by
    by_cases hb : e.isByte
    · simp [write, itemOf, hb, writeItem, Encbuf.encodeString, Encbuf.encodeStringHeader,
        Encbuf.appendStr_appendStr]
    · simp [write, itemOf, hb, writeItem, writeItems]
  | .struct _ _, w => by simp [write, itemOf, writeItem, writeItems]
  | .ptr e, w => by
    simp only [write, itemOf, Ty.zero]
    exact write_nilPtr e w

mutual
/-- The writer `makeWriter` generates writes the value's item. -/
theorem write_eq : ∀ (t : Ty) (v : Val) (w : Encbuf), encodable t v = true →
    write t v w = .ok (writeItem (itemOf t v) w)
  | .uint bits, .uint i, w, h => by
    simp only [encodable, Bool.and_eq_true, decide_eq_true_eq] at h
    have hi : i < 2 ^ 64 := Nat.lt_of_lt_of_le h.1 (Nat.pow_le_pow_right (by norm_num) h.2)
    simp [write, itemOf, writeUint_eq i w hi]
  | .bool, .bool b, w, _ => by simp [write, itemOf, writeBool_eq]
  | .string, .string s, w, _ => by simp [write, itemOf, writeString_eq]
  | .bigInt, .bigInt i, w, h => by
    rw [write, writeBigIntPtr_eq i w]
    intro j hj
    subst hj
    simpa [encodable] using h
  | .slice e, .list vs, w, h => by
    simp only [encodable, List.all_eq_true] at h
    by_cases hb : e.isByte
    · simp [write, itemOf, hb, writeBytes, writeItem]
    · simp only [write, itemOf, hb, if_false, Bool.false_eq_true]
      exact writeSlice_eq _ _ vs w (fun v hv w => write_eq e v w (h v hv))
  | .array n e, .list vs, w, h => by
    simp only [encodable, Bool.and_eq_true, List.all_eq_true] at h
    by_cases hb : e.isByte
    · simp [write, itemOf, hb, writeByteArray, writeItem]
    · simp only [write, itemOf, hb, if_false, Bool.false_eq_true]
      exact writeSlice_eq _ _ vs w (fun v hv w => write_eq e v w (h.2 v hv))
  | .struct fs tail, .list vs, w, h => by
    simp only [encodable] at h
    simp [write, itemOf, writeFields_eq fs tail vs _ h, writeItem, Except.map]
  | .ptr e, .ptr none, w, _ => write_nilPtr e w
  | .ptr e, .ptr (some v), w, h => by
    simp only [encodable] at h
    simp only [write, itemOf]
    exact write_eq e v w h
  | .uint _, .bool _, _, h | .uint _, .string _, _, h | .uint _, .bigInt _, _, h
  | .uint _, .list _, _, h | .uint _, .ptr _, _, h => by simp [encodable] at h
  | .bool, .uint _, _, h | .bool, .string _, _, h | .bool, .bigInt _, _, h
  | .bool, .list _, _, h | .bool, .ptr _, _, h => by simp [encodable] at h
  | .string, .uint _, _, h | .string, .bool _, _, h | .string, .bigInt _, _, h
  | .string, .list _, _, h | .string, .ptr _, _, h => by simp [encodable] at h
  | .bigInt, .uint _, _, h | .bigInt, .bool _, _, h | .bigInt, .string _, _, h
  | .bigInt, .list _, _, h | .bigInt, .ptr _, _, h => by simp [encodable] at h
  | .slice _, .uint _, _, h | .slice _, .bool _, _, h | .slice _, .string _, _, h
  | .slice _, .bigInt _, _, h | .slice _, .ptr _, _, h => by simp [encodable] at h
  | .array _ _, .uint _, _, h | .array _ _, .bool _, _, h | .array _ _, .string _, _, h
  | .array _ _, .bigInt _, _, h | .array _ _, .ptr _, _, h => by simp [encodable] at h
  | .struct _ _, .uint _, _, h | .struct _ _, .bool _, _, h | .struct _ _, .string _, _, h
  | .struct _ _, .bigInt _, _, h | .struct _ _, .ptr _, _, h => by simp [encodable] at h
  | .ptr _, .uint _, _, h | .ptr _, .bool _, _, h | .ptr _, .string _, _, h
  | .ptr _, .bigInt _, _, h | .ptr _, .list _, _, h => by simp [encodable] at h

/-- The struct writer's field loop writes the field items. -/
theorem writeFields_eq : ∀ (fs : List Ty) (tail : Bool) (vs : List Val) (w : Encbuf),
    encodableFields fs tail vs = true →
    writeFields fs tail vs w = .ok (writeItems (fieldItems fs tail vs) w)
  | [], _, [], w, _ => by cases ‹Bool› <;> rfl
  | [f], true, [v], w, h => by
    match f, v with
    | .slice e, .list vs =>
      simp only [encodableFields, List.all_eq_true] at h
      by_cases hb : e.isByte
      · simp [writeFields, writeTailField, fieldItems, hb, writeBytes, writeItems, writeItem]
      · simp only [writeFields, writeTailField, fieldItems, hb, if_false, Bool.false_eq_true,
          writeSlice, if_true]
        exact writeElems_eq _ _ vs w (fun v hv w => write_eq e v w (h v hv))
    | .slice _, .uint _ | .slice _, .bool _ | .slice _, .string _ | .slice _, .bigInt _
    | .slice _, .ptr _ | .uint _, _ | .bool, _ | .string, _ | .bigInt, _ | .array _ _, _
    | .struct _ _, _ | .ptr _, _ => simp [encodableFields] at h
  | [f], false, [v], w, h => by
    simp only [encodableFields, Bool.and_eq_true] at h
    simp [writeFields, fieldItems, write_eq f v w h.1, bind, Except.bind, writeItems]
  | f :: g :: fs, tail, v :: u :: vs, w, h => by
    simp only [encodableFields, Bool.and_eq_true] at h
    simp only [writeFields, fieldItems, write_eq f v w h.1, bind, Except.bind, writeItems]
    exact writeFields_eq (g :: fs) tail (u :: vs) _ h.2
  | [], _, _ :: _, _, h | _ :: _, _, [], _, h => by simp [encodableFields] at h
  | [_], _, _ :: _ :: _, _, h | _ :: _ :: _, _, [_], _, h => by
    simp [encodableFields] at h
end

/-! ## The three output paths -/

/-- The buffer after writing an item into an empty one. -/
theorem writeItem_empty (x : Item) (h : x.encode.length < 2 ^ 64) :
    writeItem x Encbuf.empty = ⟨x.flat, x.heads 0, x.hdr⟩ := by
  simpa [Encbuf.empty] using writeItem_spec x Encbuf.empty h

/-- An item written into an empty buffer comes out as its encoding on every path. -/
theorem outputs_writeItem (x : Item) (h : x.encode.length < 2 ^ 64) :
    (writeItem x Encbuf.empty).toBytes = x.encode ∧
      (writeItem x Encbuf.empty).toWriter.flatten = x.encode ∧
      (writeItem x Encbuf.empty).size = x.encode.length ∧
      ∀ ks : List ℕ, (EncReader.ofEncbuf (writeItem x Encbuf.empty)).readSeq ks =
        x.encode.take ks.sum := by
  rw [writeItem_empty x h]
  have hemit := emit_writeItem x h
  have hsize : (⟨x.flat, x.heads 0, x.hdr⟩ : Encbuf).size = x.encode.length := by
    simp [Encbuf.size, length_flat_add_hdr]
  have hinv : (EncReader.ofEncbuf ⟨x.flat, x.heads 0, x.hdr⟩).Inv := by
    intro buf hb hd hd_mem
    simp only [EncReader.ofEncbuf, Option.mem_def, Option.some.injEq] at hb
    subst hb
    simpa using (heads_offset x 0 hd hd_mem).2
  refine ⟨?_, ?_, hsize, fun ks => ?_⟩
  · rw [toBytes_eq_emit _ (by rw [hsize]; exact congrArg List.length hemit.symm)]
    exact hemit
  · rw [toWriter_flatten]
    exact hemit
  · rw [readSeq_remaining ks _ hinv]
    simp [EncReader.remaining, EncReader.ofEncbuf, hemit]

theorem encode_paths_agree (t : Ty) (v : Val) (hv : encodable t v = true)
    (hsize : (itemOf t v).encode.length < 2 ^ 64) :
    encodeToBytes t v = .ok (itemOf t v).encode ∧
      (encode t v).map List.flatten = .ok (itemOf t v).encode ∧
      ∀ ks : List ℕ, (encodeToReader t v).map (fun r => (r.1, r.2.readSeq ks)) =
        .ok ((itemOf t v).encode.length, (itemOf t v).encode.take ks.sum) := by
  obtain ⟨hbytes, hwriter, hlen, hread⟩ := outputs_writeItem (itemOf t v) hsize
  have hw := write_eq t v Encbuf.empty hv
  refine ⟨?_, ?_, fun ks => ?_⟩
  · simp [encodeToBytes, hw, Except.map, hbytes]
  · simp [encode, hw, Except.map, hwriter]
  · simp [encodeToReader, hw, Except.map, hlen, hread]

/-- A struct with a byte array, a big integer and a `tail` of strings. -/
theorem encode_paths_agree_struct :
    encodable (.struct [.array 1 (.uint 8), .bigInt, .slice .string] true)
        (.list [.list [.uint 0], .bigInt (some 1024), .list [.string [0x61], .string []]]) = true ∧
      (itemOf (.struct [.array 1 (.uint 8), .bigInt, .slice .string] true)
        (.list [.list [.uint 0], .bigInt (some 1024), .list [.string [0x61], .string []]])).encode.length
        < 2 ^ 64 ∧
      encodeToBytes (.struct [.array 1 (.uint 8), .bigInt, .slice .string] true)
        (.list [.list [.uint 0], .bigInt (some 1024), .list [.string [0x61], .string []]]) =
        .ok [0xC6, 0x00, 0x82, 0x04, 0x00, 0x61, 0x80] :=
  ⟨by decide, by decide,
    (encode_paths_agree _ _ (by decide) (by decide)).1.trans (by decide)⟩

end Srcd.Rlp
