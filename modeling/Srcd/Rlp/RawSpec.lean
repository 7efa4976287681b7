import Srcd.Rlp.Item
import Srcd.Rlp.Raw

/-! # Splitting reference encodings

The functions of `raw.go` invert `Item.encode`. On the encoding of an item whose payload has a
length of at most eight bytes, followed by anything, `readKind` reads back the item's kind and
sizes (`readKind_encode`), `split` cuts out the payload and the rest (`split_encode`), and
`countValues` counts the items of a list payload (`countValues_encodeList`). The checks of
`readKind` all pass: the encoder writes every size in its minimal form.
-/

namespace Srcd.Rlp
open Srcd.Library
set_option autoImplicit false

/-- The kind `split` reports for an item. -/
def Item.kind : Item → Kind
  | .str s => if isSingleByte s then .byte else .string
  | .list _ => .list

/-- The content `split` cuts out for an item: the string, or the encodings of the elements. -/
def Item.payload : Item → List UInt8
  | .str s => s
  | .list xs => Item.encodeList xs

theorem length_payload_le (x : Item) : x.payload.length ≤ x.encode.length := by
  cases x with
  | str s =>
    rw [Item.payload, encode_str]
    split <;> simp
  | list xs => simp [Item.payload]

theorem length_encode_le_encodeList {x : Item} {xs : List Item} (h : x ∈ xs) :
    x.encode.length ≤ (Item.encodeList xs).length := by
  induction xs with
  | nil => cases h
  | cons y ys ih =>
    rw [encodeList_cons, List.length_append]
    rcases List.mem_cons.mp h with rfl | h
    · omega
    · have := ih h
      omega

namespace Raw

/-! ## Tags -/

theorem toNat_tag (base : UInt8) (n : ℕ) (h : base.toNat + n < 256) :
    (base + UInt8.ofNat n).toNat = base.toNat + n := by
  rw [UInt8.toNat_add, UInt8.toNat_ofNat']
  omega

/-- A minimal big-endian size of 56 or more reads back. -/
theorem readSize_bigEndian {n : ℕ} (h56 : 56 ≤ n) (rest : List UInt8) :
    readSize (bigEndian n ++ rest) (bigEndian n).length = .ok n := by
  obtain ⟨b, bs, hb⟩ := List.exists_cons_of_ne_nil (bigEndian_ne_nil (by omega : 0 < n))
  have hhead : b ≠ 0 := bigEndian_head_ne_zero hb
  have hcanon : ¬ (n < 56 ∨ (bigEndian n ++ rest).headD 0 = 0) := by
    rw [hb]
    simp only [List.cons_append, List.headD_cons, hhead, or_false]
    omega
  unfold readSize
  rw [if_neg (by simp), List.take_left, ofBigEndian_bigEndian, if_neg hcanon]

/-- The long form of a header: the tag `long + L` and the `L` bytes of the size. -/
theorem length_bigEndian_bounds {n : ℕ} (h56 : 56 ≤ n) (hn : n < 256 ^ 8) :
    1 ≤ (bigEndian n).length ∧ (bigEndian n).length ≤ 8 :=
  ⟨length_bigEndian_pos (by omega), (length_bigEndian_le_iff n 8).mpr hn⟩

theorem readKind_header_string {s : List UInt8} (hs : s.length < 256 ^ 8)
    (hsingle : isSingleByte s = false) (rest : List UInt8) :
    readKind (header 0x80 0xB7 s.length ++ (s ++ rest)) =
      .ok (.string, (header 0x80 0xB7 s.length).length, s.length) := by
  unfold header
  split_ifs with h56
  · -- one tag byte `0x80 + n`; a string of one byte below 0x80 would not have one
    have hcanon : ¬ (s.length = 1 ∧ (s ++ rest).head?.any (· < 128) = true) := by
      rintro ⟨h1, hany⟩
      obtain ⟨b, rfl⟩ := List.length_eq_one_iff.mp h1
      simp only [isSingleByte, decide_eq_false_iff_not] at hsingle
      simp only [List.cons_append, List.head?_cons, Option.any_some,
        decide_eq_true_eq] at hany
      exact hsingle hany
    have hsub : ((0x80 + UInt8.ofNat s.length) - 0x80).toNat = s.length := by
      simp only [UInt8.toNat_sub, UInt8.toNat_add, UInt8.toNat_ofNat', UInt8.reduceToNat]
      omega
    have hlt : ¬ (0x80 + UInt8.ofNat s.length) < 0x80 ∧
        (0x80 + UInt8.ofNat s.length) < 0xB8 := by
      simp only [UInt8.lt_iff_toNat_lt, toNat_tag 0x80 s.length (by simp; omega),
        UInt8.reduceToNat]
      omega
    simp only [readKind, readTag, List.singleton_append, if_neg hlt.1, if_pos hlt.2, hsub,
      if_neg hcanon, except_ok_bind, List.length_cons, List.length_append]
    rw [if_neg (by omega)]
    rfl
  · -- the tag `0xB7 + L`, then the `L` bytes of the size
    have hL := length_bigEndian_bounds (by omega) hs
    have htag : (0xB7 + UInt8.ofNat (bigEndian s.length).length).toNat =
        183 + (bigEndian s.length).length := toNat_tag _ _ (by simp; omega)
    have hsub : ((0xB7 + UInt8.ofNat (bigEndian s.length).length) - 0xB7).toNat =
        (bigEndian s.length).length := by
      simp only [UInt8.toNat_sub, htag, UInt8.reduceToNat]
      omega
    have hlt : ¬ (0xB7 + UInt8.ofNat (bigEndian s.length).length) < 0x80 ∧
        ¬ (0xB7 + UInt8.ofNat (bigEndian s.length).length) < 0xB8 ∧
        (0xB7 + UInt8.ofNat (bigEndian s.length).length) < 0xC0 := by
      simp only [UInt8.lt_iff_toNat_lt, htag, UInt8.reduceToNat]
      omega
    simp only [readKind, readTag, List.cons_append, if_neg hlt.1, if_neg hlt.2.1,
      if_pos hlt.2.2, hsub, readSize_bigEndian (by omega : 56 ≤ s.length),
      Except.map, except_ok_bind, List.length_cons, List.length_append]
    rw [if_neg (by omega)]
    rfl

theorem readKind_header_list {p : List UInt8} (hp : p.length < 256 ^ 8) (rest : List UInt8) :
    readKind (header 0xC0 0xF7 p.length ++ (p ++ rest)) =
      .ok (.list, (header 0xC0 0xF7 p.length).length, p.length) := by
  unfold header
  split_ifs with h56
  · have hsub : ((0xC0 + UInt8.ofNat p.length) - 0xC0).toNat = p.length := by
      simp only [UInt8.toNat_sub, UInt8.toNat_add, UInt8.toNat_ofNat', UInt8.reduceToNat]
      omega
    have hlt : ¬ (0xC0 + UInt8.ofNat p.length) < 0x80 ∧
        ¬ (0xC0 + UInt8.ofNat p.length) < 0xB8 ∧ ¬ (0xC0 + UInt8.ofNat p.length) < 0xC0 ∧
        (0xC0 + UInt8.ofNat p.length) < 0xF8 := by
      simp only [UInt8.lt_iff_toNat_lt, toNat_tag 0xC0 p.length (by simp; omega),
        UInt8.reduceToNat]
      omega
    simp only [readKind, readTag, List.singleton_append, if_neg hlt.1, if_neg hlt.2.1,
      if_neg hlt.2.2.1, if_pos hlt.2.2.2, hsub, except_ok_bind, List.length_cons,
      List.length_append]
    rw [if_neg (by omega)]
    rfl
  · have hL := length_bigEndian_bounds (by omega) hp
    have htag : (0xF7 + UInt8.ofNat (bigEndian p.length).length).toNat =
        247 + (bigEndian p.length).length := toNat_tag _ _ (by simp; omega)
    have hsub : ((0xF7 + UInt8.ofNat (bigEndian p.length).length) - 0xF7).toNat =
        (bigEndian p.length).length := by
      simp only [UInt8.toNat_sub, htag, UInt8.reduceToNat]
      omega
    have hlt : ¬ (0xF7 + UInt8.ofNat (bigEndian p.length).length) < 0x80 ∧
        ¬ (0xF7 + UInt8.ofNat (bigEndian p.length).length) < 0xB8 ∧
        ¬ (0xF7 + UInt8.ofNat (bigEndian p.length).length) < 0xC0 ∧
        ¬ (0xF7 + UInt8.ofNat (bigEndian p.length).length) < 0xF8 := by
      simp only [UInt8.lt_iff_toNat_lt, htag, UInt8.reduceToNat]
      omega
    simp only [readKind, readTag, List.cons_append, if_neg hlt.1, if_neg hlt.2.1,
      if_neg hlt.2.2.1, if_neg hlt.2.2.2, hsub, readSize_bigEndian (by omega : 56 ≤ p.length),
      Except.map, except_ok_bind, List.length_cons, List.length_append]
    rw [if_neg (by omega)]
    rfl

/-! ## Items -/

/-- An encoding is a header, empty for a single byte, then the payload; `readKind` reads the
item's kind and the two sizes back. -/
theorem readKind_encode (x : Item) (hx : x.payload.length < 256 ^ 8) (rest : List UInt8) :
    ∃ hdr, x.encode = hdr ++ x.payload ∧
      readKind (x.encode ++ rest) = .ok (x.kind, hdr.length, x.payload.length) := by
  cases x with
  | str s =>
    simp only [Item.payload] at hx
    cases hsingle : isSingleByte s
    · refine ⟨header 0x80 0xB7 s.length, by simp [hsingle, Item.payload], ?_⟩
      simp only [encode_str, Item.kind, Item.payload, hsingle, Bool.false_eq_true, if_false,
        List.append_assoc]
      exact readKind_header_string hx hsingle rest
    · obtain ⟨b, rfl, hb⟩ := (isSingleByte_iff s).mp hsingle
      refine ⟨[], by simp [hsingle, Item.payload], ?_⟩
      simp only [encode_str, Item.kind, Item.payload, hsingle, if_true, List.singleton_append,
        readKind, readTag, if_pos hb, except_ok_bind, List.length_cons]
      rw [if_neg (by omega)]
      rfl
  | list xs =>
    refine ⟨header 0xC0 0xF7 (Item.encodeList xs).length, by simp [Item.payload], ?_⟩
    rw [encode_list, Item.kind, Item.payload, List.append_assoc]
    exact readKind_header_list hx rest

theorem split_encode (x : Item) (hx : x.payload.length < 256 ^ 8) (rest : List UInt8) :
    split (x.encode ++ rest) = .ok (x.kind, x.payload, rest) := by
  obtain ⟨hdr, henc, hk⟩ := readKind_encode x hx rest
  have hdrop : (x.encode ++ rest).drop hdr.length = x.payload ++ rest := by
    rw [henc, List.append_assoc, List.drop_left]
  simp only [split, hk, except_ok_bind]
  rw [hdrop, List.take_left, ← List.drop_drop, hdrop, List.drop_left]
  rfl

theorem splitString_encode_str (s : List UInt8) (hs : s.length < 256 ^ 8) (rest : List UInt8) :
    splitString ((Item.str s).encode ++ rest) = .ok (s, rest) := by
  have hk : (Item.str s).kind ≠ .list := by
    rw [Item.kind]
    split <;> simp
  simp only [splitString, split_encode (.str s) hs rest, except_ok_bind, if_neg hk]
  rfl

theorem splitList_encode_list (xs : List Item) (hxs : (Item.encodeList xs).length < 256 ^ 8)
    (rest : List UInt8) :
    splitList ((Item.list xs).encode ++ rest) = .ok (Item.encodeList xs, rest) := by
  simp only [splitList, split_encode (.list xs) hxs rest, except_ok_bind, Item.kind]
  rfl

theorem countValues_encodeList (xs : List Item) (hxs : (Item.encodeList xs).length < 256 ^ 8) :
    countValues (Item.encodeList xs) = .ok xs.length := by
  induction xs with
  | nil => exact countValues_nil
  | cons x xs ih =>
    have hx : x.encode.length ≤ (Item.encodeList (x :: xs)).length :=
      length_encode_le_encodeList List.mem_cons_self
    obtain ⟨hdr, henc, hk⟩ :=
      readKind_encode x (by have := length_payload_le x; omega) (Item.encodeList xs)
    have hlen : hdr.length + x.payload.length = x.encode.length := by
      rw [henc, List.length_append]
    have hne : Item.encodeList (x :: xs) ≠ [] := by
      have := length_encode_pos x
      simp only [encodeList_cons, ne_eq, List.append_eq_nil_iff, not_and]
      intro h
      simp [h] at this
    rw [encodeList_cons] at hne ⊢
    rw [countValues_of_readKind hne hk, hlen, List.drop_left,
      ih (by simp only [encodeList_cons, List.length_append] at hxs; omega)]
    rfl

end Raw

end Srcd.Rlp
