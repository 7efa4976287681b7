import Srcd.Rlp.Encbuf

/-! # The encode buffer writes the reference encoding

Writing an item (`writeItem`: strings through `encodeString`, lists between `list` and
`listEnd`) appends the item's string data to `str`, its list headers to `lheads` (at the
offsets where they belong, with their final payload sizes) and their total size to `lhsize`:
`writeItem_spec`, an induction over the item that rests on `listEnd` computing
`size() - offset - lhsize_at_start`. Splicing those headers back into the string data
(`emit`) gives `Item.encode` (`emit_heads`), and each output path is `emit`: `toBytes_eq_emit`,
`toWriter_flatten`, and `readSeq_remaining` for the reader, whatever the buffer sizes.

Sizes are below `2 ^ 64`, the range of `putint` (a Go slice is shorter than that).
-/

namespace Srcd.Rlp
open Srcd.Library
set_option autoImplicit false

/-! ## Integers and headers -/

theorem putint_eq_bigEndian {i : ℕ} (h0 : 0 < i) (h : i < 2 ^ 64) : putint i = bigEndian i := by
  unfold putint
  split_ifs with h1 h2 h3 h4 h5 h6 h7
  · rw [bigEndian_eq_lowBytes 0 (by simp; omega) (by simpa using h1)]
    simp [lowBytes, List.range_succ]
  · rw [bigEndian_eq_lowBytes 1 (by simp at h1; omega) (by simpa using h2)]
    simp [lowBytes, List.range_succ]
  · rw [bigEndian_eq_lowBytes 2 (by simp at h2; omega) (by simpa using h3)]
    simp [lowBytes, List.range_succ]
  · rw [bigEndian_eq_lowBytes 3 (by simp at h3; omega) (by simpa using h4)]
    simp [lowBytes, List.range_succ]
  · rw [bigEndian_eq_lowBytes 4 (by simp at h4; omega) (by simpa using h5)]
    simp [lowBytes, List.range_succ]
  · rw [bigEndian_eq_lowBytes 5 (by simp at h5; omega) (by simpa using h6)]
    simp [lowBytes, List.range_succ]
  · rw [bigEndian_eq_lowBytes 6 (by simp at h6; omega) (by simpa using h7)]
    simp [lowBytes, List.range_succ]
  · rw [bigEndian_eq_lowBytes 7 (by simp at h7; omega) (by simpa using h)]
    simp [lowBytes, List.range_succ]

theorem intsize_eq_length {i : ℕ} (h0 : 0 < i) : intsize i = (bigEndian i).length := by
  induction i using Nat.strong_induction_on with
  | _ i ih =>
    rw [intsize, Nat.shiftRight_eq_div_pow]
    split_ifs with h
    · have hlt : i < 256 := by simpa [Nat.div_eq_zero_iff] using h
      rw [bigEndian_of_lt h0 hlt]
      rfl
    · have hq : 0 < i / 256 := by simp at h; omega
      rw [bigEndian_of_pos h0, List.length_append, ih (i / 256) (by omega) hq]
      rfl

theorem puthead_eq_header (smalltag largetag : UInt8) {size : ℕ} (h : size < 2 ^ 64) :
    puthead smalltag largetag size = header smalltag largetag size := by
  unfold puthead header
  split_ifs with hs
  · rfl
  · rw [putint_eq_bigEndian (by omega) h]

theorem length_header_eq_headsize (short long : UInt8) (n : ℕ) :
    (header short long n).length = if n < 56 then 1 else 1 + intsize n := by
  rw [length_header]
  split_ifs with h
  · rfl
  · rw [intsize_eq_length (by omega)]

/-! ## The buffer operations -/

namespace Encbuf

@[simp] theorem appendStr_str (w : Encbuf) (b : List UInt8) : (w.appendStr b).str = w.str ++ b :=
  rfl

@[simp] theorem appendStr_lheads (w : Encbuf) (b : List UInt8) :
    (w.appendStr b).lheads = w.lheads := rfl

@[simp] theorem appendStr_lhsize (w : Encbuf) (b : List UInt8) :
    (w.appendStr b).lhsize = w.lhsize := rfl

theorem appendStr_appendStr (w : Encbuf) (a b : List UInt8) :
    (w.appendStr a).appendStr b = w.appendStr (a ++ b) := by
  simp [appendStr, List.append_assoc]

theorem encodeStringHeader_eq (w : Encbuf) {size : ℕ} (h : size < 2 ^ 64) :
    w.encodeStringHeader size = w.appendStr (header 0x80 0xB7 size) := by
  unfold encodeStringHeader header
  split_ifs with hs
  · rfl
  · rw [putint_eq_bigEndian (by omega) h]

theorem encodeString_eq (w : Encbuf) {b : List UInt8} (h : b.length < 2 ^ 64) :
    w.encodeString b = w.appendStr (Item.str b).encode := by
  have hsingle : (b.length = 1 ∧ b.headD 0 ≤ 0x7F) ↔ isSingleByte b = true := by
    match b with
    | [] => simp [isSingleByte]
    | [c] =>
      simp only [isSingleByte, List.length_singleton, List.headD_cons, true_and,
        decide_eq_true_eq, UInt8.le_iff_toNat_le, UInt8.lt_iff_toNat_lt]
      simp only [UInt8.reduceToNat]
      omega
    | _ :: _ :: _ => simp [isSingleByte]
  rw [encode_str, encodeString, encodeStringHeader_eq w h, appendStr_appendStr]
  by_cases hs : isSingleByte b = true
  · obtain ⟨c, rfl, -⟩ := (isSingleByte_iff b).mp hs
    rw [if_pos (hsingle.mpr hs), if_pos hs]
    rfl
  · rw [if_neg (mt hsingle.mp hs), if_neg hs]

/-- `encodeString` copies the whole string out, whatever its length. -/
theorem length_le_encodeString (w : Encbuf) (b : List UInt8) :
    w.str.length + b.length ≤ (w.encodeString b).str.length := by
  unfold encodeString encodeStringHeader
  split_ifs with hsingle
  · simp [hsingle.1]
  all_goals simp only [appendStr_str, List.length_append]; omega

@[simp] theorem list_fst (w : Encbuf) : w.list.1 = w.lheads.length := rfl

@[simp] theorem list_snd (w : Encbuf) :
    w.list.2 = { w with lheads := w.lheads ++ [⟨w.str.length, w.lhsize⟩] } := rfl

/-- Closing the list at index `pre.length`, whose header still holds `lhsize` at its start. -/
theorem listEnd_at (w : Encbuf) (pre post : List Listhead) (off start : ℕ)
    (hw : w.lheads = pre ++ ⟨off, start⟩ :: post) :
    w.listEnd pre.length =
      { w with
        lheads := pre ++ ⟨off, w.size - off - start⟩ :: post
        lhsize := w.lhsize + headsize (w.size - off - start) } := by
  have hget : (pre ++ ⟨off, start⟩ :: post).getD pre.length ⟨0, 0⟩ = ⟨off, start⟩ := by
    rw [List.getD_eq_getElem?_getD, List.getElem?_append_right (Nat.le_refl _)]
    simp
  simp only [listEnd, hw, hget, List.set_append_right _ _ (Nat.le_refl _), Nat.sub_self,
    List.set_cons_zero, headsize]
  split_ifs <;> rfl

end Encbuf

/-! ## Writing an item -/

mutual
/-- Writing an RLP item the way the generated writers do: strings through `encodeString`,
lists between `list` and `listEnd`. -/
def writeItem : Item → Encbuf → Encbuf
  | .str s, w => w.encodeString s
  | .list xs, w => (writeItems xs w.list.2).listEnd w.list.1

/-- Writing items one after another. -/
def writeItems : List Item → Encbuf → Encbuf
  | [], w => w
  | x :: xs, w => writeItems xs (writeItem x w)
end

mutual
/-- The string data an item leaves in `str`: its encoding without list headers. -/
def Item.flat : Item → List UInt8
  | .str s => (Item.str s).encode
  | .list xs => Item.flatList xs

/-- The string data of items written one after another. -/
def Item.flatList : List Item → List UInt8
  | [] => []
  | x :: xs => x.flat ++ Item.flatList xs
end

mutual
/-- The closed list headers of an item whose string data starts at offset `off`, in the order
`list` opens them. -/
def Item.heads : Item → ℕ → List Listhead
  | .str _, _ => []
  | .list xs, off => ⟨off, (Item.encodeList xs).length⟩ :: Item.headsList xs off

/-- The list headers of items written one after another from offset `off`. -/
def Item.headsList : List Item → ℕ → List Listhead
  | [], _ => []
  | x :: xs, off => x.heads off ++ Item.headsList xs (off + x.flat.length)
end

mutual
/-- The total size of an item's list headers. -/
def Item.hdr : Item → ℕ
  | .str _ => 0
  | .list xs => (header 0xC0 0xF7 (Item.encodeList xs).length).length + Item.hdrList xs

/-- The total size of the list headers of items written one after another. -/
def Item.hdrList : List Item → ℕ
  | [] => 0
  | x :: xs => x.hdr + Item.hdrList xs
end

mutual
theorem length_flat_add_hdr : ∀ x : Item, x.flat.length + x.hdr = x.encode.length
  | .str s => by simp [Item.flat, Item.hdr]
  | .list xs => by
    have := length_flatList_add_hdrList xs
    simp only [Item.flat, Item.hdr, encode_list, List.length_append]
    omega

theorem length_flatList_add_hdrList :
    ∀ xs : List Item, (Item.flatList xs).length + Item.hdrList xs = (Item.encodeList xs).length
  | [] => rfl
  | x :: xs => by
    have h1 := length_flat_add_hdr x
    have h2 := length_flatList_add_hdrList xs
    simp only [Item.flatList, Item.hdrList, encodeList_cons, List.length_append]
    omega
end

theorem length_encodeList_le_encode_list (xs : List Item) :
    (Item.encodeList xs).length ≤ (Item.list xs).encode.length := by
  simp

theorem length_encode_le_encodeList_cons (x : Item) (xs : List Item) :
    x.encode.length ≤ (Item.encodeList (x :: xs)).length ∧
      (Item.encodeList xs).length ≤ (Item.encodeList (x :: xs)).length := by
  simp

mutual
theorem writeItem_spec : ∀ (x : Item) (w : Encbuf), x.encode.length < 2 ^ 64 →
    writeItem x w = ⟨w.str ++ x.flat, w.lheads ++ x.heads w.str.length, w.lhsize + x.hdr⟩
  | .str s, w, h => by
    have hs : s.length < 2 ^ 64 := Nat.lt_of_le_of_lt (by rw [encode_str]; split <;> simp) h
    rw [writeItem, w.encodeString_eq hs]
    simp [Encbuf.appendStr, Item.flat, Item.heads, Item.hdr]
  | .list xs, w, h => by
    have hxs : (Item.encodeList xs).length < 2 ^ 64 :=
      Nat.lt_of_le_of_lt (length_encodeList_le_encode_list xs) h
    have hlen := length_flatList_add_hdrList xs
    rw [writeItem, writeItems_spec xs _ hxs, Encbuf.list_fst, Encbuf.list_snd]
    rw [Encbuf.listEnd_at _ w.lheads (Item.headsList xs w.str.length) w.str.length w.lhsize
      (by simp)]
    have hsize : (⟨w.str ++ Item.flatList xs, w.lheads ++ [⟨w.str.length, w.lhsize⟩] ++
        Item.headsList xs w.str.length, w.lhsize + Item.hdrList xs⟩ : Encbuf).size - w.str.length -
        w.lhsize = (Item.encodeList xs).length := by
      simp only [Encbuf.size, List.length_append]
      omega
    rw [hsize, headsize, ← length_header_eq_headsize 0xC0 0xF7]
    simp only [Item.flat, Item.heads, Item.hdr]
    congr 1
    omega

theorem writeItems_spec : ∀ (xs : List Item) (w : Encbuf), (Item.encodeList xs).length < 2 ^ 64 →
    writeItems xs w = ⟨w.str ++ Item.flatList xs, w.lheads ++ Item.headsList xs w.str.length,
      w.lhsize + Item.hdrList xs⟩
  | [], w, _ => by simp [writeItems, Item.flatList, Item.headsList, Item.hdrList]
  | x :: xs, w, h => by
    have hb := length_encode_le_encodeList_cons x xs
    rw [writeItems, writeItem_spec x w (by omega), writeItems_spec xs _ (by omega)]
    simp [Item.flatList, Item.headsList, Item.hdrList, List.append_assoc, Nat.add_assoc]
end

/-! ## Splicing the headers back -/

/-- What the header loops output from string position `strpos` on while the headers `hs` are
still to come: the string data up to each header, then the header. -/
def emit (str : List UInt8) (strpos : ℕ) : List Listhead → List UInt8
  | [] => str.drop strpos
  | h :: hs =>
    let before := (str.drop strpos).take (h.offset - strpos)
    before ++ h.encode ++ emit str (strpos + before.length) hs

/-- The first of the headers `hs`, if any, is at offset `q` or later. -/
def StartsAfter (q : ℕ) (hs : List Listhead) : Prop := ∀ h ∈ hs.head?, q ≤ h.offset

theorem startsAfter_nil (q : ℕ) : StartsAfter q [] := by simp [StartsAfter]

theorem startsAfter_of_le {q q' : ℕ} {hs : List Listhead} (hle : q' ≤ q) (h : StartsAfter q hs) :
    StartsAfter q' hs := fun x hx => Nat.le_trans hle (h x hx)

/-- String data that lies before the next header can be emitted first. -/
theorem emit_split (str : List UInt8) (p k : ℕ) (hs : List Listhead) (hp : p + k ≤ str.length)
    (hk : StartsAfter (p + k) hs) :
    emit str p hs = (str.drop p).take k ++ emit str (p + k) hs := by
  cases hs with
  | nil =>
    simp only [emit]
    rw [← List.drop_drop, List.take_append_drop]
  | cons h hs =>
    have hoff : p + k ≤ h.offset := hk h rfl
    have htake : (str.drop p).take (h.offset - p) =
        (str.drop p).take k ++ (str.drop (p + k)).take (h.offset - (p + k)) := by
      rw [show h.offset - p = k + (h.offset - (p + k)) by omega, List.take_add, List.drop_drop]
    have hlen : p + ((str.drop p).take (h.offset - p)).length =
        p + k + ((str.drop (p + k)).take (h.offset - (p + k))).length := by
      simp only [List.length_take, List.length_drop]
      omega
    simp only [emit]
    rw [hlen, htake, List.append_assoc, List.append_assoc, List.append_assoc]

mutual
theorem heads_offset : ∀ (x : Item) (off : ℕ), ∀ h ∈ x.heads off,
    off ≤ h.offset ∧ h.offset ≤ off + x.flat.length
  | .str _, _, h, hh => by simp [Item.heads] at hh
  | .list xs, off, h, hh => by
    simp only [Item.heads, List.mem_cons] at hh
    rcases hh with rfl | hh
    · simp
    · simpa [Item.flat] using headsList_offset xs off h hh

theorem headsList_offset : ∀ (xs : List Item) (off : ℕ), ∀ h ∈ Item.headsList xs off,
    off ≤ h.offset ∧ h.offset ≤ off + (Item.flatList xs).length
  | [], _, h, hh => by simp [Item.headsList] at hh
  | x :: xs, off, h, hh => by
    simp only [Item.headsList, List.mem_append] at hh
    simp only [Item.flatList, List.length_append]
    rcases hh with hh | hh
    · have := heads_offset x off h hh
      omega
    · have := headsList_offset xs (off + x.flat.length) h hh
      omega
end

theorem startsAfter_headsList_append (xs : List Item) (q : ℕ) (hs : List Listhead)
    (h : StartsAfter (q + (Item.flatList xs).length) hs) :
    StartsAfter q (Item.headsList xs q ++ hs) := by
  intro h' hh
  cases hxs : Item.headsList xs q with
  | nil =>
    rw [hxs, List.nil_append] at hh
    exact Nat.le_trans (Nat.le_add_right _ _) (h h' hh)
  | cons a rest =>
    rw [hxs, List.cons_append, List.head?_cons, Option.mem_some_iff] at hh
    subst hh
    exact (headsList_offset xs q a (by rw [hxs]; exact List.mem_cons_self ..)).1

mutual
/-- The headers of an item, spliced into its string data, give its encoding. -/
theorem emit_heads : ∀ (x : Item) (str rest : List UInt8) (p : ℕ) (hs : List Listhead),
    str.drop p = x.flat ++ rest → StartsAfter (p + x.flat.length) hs →
    x.encode.length < 2 ^ 64 →
    emit str p (x.heads p ++ hs) = x.encode ++ emit str (p + x.flat.length) hs
  | .str s, str, rest, p, hs, hstr, hafter, _ => by
    have hne := length_encode_pos (.str s)
    have hp : p + (Item.str s).flat.length ≤ str.length := by
      have := congrArg List.length hstr
      simp only [Item.flat, List.length_drop, List.length_append] at this ⊢
      omega
    rw [Item.heads, List.nil_append, emit_split str p _ hs hp hafter, hstr,
      List.take_left' rfl]
    rfl
  | .list xs, str, rest, p, hs, hstr, hafter, hsize => by
    have hxs : (Item.encodeList xs).length < 2 ^ 64 :=
      Nat.lt_of_le_of_lt (length_encodeList_le_encode_list xs) hsize
    have hlist := emit_headsList xs str rest p hs hstr hafter hxs
    simp only [Item.heads, List.cons_append, emit, Nat.sub_self, List.take_zero,
      List.nil_append, List.length_nil, Nat.add_zero]
    rw [hlist, Listhead.encode, puthead_eq_header _ _ hxs, encode_list, List.append_assoc]
    rfl

theorem emit_headsList : ∀ (xs : List Item) (str rest : List UInt8) (p : ℕ) (hs : List Listhead),
    str.drop p = Item.flatList xs ++ rest → StartsAfter (p + (Item.flatList xs).length) hs →
    (Item.encodeList xs).length < 2 ^ 64 →
    emit str p (Item.headsList xs p ++ hs) = Item.encodeList xs ++ emit str (p + (Item.flatList xs).length) hs
  | [], _, _, p, hs, _, _, _ => by simp [Item.headsList, Item.flatList]
  | x :: xs, str, rest, p, hs, hstr, hafter, hsize => by
    have hb := length_encode_le_encodeList_cons x xs
    have hstr' : str.drop (p + x.flat.length) = Item.flatList xs ++ rest := by
      rw [← List.drop_drop, hstr, Item.flatList, List.append_assoc, List.drop_left]
    have hafter' : StartsAfter (p + x.flat.length + (Item.flatList xs).length) hs := by
      simpa [Item.flatList, Nat.add_assoc] using hafter
    rw [Item.headsList, List.append_assoc,
      emit_heads x str (Item.flatList xs ++ rest) p _ (by rw [hstr, Item.flatList, List.append_assoc])
        (startsAfter_headsList_append xs _ hs hafter') (by omega),
      emit_headsList xs str rest (p + x.flat.length) hs hstr' hafter' (by omega)]
    simp [Item.flatList, Nat.add_assoc]
end

/-- Emitting all the headers of an item written into an empty buffer gives its encoding. -/
theorem emit_writeItem (x : Item) (h : x.encode.length < 2 ^ 64) :
    emit x.flat 0 (x.heads 0) = x.encode := by
  have := emit_heads x x.flat [] 0 [] (by simp) (startsAfter_nil _) h
  simpa [emit] using this

/-! ## `toBytes` -/

/-- Copying into the zero-filled tail of the output buffer. -/
theorem copyInto_zeros (pre src : List UInt8) (k : ℕ) (h : src.length ≤ k) :
    copyInto (pre ++ List.replicate k 0) pre.length src =
      (pre ++ src ++ List.replicate (k - src.length) 0, src.length) := by
  have hmin : min ((pre ++ List.replicate k 0).length - pre.length) src.length = src.length := by
    simp only [List.length_append, List.length_replicate]
    omega
  simp only [copyInto, hmin, List.take_left' rfl, List.take_length, List.append_assoc]
  rw [← List.drop_drop, List.drop_left, List.drop_replicate]

/-- The loop of `toBytes` fills the output with what `emit` produces, leaving zeros behind. -/
theorem foldl_toBytesStep (str : List UInt8) (N : ℕ) :
    ∀ (hs : List Listhead) (done : List UInt8) (strpos : ℕ),
      done.length + (emit str strpos hs).length = N →
      ∃ done' strpos', hs.foldl (Encbuf.toBytesStep str)
          (done ++ List.replicate (N - done.length) 0, strpos, done.length) =
          (done' ++ List.replicate (N - done'.length) 0, strpos', done'.length) ∧
        done' ++ str.drop strpos' = done ++ emit str strpos hs
  | [], done, strpos, _ => ⟨done, strpos, rfl, rfl⟩
  | h :: hs, done, strpos, hN => by
    let before := (str.drop strpos).take (h.offset - strpos)
    have hemit : emit str strpos (h :: hs) =
        before ++ h.encode ++ emit str (strpos + before.length) hs := rfl
    rw [hemit] at hN
    simp only [List.length_append] at hN
    have hstep : Encbuf.toBytesStep str (done ++ List.replicate (N - done.length) 0, strpos,
        done.length) h = ((done ++ before ++ h.encode) ++
          List.replicate (N - (done ++ before ++ h.encode).length) 0,
        strpos + before.length, (done ++ before ++ h.encode).length) := by
      simp only [Encbuf.toBytesStep]
      rw [copyInto_zeros done before _ (by omega)]
      have hpos : done.length + before.length = (done ++ before).length := by simp
      rw [hpos, copyInto_zeros (done ++ before) h.encode _ (by omega)]
      simp only [List.length_append, Nat.sub_sub, Nat.add_assoc]
    obtain ⟨done', strpos', hfold, hout⟩ :=
      foldl_toBytesStep str N hs (done ++ before ++ h.encode) (strpos + before.length)
        (by simp only [List.length_append]; omega)
    refine ⟨done', strpos', ?_, ?_⟩
    · rw [List.foldl_cons, hstep, hfold]
    · rw [hout, hemit, List.append_assoc, List.append_assoc, List.append_assoc]

/-- `toBytes` is the spliced output, when the buffer's size is the length of that output. -/
theorem toBytes_eq_emit (w : Encbuf) (h : w.size = (emit w.str 0 w.lheads).length) :
    w.toBytes = emit w.str 0 w.lheads := by
  obtain ⟨done', strpos', hfold, hout⟩ := foldl_toBytesStep w.str w.size w.lheads [] 0 (by simpa using h.symm)
  have hlen : (w.str.drop strpos').length ≤ w.size - done'.length := by
    have := congrArg List.length hout
    simp only [List.length_append, List.nil_append] at this
    omega
  simp only [List.length_nil, Nat.sub_zero, List.nil_append] at hfold
  simp only [Encbuf.toBytes, hfold, copyInto_zeros _ _ _ hlen]
  rw [List.nil_append] at hout
  have := congrArg List.length hout
  simp only [List.length_append] at this
  rw [hout, show w.size - done'.length - (w.str.drop strpos').length = 0 by omega,
    List.replicate_zero, List.append_nil]

/-- `copy` never changes the length of the buffer it writes into. -/
theorem length_copyInto (out : List UInt8) (pos : ℕ) (src : List UInt8) :
    (copyInto out pos src).1.length = out.length := by
  simp only [copyInto, List.length_append, List.length_take, List.length_drop]
  omega

/-- `toBytes` fills a buffer of the announced size, whatever the headers: its output is as long
as the string data and the headers together. -/
theorem length_toBytes (w : Encbuf) : w.toBytes.length = w.size := by
  have hfold : ∀ (hs : List Listhead) (acc : List UInt8 × ℕ × ℕ),
      (hs.foldl (Encbuf.toBytesStep w.str) acc).1.length = acc.1.length := by
    intro hs
    induction hs with
    | nil => intro acc; rfl
    | cons h hs ih =>
      intro acc
      rw [List.foldl_cons, ih]
      simp only [Encbuf.toBytesStep, length_copyInto]
  unfold Encbuf.toBytes
  generalize hacc : w.lheads.foldl (Encbuf.toBytesStep w.str) (List.replicate w.size 0, 0, 0) = acc
  obtain ⟨out, strpos, pos⟩ := acc
  have hout := hfold w.lheads (List.replicate w.size 0, 0, 0)
  rw [hacc] at hout
  simp only [length_copyInto, hout, List.length_replicate]

/-! ## `toWriter` -/

theorem toWriterStep_spec (str : List UInt8) (ws : List (List UInt8)) (strpos : ℕ) (h : Listhead) :
    (Encbuf.toWriterStep str (ws, strpos) h).1.flatten =
        ws.flatten ++ (str.drop strpos).take (h.offset - strpos) ++ h.encode ∧
      (Encbuf.toWriterStep str (ws, strpos) h).2 =
        strpos + ((str.drop strpos).take (h.offset - strpos)).length := by
  by_cases hpos : h.offset - strpos > 0
  · simp [Encbuf.toWriterStep, hpos]
  · have h0 : h.offset - strpos = 0 := by omega
    simp [Encbuf.toWriterStep, h0]

/-- The writes of `toWriter`'s loop, followed by the string data after it, are the spliced output. -/
theorem foldl_toWriterStep (str : List UInt8) :
    ∀ (hs : List Listhead) (ws : List (List UInt8)) (strpos : ℕ),
      (hs.foldl (Encbuf.toWriterStep str) (ws, strpos)).1.flatten ++
          str.drop (hs.foldl (Encbuf.toWriterStep str) (ws, strpos)).2 =
        ws.flatten ++ emit str strpos hs
  | [], ws, strpos => rfl
  | h :: hs, ws, strpos => by
    obtain ⟨h1, h2⟩ := toWriterStep_spec str ws strpos h
    rw [List.foldl_cons]
    generalize hstep : Encbuf.toWriterStep str (ws, strpos) h = r at h1 h2
    obtain ⟨ws', strpos'⟩ := r
    rw [foldl_toWriterStep str hs ws' strpos', show ws'.flatten = _ from h1]
    simp only at h2
    simp [emit, h2, List.append_assoc]

theorem toWriter_flatten (w : Encbuf) : w.toWriter.flatten = emit w.str 0 w.lheads := by
  have h := foldl_toWriterStep w.str w.lheads [] 0
  simp only [List.flatten_nil, List.nil_append] at h
  unfold Encbuf.toWriter
  generalize w.lheads.foldl (Encbuf.toWriterStep w.str) ([], 0) = r at h
  obtain ⟨ws, strpos⟩ := r
  simp only at h ⊢
  split_ifs with hlt
  · simpa using h
  · rw [List.drop_eq_nil_of_le (by omega), List.append_nil] at h
    exact h

/-! ## The reader of `EncodeToReader` -/

/-- The bytes a reader has still to hand out. -/
def EncReader.remaining (r : EncReader) : List UInt8 :=
  match r.buf with
  | none => []
  | some buf => r.piece ++ emit buf.str r.strpos (buf.lheads.drop r.lhpos)

/-- Every header of the buffer lies within its string data. -/
def EncReader.Inv (r : EncReader) : Prop :=
  ∀ buf ∈ r.buf, ∀ h ∈ buf.lheads, h.offset ≤ buf.str.length

theorem listhead_encode_ne_nil (h : Listhead) : h.encode ≠ [] := by
  unfold Listhead.encode puthead
  split <;> simp

/-- One call of `next`: the piece it returns, then what the reader still holds once the piece is
taken, is what it held before; an empty piece means nothing is left. -/
theorem next_spec (r : EncReader) (hr : r.Inv) :
    r.remaining = r.next.2 ++ { r.next.1 with piece := [] }.remaining ∧
      (r.next.2 = [] → r.remaining = []) ∧ r.next.1.buf = r.buf ∧
      (r.buf = none → r.next.2 = []) := by
  rcases hbuf : r.buf with _ | buf
  · simp [EncReader.next, EncReader.remaining, hbuf]
  have hoff : ∀ h ∈ buf.lheads, h.offset ≤ buf.str.length := hr buf (by simp [hbuf])
  by_cases hpiece : r.piece = []
  · rcases hget : buf.lheads[r.lhpos]? with _ | head
    · have hdrop : buf.lheads.drop r.lhpos = [] := by
        rw [List.getElem?_eq_none_iff] at hget
        exact List.drop_eq_nil_of_le hget
      by_cases hlt : r.strpos < buf.str.length
      · simp [EncReader.next, EncReader.remaining, hbuf, hpiece, hget, hdrop, hlt, emit]
      · simp [EncReader.next, EncReader.remaining, hbuf, hpiece, hget, hdrop, hlt, emit,
          List.drop_eq_nil_of_le (Nat.le_of_not_lt hlt)]
    · have hlen : r.lhpos < buf.lheads.length := by
        rw [List.getElem?_eq_some_iff] at hget
        exact hget.1
      have hdrop : buf.lheads.drop r.lhpos = head :: buf.lheads.drop (r.lhpos + 1) := by
        rw [List.drop_eq_getElem_cons hlen]
        rw [List.getElem?_eq_some_iff] at hget
        rw [hget.2]
      have hhead : head.offset ≤ buf.str.length :=
        hoff head (List.mem_of_getElem? hget)
      by_cases hsb : head.offset - r.strpos > 0
      · have htake : ((buf.str.drop r.strpos).take (head.offset - r.strpos)).length =
            head.offset - r.strpos := by
          simp only [List.length_take, List.length_drop]
          omega
        have hne : (buf.str.drop r.strpos).take (head.offset - r.strpos) ≠ [] := by
          rw [← List.length_pos_iff, htake]
          exact hsb
        simp only [EncReader.next, EncReader.remaining, hbuf, hpiece, hget, hsb, ne_eq,
          not_true_eq_false, ite_false, ite_true, hdrop, emit, List.nil_append]
        refine ⟨?_, fun h => absurd h hne, trivial, fun h => absurd h (by simp)⟩
        have hsum : r.strpos + (head.offset - r.strpos) = head.offset := by omega
        have hmin : min (head.offset - r.strpos) (buf.str.length - r.strpos) =
            head.offset - r.strpos := by omega
        simp [hsum, hmin]
      · have h0 : head.offset - r.strpos = 0 := by omega
        simp [EncReader.next, EncReader.remaining, hbuf, hpiece, hget, hdrop, emit, h0,
          listhead_encode_ne_nil]
  · simp [EncReader.next, EncReader.remaining, hbuf, hpiece]

/-- One `Read` of `space` bytes hands out the first `space` bytes still held. -/
theorem read_spec : ∀ (space : ℕ) (r : EncReader), r.Inv →
    (r.read space).2.1 = r.remaining.take space ∧
      r.remaining = (r.read space).2.1 ++ (r.read space).1.remaining ∧ (r.read space).1.Inv := by
  intro space
  induction space using Nat.strong_induction_on with
  | _ space ih =>
    intro r hr
    obtain ⟨hrem, hempty, hbuf, hnone⟩ := next_spec r hr
    rw [EncReader.read]
    generalize hn : r.next = np at hrem hempty hbuf hnone
    obtain ⟨r', p⟩ := np
    simp only at hrem hempty hbuf hnone
    have hinv' : ({ r' with piece := [] } : EncReader).Inv := by
      intro buf hb
      exact hr buf (by rw [← hbuf]; exact hb)
    by_cases hp : p = []
    · have hnil := hempty hp
      simp only [hp, dite_true]
      refine ⟨by simp [hnil], by rw [hnil]; rfl, ?_⟩
      intro buf hb
      simp at hb
    · by_cases hs : space < p.length
      · simp only [hp, hs, dite_false, dite_true]
        refine ⟨?_, ?_, ?_⟩
        · rw [hrem, List.take_append_of_le_length (Nat.le_of_lt hs)]
        · rw [hrem]
          cases hb' : r'.buf with
          | none => exact absurd (hnone (by rw [← hbuf, hb'])) hp
          | some b =>
            simp only [EncReader.remaining]
            rw [List.nil_append, ← List.append_assoc, List.take_append_drop]
        · intro buf hb
          exact hr buf (by rw [← hbuf]; exact hb)
      · have hlt : space - p.length < space := by
          have := List.length_pos_iff.mpr hp
          omega
        obtain ⟨h1, h2, h3⟩ := ih (space - p.length) hlt { r' with piece := [] } hinv'
        simp only [hp, hs, dite_false]
        refine ⟨?_, ?_, h3⟩
        · rw [h1, hrem, List.take_append, List.take_of_length_le (Nat.le_of_not_lt hs)]
        · rw [hrem, h2, List.append_assoc]

/-- Reading with buffers of any sizes hands out a prefix of what the reader holds, as long as
the sizes add up to. -/
theorem readSeq_remaining : ∀ (ks : List ℕ) (r : EncReader), r.Inv →
    r.readSeq ks = r.remaining.take ks.sum
  | [], r, _ => by simp [EncReader.readSeq]
  | k :: ks, r, hr => by
    obtain ⟨h1, h2, h3⟩ := read_spec k r hr
    have hrest : (r.read k).1.remaining = r.remaining.drop k := by
      have := List.take_append_drop k r.remaining
      rw [← h1] at this
      conv at this => rhs; rw [h2]
      exact (List.append_cancel_left this).symm
    rw [EncReader.readSeq, readSeq_remaining ks _ h3, h1, hrest, List.sum_cons,
      ← List.take_add]

end Srcd.Rlp
