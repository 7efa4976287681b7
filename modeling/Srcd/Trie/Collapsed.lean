import Srcd.Rlp.RawSpec
import Srcd.Trie.Canonical
import Srcd.Trie.Hasher
import Srcd.Trie.NodeCodec

/-! # Collapsed nodes decode back

`decodeNode` inverts the hasher on the nodes of canonical tries: the encoding of a collapsed
node decodes to the collapsed node (`decodeNode_encodeCollapsed`), an embedded child through a
nested call and a hashed child to its hash node. This takes three facts the code relies on: the
hash is 32 bytes long, the value in the value slot of a full node is not empty (`decodeFull`
reads an empty value as no value), and the encoding fits RLP's eight-byte sizes.
-/

namespace Srcd.Trie
open Srcd.Rlp Srcd.Rlp.Raw
set_option autoImplicit false
set_option linter.dupNamespace false

/-- Every value a node holds satisfies `P`. -/
def Node.AllValues (P : List UInt8 → Prop) : Node → Prop
  | .valueNode v => P v
  | .shortNode _ v => v.AllValues P
  | .fullNode cs => ∀ i, (cs i).AllValues P
  | _ => True

theorem Node.isInner_of_canon {n : Node} (hc : n.Canon) (hn : n ≠ .nil) : n.IsInner := by
  cases n with
  | nil => exact absurd rfl hn
  | shortNode _ _ => trivial
  | fullNode _ => trivial
  | hashNode _ => cases hc
  | valueNode _ => cases hc

theorem toItem_of_isInner {n : Node} (h : n.IsInner) : ∃ xs, n.toItem = .list xs := by
  cases n with
  | shortNode k v => exact ⟨_, rfl⟩
  | fullNode cs => exact ⟨_, rfl⟩
  | _ => cases h

/-- The items of a full node: the sixteen branches, then the value slot. -/
def fullItem (cs : Fin 17 → Node) (i : Fin 17) : Item :=
  if (cs i).isNil then .str [] else (cs i).toItem

theorem toItem_fullNode (cs : Fin 17 → Node) :
    (Node.fullNode cs).toItem =
      .list ((List.finRange 16).map (fun i => fullItem cs i.castSucc) ++ [fullItem cs 16]) := by
  rw [Node.toItem, List.finRange_succ_last, List.map_append, List.map_map]
  rfl

/-! ## Decoding references -/

theorem decodeRef_nil (fuel : ℕ) (rest : List UInt8) :
    decodeRef fuel ((Item.str []).encode ++ rest) = .ok (.nil, rest) := by
  rw [decodeRef, split_encode (.str []) (by simp [Item.payload]) rest]
  rfl

theorem decodeRef_hashNode (fuel : ℕ) {h : List UInt8} (hh : h.length = 32) (rest : List UInt8) :
    decodeRef fuel ((Item.str h).encode ++ rest) = .ok (.hashNode h, rest) := by
  have hsingle : isSingleByte h = false := by
    match h, hh with
    | _ :: _ :: _, _ => rfl
  rw [decodeRef, split_encode (.str h) (by simp [Item.payload, hh]) rest]
  simp [Item.kind, Item.payload, hsingle, hh]

/-- An embedded node: a list shorter than a hash, decoded by a nested call. -/
theorem decodeRef_embedded {fuel : ℕ} {xs : List Item} (hsize : (Item.list xs).encode.length ≤ 32)
    {rest : List UInt8} {n : Node} (hdec : decodeNode fuel ((Item.list xs).encode ++ rest) = .ok n) :
    decodeRef (fuel + 1) ((Item.list xs).encode ++ rest) = .ok (n, rest) := by
  have hfit : (Item.list xs).payload.length < 256 ^ 8 := by
    have := length_payload_le (.list xs)
    omega
  rw [decodeRef, split_encode (.list xs) hfit rest]
  simp only [Item.kind, if_true, List.length_append, Nat.add_sub_cancel]
  rw [if_neg (by unfold hashLen; omega)]
  simp only [hdec]
  rfl

theorem decodeRefs_map {ι : Type} (fuel : ℕ) (item : ι → Item) (node : ι → Node) (l : List ι)
    (h : ∀ j ∈ l, ∀ rest, decodeRef fuel ((item j).encode ++ rest) = .ok (node j, rest))
    (i : ℕ) (rest : List UInt8) :
    decodeRefs fuel i (Item.encodeList (l.map item) ++ rest) l.length = .ok (l.map node, rest) := by
  induction l generalizing i with
  | nil =>
    rw [List.length_nil, decodeRefs]
    rfl
  | cons j l ih =>
    rw [List.map_cons, encodeList_cons, List.append_assoc, List.length_cons, decodeRefs,
      h j List.mem_cons_self]
    simp only [ih (fun j hj => h j (List.mem_cons_of_mem _ hj)) (i + 1)]
    rfl

/-! ## Decoding lists -/

theorem decodeNode_list (fuel : ℕ) (xs : List Item) (hxs : (Item.encodeList xs).length < 256 ^ 8)
    (rest : List UInt8) :
    decodeNode fuel ((Item.list xs).encode ++ rest) =
      match xs.length with
      | 2 => (decodeShort fuel (Item.encodeList xs)).mapError (wrapError · "short")
      | 17 => (decodeFull fuel (Item.encodeList xs)).mapError (wrapError · "full")
      | c => .error (.invalidCount c) := by
  have hne : ((Item.list xs).encode ++ rest).length ≠ 0 := by
    have := length_encode_pos (.list xs)
    simp only [List.length_append]
    omega
  rw [decodeNode, if_neg hne, splitList_encode_list xs hxs rest]
  simp only [countValues_encodeList xs hxs]
  rfl

theorem encode_lt_of_mem {x : Item} {xs : List Item} (hx : x ∈ xs) :
    x.encode.length < (Item.list xs).encode.length := by
  have hle := length_encode_le_encodeList hx
  have hhdr : 0 < (header 0xC0 0xF7 (Item.encodeList xs).length).length :=
    List.length_pos_iff.mpr (header_ne_nil _ _ _)
  rw [encode_list, List.length_append]
  omega

theorem payload_lt_of_mem {x : Item} {xs : List Item} (hx : x ∈ xs)
    (h : (Item.list xs).encode.length < 256 ^ 8) : x.payload.length < 256 ^ 8 := by
  have := length_payload_le x
  have := encode_lt_of_mem hx
  omega

section
variable (keccak : List UInt8 → List UInt8)

/-- The reference to an inner node decodes back, given that the node's collapsed encoding
does. -/
theorem decodeRef_hash {v : Node} (hv : v.IsInner) (hlen : ∀ x, (keccak x).length = 32)
    {fuel : ℕ} (hfuel : (hash keccak v false).toItem.encode.length < fuel)
    (ih : (encodeCollapsed keccak v).length < 32 → ∀ fuel rest,
      (encodeCollapsed keccak v).length ≤ fuel →
        decodeNode fuel (encodeCollapsed keccak v ++ rest) = .ok (hashChildren keccak v))
    (rest : List UInt8) :
    decodeRef fuel ((hash keccak v false).toItem.encode ++ rest) =
      .ok (hash keccak v false, rest) := by
  rw [hash_of_isInner keccak hv] at hfuel ⊢
  split
  · -- embedded: the collapsed node itself
    next hsmall =>
    rw [if_pos hsmall] at hfuel
    obtain ⟨xs, hxs⟩ := toItem_of_isInner (hashChildren_isInner keccak hv)
    obtain ⟨f, rfl⟩ : ∃ f, fuel = f + 1 := ⟨fuel - 1, by omega⟩
    have henc : (Item.list xs).encode = encodeCollapsed keccak v := by rw [encodeCollapsed, hxs]
    rw [hxs]
    refine decodeRef_embedded (by rw [henc]; omega) ?_
    have hf : (encodeCollapsed keccak v).length < f + 1 := hfuel
    rw [henc]
    exact ih hsmall f rest (by omega)
  · exact decodeRef_hashNode fuel (hlen _) rest

theorem hash_ne_nil {v : Node} (hv : v.IsInner) : hash keccak v false ≠ .nil := by
  rw [hash_of_isInner keccak hv]
  split
  · intro h
    have := hashChildren_isInner keccak hv
    rw [h] at this
    exact this
  · exact Node.noConfusion

/-- `decodeFull` puts the sixteen references and the value back in their slots. -/
theorem fullChildren_map (cs : Fin 17 → Node) (val : List UInt8)
    (h16 : cs 16 = if val.length > 0 then .valueNode val else .nil) :
    fullChildren ((List.finRange 16).map fun i => cs i.castSucc) val = cs := by
  funext i
  unfold fullChildren
  split_ifs with hi
  · have hlt : i.val < (List.finRange 16).length := by simpa using hi
    rw [List.getD_eq_getElem?_getD, List.getElem?_map, List.getElem?_eq_getElem hlt,
      List.getElem_finRange, Option.map_some, Option.getD_some]
    congr 1
  · obtain rfl : i = 16 := Fin.ext (by have := i.isLt; simp at hi ⊢; omega)
    rw [h16, if_pos (by assumption)]
  · obtain rfl : i = 16 := Fin.ext (by have := i.isLt; simp at hi ⊢; omega)
    rw [h16, if_neg (by assumption)]

/-- The references of a full node decode back, branch by branch. -/
theorem decodeRef_fullItem {cs cs' : Fin 17 → Node} (hlen : ∀ x, (keccak x).length = 32)
    (hcs' : ∀ i, cs' i = if i.val < 16 ∧ (cs i).isNil = false then hash keccak (cs i) false
      else cs i)
    (hc : ∀ i, i ≠ 16 → (cs i).Canon) (i : Fin 17) (hi : i.val < 16) {fuel : ℕ}
    (hfuel : (fullItem cs' i).encode.length < fuel)
    (ih : cs i ≠ .nil → (cs i).AllValues (· ≠ []) → (encodeCollapsed keccak (cs i)).length < 32 →
      ∀ fuel rest, (encodeCollapsed keccak (cs i)).length ≤ fuel →
        decodeNode fuel (encodeCollapsed keccak (cs i) ++ rest) = .ok (hashChildren keccak (cs i)))
    (hval : (cs i).AllValues (· ≠ [])) (rest : List UInt8) :
    decodeRef fuel ((fullItem cs' i).encode ++ rest) = .ok (cs' i, rest) := by
  by_cases hnil : cs i = .nil
  · have hnil' : cs' i = .nil := by simp [hcs' i, hnil]
    simp only [fullItem, hnil', Node.isNil, if_true] at hfuel ⊢
    exact decodeRef_nil fuel rest
  · have hinner := Node.isInner_of_canon (hc i (fun h => by rw [h] at hi; simp at hi)) hnil
    have hcond : i.val < 16 ∧ (cs i).isNil = false := ⟨hi, (Node.isNil_eq_false_iff _).mpr hnil⟩
    have href : cs' i = hash keccak (cs i) false := by rw [hcs' i, if_pos hcond]
    have hne := hash_ne_nil keccak hinner
    simp only [fullItem, href, (Node.isNil_eq_false_iff _).mpr hne, Bool.false_eq_true,
      if_false] at hfuel ⊢
    exact decodeRef_hash keccak hinner hlen hfuel (ih hnil hval) rest

/-- The encoding of a collapsed canonical node decodes to the collapsed node. -/
theorem decodeNode_encodeCollapsed (hlen : ∀ x, (keccak x).length = 32) {n : Node}
    (hc : n.Canon) (hn : n ≠ .nil) (hval : n.AllValues (· ≠ []))
    (hfit : (encodeCollapsed keccak n).length < 256 ^ 8) :
    ∀ fuel rest, (encodeCollapsed keccak n).length ≤ fuel →
      decodeNode fuel (encodeCollapsed keccak n ++ rest) = .ok (hashChildren keccak n) := by
  induction n with
  | nil => exact absurd rfl hn
  | hashNode _ => cases hc
  | valueNode _ => cases hc
  | shortNode k v ih =>
    intro fuel rest hfuel
    obtain ⟨hk, ⟨hterm, w, rfl⟩ | ⟨hfree, hfull, hvc⟩⟩ := hc
    · -- a leaf: the key is terminated and the value is written in place
      have hdrop : ∀ x ∈ k.dropLast, x ≠ 16 := by
        obtain ⟨p, rfl, hp⟩ := hterm
        simpa using hp
      have hhas : hasTerm k = true := (hasTerm_iff k).mpr (by obtain ⟨p, h, -⟩ := hterm; exact ⟨p, h⟩)
      have hitems : encodeCollapsed keccak (.shortNode k (.valueNode w)) =
          (Item.list [.str (hexToCompact k), .str w]).encode := rfl
      rw [hitems] at hfit ⊢
      rw [decodeNode_list fuel _ (by rw [encode_list, List.length_append] at hfit; omega)]
      simp only [List.length_cons, List.length_nil, encodeList_cons, encodeList_nil]
      rw [decodeShort, splitString_encode_str (hexToCompact k)
        (payload_lt_of_mem (x := .str (hexToCompact k)) (by simp) hfit)]
      simp only [compactToHex_hexToCompact k hdrop, if_pos hhas,
        splitString_encode_str w (payload_lt_of_mem (x := .str w) (by simp) hfit) []]
      rfl
    · -- an extension: the key is free of the terminator and the child is referenced
      have hvi : v.IsInner := by cases v <;> simp_all [Node.isFull, Node.IsInner]
      have hhas : hasTerm k = false := by
        rw [Bool.eq_false_iff]
        intro h
        obtain ⟨p, rfl⟩ := (hasTerm_iff k).mp h
        exact hfree 16 (by simp) rfl
      have hdrop : ∀ x ∈ k.dropLast, x ≠ 16 := fun x hx => hfree x (List.dropLast_subset _ hx)
      have hitems : encodeCollapsed keccak (.shortNode k v) =
          (Item.list [.str (hexToCompact k), (hash keccak v false).toItem]).encode := by
        rw [encodeCollapsed, hashChildren_shortNode_inner keccak k hvi]
        rfl
      have hvn : v ≠ .nil := by rintro rfl; cases hvi
      rw [hitems] at hfit hfuel ⊢
      have href := decodeRef_hash keccak hvi hlen
        (lt_of_lt_of_le (encode_lt_of_mem (by simp)) hfuel)
        (fun hsmall => ih hvc hvn hval (by omega)) []
      rw [decodeNode_list fuel _ (by rw [encode_list, List.length_append] at hfit; omega)]
      simp only [List.length_cons, List.length_nil, encodeList_cons, encodeList_nil]
      rw [decodeShort, splitString_encode_str (hexToCompact k)
        (payload_lt_of_mem (x := .str (hexToCompact k)) (by simp) hfit)]
      simp only [compactToHex_hexToCompact k hdrop, hhas, Bool.false_eq_true, if_false, href,
        hashChildren_shortNode_inner keccak k hvi]
      rfl
  | fullNode cs ih =>
    intro fuel rest hfuel
    obtain ⟨hcs, hleaf, -⟩ := hc
    have hvals : ∀ i, (cs i).AllValues (· ≠ []) := hval
    obtain ⟨cs', hcs'⟩ : ∃ cs' : Fin 17 → Node, ∀ i, cs' i =
        if i.val < 16 ∧ (cs i).isNil = false then hash keccak (cs i) false else cs i :=
      ⟨_, fun _ => rfl⟩
    have hcol : hashChildren keccak (.fullNode cs) = .fullNode cs' := by
      rw [show cs' = _ from funext hcs']
      rfl
    have hitems : encodeCollapsed keccak (.fullNode cs) =
        (Item.list ((List.finRange 16).map (fun i => fullItem cs' i.castSucc) ++
          [fullItem cs' 16])).encode := by
      rw [encodeCollapsed, hcol, toItem_fullNode]
    rw [hitems] at hfit hfuel ⊢
    have hmem : ∀ j : Fin 16, fullItem cs' j.castSucc ∈
        (List.finRange 16).map (fun i => fullItem cs' i.castSucc) ++ [fullItem cs' 16] :=
      fun j => List.mem_append_left _ (List.mem_map.mpr ⟨j, List.mem_finRange j, rfl⟩)
    have hne16 : ∀ j : Fin 16, j.castSucc ≠ (16 : Fin 17) := fun j => by
      simp [Fin.ext_iff]
      omega
    have hrefs := decodeRefs_map fuel (fun i => fullItem cs' i.castSucc) (fun i => cs' i.castSucc)
      (List.finRange 16) (fun j _ rest => decodeRef_fullItem keccak hlen hcs' hcs j.castSucc
        j.isLt (lt_of_lt_of_le (encode_lt_of_mem (hmem j)) hfuel)
        (fun hne hv hsmall => ih _ (hcs _ (hne16 j)) hne hv (by omega)) (hvals _) rest) 0
      (Item.encodeList [fullItem cs' 16])
    rw [List.length_finRange] at hrefs
    have hlast : ∃ val, splitString ((fullItem cs' 16).encode ++ []) = .ok (val, []) ∧
        cs' 16 = if val.length > 0 then .valueNode val else .nil := by
      have h16 : cs' 16 = cs 16 := by rw [hcs' 16, if_neg (by simp)]
      have hfit16 := payload_lt_of_mem (List.mem_append_right _ (List.mem_singleton_self _)) hfit
      unfold fullItem at hfit16 ⊢
      rw [h16] at hfit16 ⊢
      have hv16 := hvals 16
      cases hc16 : cs 16 with
      | nil => exact ⟨[], splitString_encode_str [] (by simp) [], by simp⟩
      | valueNode w =>
        rw [hc16] at hv16 hfit16
        have hw : w ≠ [] := hv16
        refine ⟨w, splitString_encode_str w hfit16 [], ?_⟩
        rw [if_pos (List.length_pos_iff.mpr hw)]
      | shortNode _ _ | fullNode _ | hashNode _ => rw [hc16] at hleaf; cases hleaf
    obtain ⟨val, hsplit, hval16⟩ := hlast
    rw [decodeNode_list fuel _ (by rw [encode_list, List.length_append] at hfit; omega)]
    simp only [List.length_append, List.length_map, List.length_finRange, List.length_singleton,
      Nat.reduceAdd, encodeList_append]
    rw [decodeFull, hrefs]
    simp only [encodeList_cons, encodeList_nil, hsplit, fullChildren_map cs' val hval16, hcol]
    rfl

end

end Srcd.Trie
