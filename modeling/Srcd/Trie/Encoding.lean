import Mathlib

/-! # Trie keys (`trie/encoding.go`)

Keys come in three encodings: key bytes, hex keys (one nibble per element, with the
terminator `16` at the end of a key that has a value), and the compact encoding stored in
short nodes. Every hex key the code builds holds values `0`–`16`, so nibbles are `Fin 17`.
Go panics on an odd hex key in `hexToKeybytes` and on the empty compact key in
`compactToHex`; both return `none` there.

`compactToHex_hexToCompact` and `hexToKeybytes_keybytesToHex` are the round trips the trie
relies on; `prefixLen_spec` says what the prefix loop computes.
-/

namespace Srcd.Trie
set_option autoImplicit false

/-- A nibble of a hex key: `0`–`15`, or the terminator `16`. -/
abbrev Nibble := Fin 17

/-- Nibble literals such as the terminator `16` take this instance: one constant, so that the
literal is the same term wherever it is written. -/
instance instNeZeroNibbleCount : NeZero (17 : ℕ) := ⟨by decide⟩

/-- `hasTerm`: the key ends with the terminator. -/
def hasTerm (s : List Nibble) : Bool := s.getLast? == some 16

/-- The nibbles of a byte, high first. -/
def byteNibbles (b : UInt8) : List Nibble :=
  [⟨b.toNat / 16, by have : b.toNat < 256 := b.toNat_lt; omega⟩, ⟨b.toNat % 16, by omega⟩]

/-- `keybytesToHex`: two nibbles per byte, then the terminator. -/
def keybytesToHex (str : List UInt8) : List Nibble := str.flatMap byteNibbles ++ [16]

/-- `decodeNibbles`: each pair of nibbles into a byte, `nibbles[ni]<<4 | nibbles[ni+1]`. -/
def decodeNibbles : List Nibble → List UInt8
  | a :: b :: rest => ((UInt8.ofNat a.val <<< 4) ||| UInt8.ofNat b.val) :: decodeNibbles rest
  | _ => []

/-- `hexToKeybytes`; `none` where Go panics on a key of odd length. -/
def hexToKeybytes (hex : List Nibble) : Option (List UInt8) :=
  let hex := if hasTerm hex then hex.dropLast else hex
  if hex.length % 2 ≠ 0 then none else some (decodeNibbles hex)

/-- `hexToCompact`: a flag byte (terminator flag `2`, odd flag `1`, and the first nibble of an
odd key), then the remaining nibbles packed in pairs. -/
def hexToCompact (hex : List Nibble) : List UInt8 :=
  let (terminator, hex) : UInt8 × List Nibble :=
    if hasTerm hex then (1, hex.dropLast) else (0, hex)
  if hex.length % 2 = 1 then
    -- odd flag; first nibble is contained in the first byte
    ((terminator <<< 5) ||| ((1 : UInt8) <<< 4) ||| UInt8.ofNat (hex.headD 0).val) :: decodeNibbles hex.tail
  else (terminator <<< 5) :: decodeNibbles hex

/-- `compactToHex`; `none` where Go panics: the empty compact key gives the base `[16]`, and
`base[2:]` is out of range. -/
def compactToHex (compact : List UInt8) : Option (List Nibble) :=
  let base := keybytesToHex compact
  match base with
  | [] => none
  | flag :: _ =>
    -- delete terminator flag
    let base := if flag < 2 then base.dropLast else base
    -- apply odd flag
    let chop := 2 - flag.val % 2
    if chop ≤ base.length then some (base.drop chop) else none

/-- `prefixLen`: the length of the common prefix of two keys. -/
def prefixLen : List Nibble → List Nibble → ℕ
  | x :: xs, y :: ys => if x = y then prefixLen xs ys + 1 else 0
  | _, _ => 0

/-- A key of the trie: nibbles below `16`, then the terminator. -/
def Terminated (k : List Nibble) : Prop := ∃ p, k = p ++ [16] ∧ ∀ x ∈ p, x ≠ 16

/-! ## Prefixes -/

theorem prefixLen_le_left (a b : List Nibble) : prefixLen a b ≤ a.length := by
  induction a generalizing b with
  | nil => simp [prefixLen]
  | cons x xs ih =>
    cases b with
    | nil => simp [prefixLen]
    | cons y ys =>
      simp only [prefixLen, List.length_cons]
      split
      · have := ih ys
        omega
      · omega

theorem prefixLen_comm (a b : List Nibble) : prefixLen a b = prefixLen b a := by
  induction a generalizing b with
  | nil => cases b <;> simp [prefixLen]
  | cons x xs ih =>
    cases b with
    | nil => simp [prefixLen]
    | cons y ys =>
      simp only [prefixLen, ih ys]
      by_cases h : x = y
      · simp [h]
      · simp [h, Ne.symm h]

theorem prefixLen_le_right (a b : List Nibble) : prefixLen a b ≤ b.length := by
  rw [prefixLen_comm]
  exact prefixLen_le_left b a

/-- The two keys agree up to `prefixLen`, and differ right after it where both go on. -/
theorem prefixLen_spec (a b : List Nibble) :
    a.take (prefixLen a b) = b.take (prefixLen a b) ∧
      ∀ x y, a[prefixLen a b]? = some x → b[prefixLen a b]? = some y → x ≠ y := by
  induction a generalizing b with
  | nil => simp [prefixLen]
  | cons x xs ih =>
    cases b with
    | nil => simp [prefixLen]
    | cons y ys =>
      simp only [prefixLen]
      by_cases h : x = y
      · subst h
        simpa using ih ys
      · simp [h]

theorem prefixLen_eq_length_iff (a b : List Nibble) : prefixLen a b = a.length ↔ a <+: b := by
  induction a generalizing b with
  | nil => simp [prefixLen]
  | cons x xs ih =>
    cases b with
    | nil => simp [prefixLen]
    | cons y ys =>
      simp only [prefixLen, List.length_cons, List.cons_prefix_cons]
      by_cases h : x = y
      · simp [h, ih ys]
      · simp [h]

/-! ## Terminated keys -/

theorem hasTerm_iff (s : List Nibble) : hasTerm s = true ↔ ∃ p, s = p ++ [16] := by
  unfold hasTerm
  constructor
  · intro h
    have hlast : s.getLast? = some 16 := by simpa using h
    exact ⟨s.dropLast, (List.dropLast_append_getLast? 16 hlast).symm⟩
  · rintro ⟨p, rfl⟩
    simp

theorem byteNibbles_ne_terminator (b : UInt8) : ∀ x ∈ byteNibbles b, x ≠ 16 := by
  intro x hx
  simp only [byteNibbles, List.mem_cons, List.not_mem_nil, or_false] at hx
  have hb : b.toNat < 256 := b.toNat_lt
  rcases hx with rfl | rfl
  · intro h
    have := congrArg Fin.val h
    simp at this
    omega
  · intro h
    have := congrArg Fin.val h
    simp at this
    omega

theorem keybytesToHex_terminated (str : List UInt8) : Terminated (keybytesToHex str) := by
  refine ⟨str.flatMap byteNibbles, rfl, ?_⟩
  intro x hx
  obtain ⟨b, -, hb⟩ := List.mem_flatMap.mp hx
  exact byteNibbles_ne_terminator b x hb

@[simp] theorem hasTerm_append_terminator (p : List Nibble) : hasTerm (p ++ [16]) = true :=
  (hasTerm_iff _).mpr ⟨_, rfl⟩

theorem hasTerm_keybytesToHex (str : List UInt8) : hasTerm (keybytesToHex str) = true :=
  hasTerm_append_terminator _

theorem terminated_ne_nil {k : List Nibble} (h : Terminated k) : k ≠ [] := by
  obtain ⟨p, rfl, -⟩ := h
  simp

/-- A terminated key has the terminator only at its end. -/
theorem prefix_eq_of_mem_terminator {k p : List Nibble} (hk : Terminated k) (hp : p <+: k)
    (hterm : 16 ∈ p) : p = k := by
  obtain ⟨q, rfl, hq⟩ := hk
  rcases List.prefix_concat_iff.mp hp with h | h
  · exact h
  · exact absurd rfl (hq 16 (h.subset hterm))

/-! ## Round trips -/

theorem byteNibbles_pack : ∀ a b : Nibble, a ≠ 16 → b ≠ 16 →
    byteNibbles ((UInt8.ofNat a.val <<< 4) ||| UInt8.ofNat b.val) = [a, b] := by
  decide

/-- The flag byte of an odd key: flag nibble `2 * terminator + 1`, then the first nibble. -/
theorem byteNibbles_oddFlag : ∀ (t : Bool) (a : Nibble), a ≠ 16 →
    byteNibbles (((if t then 1 else 0 : UInt8) <<< 5) ||| ((1 : UInt8) <<< 4) ||| UInt8.ofNat a.val) =
      [if t then 3 else 1, a] := by
  decide

/-- The flag byte of an even key: flag nibble `2 * terminator`, then a zero nibble. -/
theorem byteNibbles_evenFlag : ∀ t : Bool,
    byteNibbles ((if t then 1 else 0 : UInt8) <<< 5) = [if t then 2 else 0, 0] := by
  decide

theorem flatMap_decodeNibbles : ∀ (hex : List Nibble), (∀ x ∈ hex, x ≠ 16) →
    hex.length % 2 = 0 → (decodeNibbles hex).flatMap byteNibbles = hex
  | [], _, _ => rfl
  | [_], _, h => by simp at h
  | a :: b :: rest, hn, hl => by
    have hrest : (decodeNibbles rest).flatMap byteNibbles = rest :=
      flatMap_decodeNibbles rest (fun x hx => hn x (by simp [hx]))
        (by simp only [List.length_cons] at hl; omega)
    simp only [decodeNibbles, List.flatMap_cons, hrest,
      byteNibbles_pack a b (hn a (by simp)) (hn b (by simp))]
    rfl

set_option maxRecDepth 4000 in
theorem pack_byteNibbles (b : UInt8) :
    (UInt8.ofNat (b.toNat / 16) <<< 4) ||| UInt8.ofNat (b.toNat % 16) = b := by
  have hall : ∀ n : Fin 256,
      (UInt8.ofNat (n.val / 16) <<< 4) ||| UInt8.ofNat (n.val % 16) = UInt8.ofNat n.val := by
    decide
  have := hall ⟨b.toNat, b.toNat_lt⟩
  simpa using this

theorem decodeNibbles_flatMap (str : List UInt8) :
    decodeNibbles (str.flatMap byteNibbles) = str := by
  induction str with
  | nil => rfl
  | cons b str ih =>
    simp only [List.flatMap_cons, byteNibbles, List.cons_append, List.nil_append, decodeNibbles,
      ih, pack_byteNibbles]

theorem hexToKeybytes_keybytesToHex (str : List UInt8) :
    hexToKeybytes (keybytesToHex str) = some str := by
  have hlen : (str.flatMap byteNibbles).length = 2 * str.length := by
    induction str with
    | nil => rfl
    | cons b str ih =>
      simp only [List.flatMap_cons, List.length_append, ih, byteNibbles, List.length_cons,
        List.length_nil]
      omega
  simp [hexToKeybytes, keybytesToHex, hlen, decodeNibbles_flatMap]

/-- Distinct byte keys have distinct hex keys. -/
theorem keybytesToHex_injective : Function.Injective keybytesToHex := fun a b h => by
  have ha := hexToKeybytes_keybytesToHex a
  rw [h, hexToKeybytes_keybytesToHex] at ha
  exact (Option.some.inj ha).symm

theorem dropLast_cons_concat (x y : Nibble) (l : List Nibble) :
    (x :: (l ++ [y])).dropLast = x :: l := by
  rw [← List.cons_append, List.dropLast_concat]

/-- The body of a key packs and unpacks through the compact encoding, with the terminator flag
`t`. -/
theorem compactToHex_pack (body : List Nibble) (t : Bool) (hbody : ∀ x ∈ body, x ≠ 16) :
    compactToHex (if body.length % 2 = 1 then
        (((if t then 1 else 0 : UInt8) <<< 5) ||| ((1 : UInt8) <<< 4) |||
          UInt8.ofNat (body.headD 0).val) :: decodeNibbles body.tail
      else ((if t then 1 else 0 : UInt8) <<< 5) :: decodeNibbles body) =
      some (if t then body ++ [16] else body) := by
  rcases Nat.mod_two_eq_zero_or_one body.length with heven | hodd
  · -- even: the flag byte holds only the flags
    have hnib : (decodeNibbles body).flatMap byteNibbles = body :=
      flatMap_decodeNibbles body hbody heven
    rw [if_neg (by omega)]
    unfold compactToHex keybytesToHex
    rw [List.flatMap_cons, byteNibbles_evenFlag, hnib]
    cases t <;> simp +decide [dropLast_cons_concat]
  · -- odd: the first nibble goes into the flag byte
    obtain ⟨a, rest, rfl⟩ : ∃ a rest, body = a :: rest := by
      cases body with
      | nil => simp at hodd
      | cons a rest => exact ⟨a, rest, rfl⟩
    have ha : a ≠ 16 := hbody a (by simp)
    have hnib : (decodeNibbles rest).flatMap byteNibbles = rest :=
      flatMap_decodeNibbles rest (fun x hx => hbody x (by simp [hx]))
        (by simp only [List.length_cons] at hodd; omega)
    rw [if_pos hodd]
    unfold compactToHex keybytesToHex
    rw [List.headD_cons, List.tail_cons, List.flatMap_cons, byteNibbles_oddFlag t a ha, hnib]
    have h3 : ((3 : Nibble) : ℕ) = 3 := rfl
    cases t <;> simp +decide [dropLast_cons_concat, h3]

theorem compactToHex_hexToCompact (hex : List Nibble) (h : ∀ x ∈ hex.dropLast, x ≠ 16) :
    compactToHex (hexToCompact hex) = some hex := by
  by_cases hterm : hasTerm hex
  · obtain ⟨p, rfl⟩ := (hasTerm_iff hex).mp hterm
    have hp : ∀ x ∈ p, x ≠ 16 := by simpa using h
    have hc := compactToHex_pack p true hp
    unfold hexToCompact
    rw [if_pos hterm, List.dropLast_concat]
    simpa using hc
  · have hall : ∀ x ∈ hex, x ≠ 16 := by
      intro x hx hx16
      subst hx16
      rcases List.mem_iff_append.mp hx with ⟨s, t, rfl⟩
      rcases List.eq_nil_or_concat t with rfl | ⟨t, y, rfl⟩
      · exact hterm ((hasTerm_iff _).mpr ⟨s, rfl⟩)
      · exact h 16 (by simp [dropLast_cons_concat]) rfl
    have hc := compactToHex_pack hex false hall
    unfold hexToCompact
    rw [if_neg hterm]
    simpa using hc

/-- The key encodings invert each other: key bytes through hex keys, and every hex key of
nibbles below `16`, with or without the terminator, through the compact encoding. -/
theorem trie_key_encodings_invert :
    (∀ k : List UInt8, hexToKeybytes (keybytesToHex k) = some k) ∧
    ∀ (p : List Nibble) (term : Bool), (∀ x ∈ p, x.val < 16) →
      compactToHex (hexToCompact (if term then p ++ [16] else p)) =
        some (if term then p ++ [16] else p) := by
  refine ⟨hexToKeybytes_keybytesToHex, fun p term hp => compactToHex_hexToCompact _ ?_⟩
  have hne : ∀ x ∈ p, x ≠ 16 := fun x hx h16 => by
    have := hp x hx
    rw [h16] at this
    exact absurd this (by decide)
  cases term with
  | true => simpa using hne
  | false => exact fun x hx => hne x (List.mem_of_mem_dropLast hx)

/-- An odd-length terminated path goes through the compact encoding and back. -/
theorem trie_key_encodings_invert_odd :
    compactToHex (hexToCompact [1, 2, 3, 16]) = some [1, 2, 3, 16] :=
  trie_key_encodings_invert.2 [1, 2, 3] true (by decide)

end Srcd.Trie
