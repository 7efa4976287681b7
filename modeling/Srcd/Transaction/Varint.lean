import Srcd.Transaction.Encoding

/-! # The varint and varstr codecs (`core/transaction/extend`)

The writers emit `binary.PutUvarint` of a number in range, alone, before a string, or before a
list of strings; the readers take them back from the front of an `extend.Reader` and leave what
follows unread. `ReadVarstr31` slices its buffer only after checking the length, so the string
it returns is exactly the one its prefix announces, and what it leaves is a suffix of its input.
-/

namespace Srcd.Transaction
open Srcd.Library
set_option autoImplicit false

/-- What `WriteVarstr31` writes of each string of a list, one after another. -/
def varstrs (l : List (List UInt8)) : List UInt8 :=
  l.flatMap fun s => putUvarint s.length.toUInt64 ++ s

section Readers

theorem exec_liftRead_readUvarint (x : UInt64) (rest : List UInt8) :
    exec (liftRead .read readUvarint) (putUvarint x ++ rest) = (.ok x.toNat, rest) := by
  show ((readUvarint (putUvarint x ++ rest)).1.mapError TxErr.read,
    (readUvarint (putUvarint x ++ rest)).2) = _
  rw [readUvarint_putUvarint]
  rfl

theorem exec_liftRead {α ε : Type} (toErr : ε → TxErr) (f : List UInt8 → Except ε α × List UInt8)
    (s : List UInt8) : exec (liftRead toErr f) s = ((f s).1.mapError toErr, (f s).2) := rfl

/-- What `ReadVarstr31` does on any input, from what the varint reader does on it. -/
theorem exec_readVarstr31_eq (input : List UInt8) :
    exec readVarstr31 input = match readUvarint input with
      | (.error e, s) => (.error (.read e), s)
      | (.ok l, s) =>
        if l > maxInt32 then (.error .range, s)
        else if l = 0 then (.ok [], s)
        else if l > s.length then (.error (.read .unexpectedEOF), s)
        else (.ok (s.take l), s.drop l) := by
  rcases hread : readUvarint input with ⟨e | l, s⟩
  · -- the length prefix fails
    have hread' : exec (liftRead .read readUvarint) input = (.error (.read e), s) := by
      rw [exec_liftRead, hread]
      rfl
    have hprefix : exec readVarint31 input = (.error (.read e), s) := by
      simp only [readVarint31, readVarint]
      rw [exec_bind_of_error hread']
    rw [readVarstr31, exec_bind_of_error hprefix]
  have hprefix : exec (liftRead .read readUvarint) input = (.ok l, s) := by
    rw [exec_liftRead, hread]
    rfl
  dsimp only
  by_cases hrange : l > maxInt32
  · -- a length out of range
    have hlen : exec readVarint31 input = (.error .range, s) := by
      simp only [readVarint31, readVarint]
      rw [exec_bind_of_ok hprefix, if_pos hrange]
      rfl
    rw [readVarstr31, exec_bind_of_error hlen, if_pos hrange]
  have hlen : exec readVarint31 input = (.ok l, s) := by
    simp only [readVarint31, readVarint]
    rw [exec_bind_of_ok hprefix, if_neg hrange]
    rfl
  rw [readVarstr31, exec_bind_of_ok hlen, if_neg hrange]
  by_cases hzero : l = 0
  · rw [if_pos hzero, if_pos hzero]
    rfl
  rw [if_neg hzero, if_neg hzero, exec_bind_of_ok (exec_get _)]
  by_cases hlong : l > s.length
  · rw [if_pos hlong, if_pos hlong]
    rfl
  · rw [if_neg hlong, if_neg hlong, exec_bind_of_ok (exec_set _ _)]
    rfl

/-- `ReadVarstr31` checks the length before it slices: the string it returns is as long as its
prefix announces and lies right after the prefix, followed by what is left. -/
theorem readVarstr31_sound {input str rest : List UInt8}
    (h : exec readVarstr31 input = (.ok str, rest)) :
    readUvarint input = (.ok str.length, str ++ rest) := by
  rw [exec_readVarstr31_eq] at h
  rcases hread : readUvarint input with ⟨_ | l, s⟩
  · rw [hread] at h
    cases h
  rw [hread] at h
  dsimp only at h
  split_ifs at h with hrange hzero hlong
  · cases h
  · cases h
    rw [hzero]
    rfl
  · cases h
  · cases h
    rw [List.length_take_of_le (Nat.not_lt.mp hlong), List.take_append_drop]

/-- `ReadVarstr31` leaves a suffix of its input, whether it fails or not. -/
theorem readVarstr31_suffix (input : List UInt8) : (exec readVarstr31 input).2 <:+ input := by
  have hs : (readUvarint input).2 <:+ input := readUvarintFrom_suffix 0 0 input
  rw [exec_readVarstr31_eq]
  rcases hread : readUvarint input with ⟨_ | l, s⟩
  · rw [hread] at hs
    exact hs
  rw [hread] at hs
  dsimp only
  split_ifs
  · exact hs
  · exact hs
  · exact hs
  · exact (List.drop_suffix l s).trans hs

/-- A number in range reads back from its varint, whatever follows. -/
theorem exec_readVarint {bound : ℕ} (x : UInt64) (h : x.toNat ≤ bound) (rest : List UInt8) :
    exec (readVarint bound) (putUvarint x ++ rest) = (.ok x.toNat, rest) := by
  simp only [readVarint]
  rw [exec_bind_of_ok (exec_liftRead_readUvarint x rest), if_neg (Nat.not_lt.mpr h)]
  rfl

theorem toNat_toUInt64_of_le_maxInt32 {v : ℕ} (h : v ≤ maxInt32) : v.toUInt64.toNat = v := by
  simp only [Nat.toUInt64_eq]
  exact Nat.mod_eq_of_lt (by unfold maxInt32 at h; omega)

theorem exec_readVarint31 {v : ℕ} (h : v ≤ maxInt32) (rest : List UInt8) :
    exec readVarint31 (putUvarint v.toUInt64 ++ rest) = (.ok v, rest) := by
  have hread : exec (readVarint maxInt32) (putUvarint v.toUInt64 ++ rest) = _ :=
    exec_readVarint v.toUInt64 ((toNat_toUInt64_of_le_maxInt32 h).symm ▸ h) rest
  rwa [toNat_toUInt64_of_le_maxInt32 h] at hread

theorem exec_readVarstr31 {str : List UInt8} (h : str.length ≤ maxInt32) (rest : List UInt8) :
    exec readVarstr31 (putUvarint str.length.toUInt64 ++ str ++ rest) = (.ok str, rest) := by
  simp only [readVarstr31]
  rw [List.append_assoc, exec_bind_of_ok (exec_readVarint31 h (str ++ rest))]
  by_cases hzero : str.length = 0
  · rw [List.length_eq_zero_iff.mp hzero]
    rfl
  · rw [if_neg hzero, exec_bind_of_ok (exec_get _),
      if_neg (by simp only [List.length_append]; omega), exec_bind_of_ok (exec_set _ _)]
    simp

/-- The loop of `ReadVarstrList` over strings written one after another reads them all, by
induction on the strings. -/
theorem readVarstrLoop_varstrs : ∀ (l acc : List (List UInt8)) (rest : List UInt8),
    (∀ s ∈ l, s.length ≤ maxInt32) →
      (readVarstrLoop l.length acc).run (varstrs l ++ rest) = ((acc ++ l, 0, none), rest)
  | [], acc, rest, _ => by
    rw [List.append_nil]
    rfl
  | s :: l, acc, rest, hs => by
    have hfirst : (readVarstr31.run).run (varstrs (s :: l) ++ rest) = (.ok s, varstrs l ++ rest) := by
      have := exec_readVarstr31 (hs s List.mem_cons_self) (varstrs l ++ rest)
      simpa [varstrs, exec, List.append_assoc] using this
    have hrest := readVarstrLoop_varstrs l (acc ++ [s]) rest fun t ht => hs t (List.mem_cons_of_mem _ ht)
    rw [List.length_cons, readVarstrLoop, stateM_run_bind, hfirst]
    dsimp only
    rw [hrest, List.append_cons acc s l]

end Readers

section Writers

theorem writeVarint_ok {bound val : ℕ} (h : val ≤ bound) :
    writeVarint bound val = .ok (putUvarint val.toUInt64) := by
  simp [writeVarint, Nat.not_lt.mpr h]

theorem writeVarstr31_ok {str : List UInt8} (h : str.length ≤ maxInt32) :
    writeVarstr31 str = .ok (putUvarint str.length.toUInt64 ++ str) := by
  simp only [writeVarstr31, writeVarint31, writeVarint_ok h]
  rfl

theorem mapM_writeVarstr31 : ∀ l : List (List UInt8), (∀ s ∈ l, s.length ≤ maxInt32) →
    l.mapM writeVarstr31 = .ok (l.map fun s => putUvarint s.length.toUInt64 ++ s)
  | [], _ => rfl
  | s :: l, hs => by
    rw [List.mapM_cons, writeVarstr31_ok (hs s List.mem_cons_self),
      mapM_writeVarstr31 l fun t ht => hs t (List.mem_cons_of_mem _ ht)]
    rfl

theorem writeVarstrList_ok {l : List (List UInt8)} (hl : l.length ≤ maxInt32)
    (hs : ∀ s ∈ l, s.length ≤ maxInt32) :
    writeVarstrList l = .ok (putUvarint l.length.toUInt64 ++ varstrs l) := by
  simp only [writeVarstrList, writeVarint31, writeVarint_ok hl, mapM_writeVarstr31 l hs]
  simp [varstrs, List.flatMap]

end Writers

/-- `ReadVarstrList` takes back a list `WriteVarstrList` wrote, whatever follows. -/
theorem readVarstrList_varstrs {l : List (List UInt8)} (hl : l.length ≤ maxInt32)
    (hs : ∀ s ∈ l, s.length ≤ maxInt32) (rest : List UInt8) :
    readVarstrList.run (putUvarint l.length.toUInt64 ++ varstrs l ++ rest) = ((l, none), rest) := by
  have hcount : (readVarint31.run).run (putUvarint l.length.toUInt64 ++ (varstrs l ++ rest)) =
      (.ok l.length, varstrs l ++ rest) := exec_readVarint31 hl _
  rw [readVarstrList, stateM_run_bind, List.append_assoc, hcount]
  dsimp only
  by_cases hnil : l.length = 0
  · rw [List.length_eq_zero_iff.mp hnil]
    rfl
  · rw [if_neg hnil, stateM_run_bind, readVarstrLoop_varstrs l [] rest hs]
    simp only [List.nil_append, Nat.not_lt_zero, if_false]
    rfl

/-- The varint and varstr codecs invert each other: `ReadVarint63` and `ReadVarint31` take back
what `WriteVarint63` and `WriteVarint31` wrote of a number in range, and `ReadVarstrList` a list
`WriteVarstrList` wrote, each leaving exactly what follows; and `ReadVarstr31` never reads past
the end of its buffer. -/
theorem varint_varstr_codecs_invert :
    (∀ v : UInt64, v.toNat ≤ maxInt64 → ∃ bytes, writeVarint63 v = .ok bytes ∧
      ∀ rest, exec readVarint63 (bytes ++ rest) = (.ok v, rest)) ∧
    (∀ v : ℕ, v ≤ maxInt32 → ∃ bytes, writeVarint31 v = .ok bytes ∧
      ∀ rest, exec readVarint31 (bytes ++ rest) = (.ok v, rest)) ∧
    (∀ l : List (List UInt8), l.length ≤ maxInt32 → (∀ s ∈ l, s.length ≤ maxInt32) →
      ∃ bytes, writeVarstrList l = .ok bytes ∧
        ∀ rest, readVarstrList.run (bytes ++ rest) = ((l, none), rest)) ∧
    ∀ input : List UInt8, (exec readVarstr31 input).2 <:+ input ∧
      ∀ str rest, exec readVarstr31 input = (.ok str, rest) →
        readUvarint input = (.ok str.length, str ++ rest) := by
  refine ⟨fun v hv => ⟨_, writeVarint_ok hv, fun rest => ?_⟩,
    fun v hv => ⟨_, writeVarint_ok hv, exec_readVarint31 hv⟩,
    fun l hl hs => ⟨_, writeVarstrList_ok hl hs, fun rest => ?_⟩,
    fun input => ⟨readVarstr31_suffix input, fun _ _ h => readVarstr31_sound h⟩⟩
  · -- the 63-bit reader converts the number back to a `uint64`
    have hround : v.toNat.toUInt64 = v := by simp
    simp only [readVarint63]
    rw [hround, exec_bind_of_ok (exec_readVarint v hv rest), exec_pure, hround]
  · exact readVarstrList_varstrs hl hs rest

/-- Three strings, one of them empty, are written and read back. -/
theorem varint_varstr_codecs_invert_three :
    ∃ bytes, writeVarstrList [[0x61], [], [0x62, 0x63]] = .ok bytes ∧
      ∀ rest, readVarstrList.run (bytes ++ rest) = (([[0x61], [], [0x62, 0x63]], none), rest) :=
  varint_varstr_codecs_invert.2.2.1 _ (by norm_num [maxInt32]) (by simp [maxInt32])

end Srcd.Transaction
