import Mathlib

/-! # Minimal big-endian byte strings

`bigEndian n` is the shortest big-endian byte string of `n` (no leading zero byte, empty for
`0`), read back by `ofBigEndian`. It is `Nat.digits 256` reversed, so Mathlib's digit lemmas
give its length and its bounds. The codecs of this development write sizes and integers in
this form; here are the facts they use: the one-byte unfolding `bigEndian_of_pos`, the inverse
`ofBigEndian_bigEndian`, the leading byte `bigEndian_head_ne_zero` and the length bound
`length_bigEndian_le_iff`.
-/

namespace Srcd.Library
set_option autoImplicit false

/-- The minimal big-endian bytes of `n`. -/
def bigEndian (n : ℕ) : List UInt8 := ((Nat.digits 256 n).map UInt8.ofNat).reverse

/-- The number a big-endian byte string denotes. -/
def ofBigEndian (bs : List UInt8) : ℕ := bs.foldl (fun acc b => acc * 256 + b.toNat) 0

@[simp] theorem bigEndian_zero : bigEndian 0 = [] := by simp [bigEndian]

theorem length_bigEndian (n : ℕ) : (bigEndian n).length = (Nat.digits 256 n).length := by
  simp [bigEndian]

theorem bigEndian_of_pos {n : ℕ} (h : 0 < n) :
    bigEndian n = bigEndian (n / 256) ++ [UInt8.ofNat (n % 256)] := by
  rw [bigEndian, Nat.digits_def' (by norm_num) h, List.map_cons, List.reverse_cons, ← bigEndian]

theorem bigEndian_of_lt {n : ℕ} (h0 : 0 < n) (h : n < 256) : bigEndian n = [UInt8.ofNat n] := by
  rw [bigEndian_of_pos h0, Nat.div_eq_of_lt h, Nat.mod_eq_of_lt h, bigEndian_zero, List.nil_append]

theorem bigEndian_ne_nil {n : ℕ} (h : 0 < n) : bigEndian n ≠ [] := by
  rw [bigEndian_of_pos h]
  simp

theorem length_bigEndian_le_iff (n k : ℕ) : (bigEndian n).length ≤ k ↔ n < 256 ^ k := by
  rw [length_bigEndian]
  exact Nat.digits_length_le_iff (by norm_num) n

theorem length_bigEndian_pos {n : ℕ} (h : 0 < n) : 0 < (bigEndian n).length :=
  List.length_pos_iff.mpr (bigEndian_ne_nil h)

@[simp] theorem ofBigEndian_nil : ofBigEndian [] = 0 := rfl

theorem ofBigEndian_append_singleton (bs : List UInt8) (b : UInt8) :
    ofBigEndian (bs ++ [b]) = ofBigEndian bs * 256 + b.toNat := by
  simp [ofBigEndian, List.foldl_append]

theorem ofBigEndian_bigEndian (n : ℕ) : ofBigEndian (bigEndian n) = n := by
  induction n using Nat.strong_induction_on with
  | _ n ih =>
    rcases Nat.eq_zero_or_pos n with rfl | hpos
    · rfl
    · have hlt : n / 256 < n := Nat.div_lt_self hpos (by norm_num)
      have hbyte : (UInt8.ofNat (n % 256)).toNat = n % 256 := by simp
      rw [bigEndian_of_pos hpos, ofBigEndian_append_singleton, ih _ hlt, hbyte]
      omega

/-- The leading byte of a minimal big-endian string is never zero. -/
theorem bigEndian_head_ne_zero {n : ℕ} {b : UInt8} {rest : List UInt8}
    (h : bigEndian n = b :: rest) : b ≠ 0 := by
  induction n using Nat.strong_induction_on generalizing rest with
  | _ n ih =>
    rcases Nat.eq_zero_or_pos n with rfl | hpos
    · simp at h
    · by_cases hsmall : n < 256
      · rw [bigEndian_of_lt hpos hsmall] at h
        obtain ⟨rfl, -⟩ := List.cons.inj h.symm
        intro hb
        have hval : (UInt8.ofNat n).toNat = n := by simp [Nat.mod_eq_of_lt hsmall]
        rw [hb] at hval
        simp at hval
        omega
      · have hq : 0 < n / 256 := Nat.div_pos (by omega) (by norm_num)
        rw [bigEndian_of_pos hpos] at h
        obtain ⟨b', rest', hq'⟩ := List.exists_cons_of_ne_nil (bigEndian_ne_nil hq)
        rw [hq', List.cons_append] at h
        obtain ⟨rfl, -⟩ := List.cons.inj h
        exact ih _ (Nat.div_lt_self hpos (by norm_num)) hq'

/-! ## Fixed-width byte strings -/

/-- The `k` low-order bytes of `n`, most significant first (byte `j` is `n >>> 8 * j`). -/
def lowBytes (k n : ℕ) : List UInt8 := (List.range k).reverse.map fun j => UInt8.ofNat (n >>> (8 * j))

theorem lowBytes_succ (k n : ℕ) :
    lowBytes (k + 1) n = lowBytes k (n / 256) ++ [UInt8.ofNat (n % 256)] := by
  have hshift : ∀ j, n >>> (8 * (j + 1)) = (n / 256) >>> (8 * j) := by
    intro j
    rw [Nat.shiftRight_eq_div_pow, Nat.shiftRight_eq_div_pow, Nat.div_div_eq_div_mul,
      Nat.mul_succ, Nat.pow_add, Nat.mul_comm]
  have hlow : UInt8.ofNat n = UInt8.ofNat (n % 256) := UInt8.ofNat_mod_size.symm
  simp [lowBytes, List.range_succ_eq_map, List.map_reverse, hshift, hlow]

/-- A number of exactly `k + 1` significant bytes is its `k + 1` low-order bytes. -/
theorem bigEndian_eq_lowBytes (k : ℕ) {n : ℕ} (hlo : 256 ^ k ≤ n) (hhi : n < 256 ^ (k + 1)) :
    bigEndian n = lowBytes (k + 1) n := by
  induction k generalizing n with
  | zero =>
    rw [bigEndian_of_lt (by simp at hlo; omega) (by simpa using hhi)]
    simp [lowBytes]
  | succ k ih =>
    have hpos : 0 < n := Nat.lt_of_lt_of_le (Nat.pow_pos (by norm_num)) hlo
    have hlo' : 256 ^ k ≤ n / 256 := by
      rw [Nat.le_div_iff_mul_le (by norm_num), ← Nat.pow_succ]
      exact hlo
    have hhi' : n / 256 < 256 ^ (k + 1) := by
      rw [Nat.div_lt_iff_lt_mul (by norm_num), ← Nat.pow_succ]
      exact hhi
    rw [bigEndian_of_pos hpos, ih hlo' hhi', lowBytes_succ (k + 1) n]

/-- The low bytes of a wider width: the low bytes of what is above, then the low `k`. -/
theorem lowBytes_add (k m n : ℕ) :
    lowBytes (k + m) n = lowBytes m (n >>> (8 * k)) ++ lowBytes k n := by
  have hshift : ∀ j, n >>> (8 * (k + j)) = (n >>> (8 * k)) >>> (8 * j) := by
    intro j
    rw [Nat.mul_add, Nat.shiftRight_add]
  simp only [lowBytes, List.range_add, List.reverse_append, List.map_append, List.map_reverse,
    List.map_map, Function.comp_def, hshift]

theorem lowBytes_zero (m : ℕ) : lowBytes m 0 = List.replicate m 0 := by
  simp [lowBytes, List.map_const']

/-- Byte `i` of the `L` low bytes, from the most significant. -/
theorem getD_lowBytes {L i : ℕ} (n : ℕ) (h : i < L) :
    (lowBytes L n).getD i 0 = UInt8.ofNat (n >>> (8 * (L - 1 - i))) := by
  rw [List.getD_eq_getElem _ _ (by simpa [lowBytes] using h)]
  simp [lowBytes, List.getElem_reverse]

/-- A number whose minimal bytes fit `L` bytes: its `L` low bytes are them, left-padded with
zeros. -/
theorem lowBytes_eq_pad {L n : ℕ} (h : (bigEndian n).length ≤ L) :
    lowBytes L n = List.replicate (L - (bigEndian n).length) 0 ++ bigEndian n := by
  rcases Nat.eq_zero_or_pos n with rfl | hpos
  · simp [lowBytes_zero]
  obtain ⟨k, hk⟩ : ∃ k, (bigEndian n).length = k + 1 :=
    Nat.exists_eq_add_one_of_ne_zero (length_bigEndian_pos hpos).ne'
  have hhi : n < 256 ^ (k + 1) := (length_bigEndian_le_iff n (k + 1)).mp hk.le
  have hlo : 256 ^ k ≤ n := by
    by_contra hlt
    have := (length_bigEndian_le_iff n k).mpr (by omega)
    omega
  have hsplit : L = (k + 1) + (L - (k + 1)) := by omega
  have habove : n >>> (8 * (k + 1)) = 0 := by
    rw [Nat.shiftRight_eq_div_pow, Nat.div_eq_zero_iff_lt (by positivity), Nat.pow_mul]
    exact hhi
  rw [hk, hsplit, lowBytes_add, habove, lowBytes_zero, ← bigEndian_eq_lowBytes k hlo hhi,
    Nat.add_sub_cancel_left]

end Srcd.Library
