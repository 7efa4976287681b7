import Srcd.Library.BigEndian
import Mathlib

/-! # Big integers as bytes, and their powers (`common/math/big.go`)

A non-negative `*big.Int` is a natural number. `Bits` gives its words, least significant first
and with no zero word on top: its digits in base `2 ^ wordBits`. The word size is the
platform's (`wordBytes` is eight on a 64-bit platform, four on a 32-bit one); it is a
parameter here, and every result holds for each size.

`ReadBits` writes the words from the end of the buffer towards its front. On a zero-filled
buffer it leaves the buffer's width of low bytes of the number (`readBits_zero`), so
`PaddedBigBytes` is the minimal encoding left-padded to the requested length
(`paddedBigBytes_eq`), and `Byte` reads one byte of the padded encoding (`byte_eq`).

`Exp` squares `base` in place for every bit of every word of the exponent. It returns
`base ^ exponent` modulo `2 ^ 256` (`exp_result`), and leaves `base` raised to the power
`2 ^ (wordBits * words)` (`exp_base`), against its doc comment. When `base` and `exponent` are
one pointer, the loop still walks the exponent's original words, because `Mul` of a number by
itself writes a new array; so `exp ws x x` is that call.
-/

namespace Srcd.Common
open Srcd.Library
set_option autoImplicit false

/-- The size of a `big.Word`, in bytes; never zero. -/
structure WordSize where
  bytes : ℕ
  bytes_pos : 0 < bytes

/-- `wordBytes` on a 64-bit platform. -/
def WordSize.w64 : WordSize := ⟨8, by decide⟩

/-- `wordBits`. -/
def WordSize.bits (ws : WordSize) : ℕ := 8 * ws.bytes

/-- `x.Bits()`: the words of `x`, least significant first. -/
def bits (ws : WordSize) (x : ℕ) : List ℕ := Nat.digits (2 ^ ws.bits) x

/-- The inner loop of `ReadBits`: up to `j` more bytes of the word `d`, low first, each written
just before position `i`, while `i > 0`. -/
def readBitsWord : ℕ → List UInt8 × ℕ → ℕ → List UInt8 × ℕ
  | 0, acc, _ => acc
  | j + 1, (buf, i), d =>
    if i > 0 then readBitsWord j (buf.set (i - 1) (UInt8.ofNat d), i - 1) (d >>> 8) else (buf, i)

/-- `ReadBits`: the buffer after the words of `x` are written into it from its end. -/
def readBits (ws : WordSize) (x : ℕ) (buf : List UInt8) : List UInt8 :=
  ((bits ws x).foldl (fun acc d => readBitsWord ws.bytes acc d) (buf, buf.length)).1

/-- `PaddedBigBytes`; `BitLen` is `Nat.size`. -/
def paddedBigBytes (ws : WordSize) (x n : ℕ) : List UInt8 :=
  if Nat.size x / 8 ≥ n then bigEndian x
  else readBits ws x (List.replicate n 0)

/-- `bigEndianByteAt`: byte `n` of `x`, counted from the least significant. -/
def bigEndianByteAt (ws : WordSize) (x n : ℕ) : UInt8 :=
  let words := bits ws x
  -- Check word-bucket the byte will reside in
  let i := n / ws.bytes
  if i ≥ words.length then 0
  else
    -- Offset of the byte
    let shift := 8 * (n % ws.bytes)
    UInt8.ofNat (words.getD i 0 >>> shift)

/-- `Byte`: byte `n` of the `padlength`-byte encoding, counted from the most significant. -/
def byte (ws : WordSize) (x padlength n : ℕ) : UInt8 :=
  if n ≥ padlength then 0 else bigEndianByteAt ws x (padlength - 1 - n)

/-- `U256` of a non-negative number. -/
def u256 (x : ℕ) : ℕ := x % 2 ^ 256

/-- The state of `Exp`'s loop: the result, and `base`, which the loop squares in place. -/
structure ExpState where
  result : ℕ
  base : ℕ
  deriving DecidableEq, Repr

/-- The inner loop of `Exp` over `k` more bits of `word`, lowest first. -/
def expWord : ℕ → ExpState → ℕ → ExpState
  | 0, s, _ => s
  | k + 1, s, word =>
    let result := if word % 2 = 1 then u256 (s.result * s.base) else s.result
    expWord k ⟨result, u256 (s.base * s.base)⟩ (word >>> 1)

/-- `Exp`: the result, and the value `base` holds after the call. -/
def exp (ws : WordSize) (base exponent : ℕ) : ℕ × ℕ :=
  let s := (bits ws exponent).foldl (fun s word => expWord ws.bits s word) ⟨1, base⟩
  (s.result, s.base)

/-! ## Bytes -/

section Bytes
variable (ws : WordSize)

/-- Bytes written one after another just before position `i`, moving towards the front while
`i > 0`: the two loops of `ReadBits` as one. -/
def writeBack : List UInt8 × ℕ → List UInt8 → List UInt8 × ℕ
  | acc, [] => acc
  | (buf, i), b :: bs => if i > 0 then writeBack (buf.set (i - 1) b, i - 1) bs else (buf, i)

/-- The `k` low bytes of `d`, least significant first. -/
def leBytes (k d : ℕ) : List UInt8 := (List.range k).map fun t => UInt8.ofNat (d >>> (8 * t))

theorem uint8_ofNat_eq_of_mod {a b : ℕ} (h : a % 256 = b % 256) : UInt8.ofNat a = UInt8.ofNat b := by
  apply UInt8.toNat_inj.mp
  simpa [UInt8.toNat_ofNat] using h

@[simp] theorem length_leBytes (k d : ℕ) : (leBytes k d).length = k := by simp [leBytes]

theorem leBytes_reverse (k d : ℕ) : (leBytes k d).reverse = lowBytes k d := by
  simp [leBytes, lowBytes, List.map_reverse]

theorem leBytes_add (k m d : ℕ) : leBytes (k + m) d = leBytes k d ++ leBytes m (d >>> (8 * k)) := by
  have hshift : ∀ t, d >>> (8 * (k + t)) = (d >>> (8 * k)) >>> (8 * t) := by
    intro t
    rw [Nat.mul_add, Nat.shiftRight_add]
  simp only [leBytes, List.range_add, List.map_append, List.map_map, Function.comp_def, hshift]

theorem readBitsWord_eq : ∀ (j : ℕ) (acc : List UInt8 × ℕ) (d : ℕ),
    readBitsWord j acc d = writeBack acc (leBytes j d)
  | 0, _, _ => rfl
  | j + 1, (buf, i), d => by
    have hsplit : leBytes (j + 1) d = UInt8.ofNat d :: leBytes j (d >>> 8) := by
      rw [Nat.add_comm, leBytes_add]
      simp [leBytes]
    rw [hsplit, readBitsWord, writeBack]
    split_ifs
    · exact readBitsWord_eq j _ _
    · rfl

theorem writeBack_stop (buf : List UInt8) : ∀ bs, writeBack (buf, 0) bs = (buf, 0)
  | [] => rfl
  | _ :: _ => by simp [writeBack]

theorem writeBack_append : ∀ (a b : List UInt8) (acc : List UInt8 × ℕ),
    writeBack acc (a ++ b) = writeBack (writeBack acc a) b
  | [], _, _ => rfl
  | x :: a, b, (buf, i) => by
    rw [List.cons_append, writeBack, writeBack]
    split_ifs with hi
    · exact writeBack_append a b _
    · rw [show i = 0 by omega, writeBack_stop]

/-- What `writeBack` leaves: the first `min i bs.length` bytes, reversed, end just before
position `i`. -/
theorem writeBack_fst : ∀ (bs buf : List UInt8) (i : ℕ), i ≤ buf.length →
    (writeBack (buf, i) bs).1 = buf.take (i - min i bs.length) ++
      (bs.take (min i bs.length)).reverse ++ buf.drop i
  | [], buf, i, _ => by simp [writeBack]
  | b :: bs, buf, i, hi => by
    rw [writeBack]
    split_ifs with hpos
    · -- byte `b` goes to position `i - 1`, the rest before it
      have hset : buf.set (i - 1) b = buf.take (i - 1) ++ b :: buf.drop i := by
        rw [List.set_eq_take_append_cons_drop, if_pos (by omega), Nat.sub_add_cancel hpos]
      have hmin : min i (bs.length + 1) = min (i - 1) bs.length + 1 := by omega
      rw [writeBack_fst bs _ (i - 1) (by simp; omega), hset, List.length_cons, hmin,
        List.take_succ_cons, List.reverse_cons]
      have htake : (buf.take (i - 1) ++ b :: buf.drop i).take (i - 1 - min (i - 1) bs.length) =
          buf.take (i - (min (i - 1) bs.length + 1)) := by
        rw [List.take_append_of_le_length (by simp; omega), List.take_take]
        congr 1
        omega
      have hdrop : (buf.take (i - 1) ++ b :: buf.drop i).drop (i - 1) = b :: buf.drop i :=
        List.drop_left' (by simp; omega)
      rw [htake, hdrop]
      simp
    · simp [show i = 0 by omega]

/-- `ReadBits` writes the little-endian bytes of the words from the end of the buffer. -/
theorem readBits_eq (x : ℕ) (buf : List UInt8) :
    readBits ws x buf = (writeBack (buf, buf.length) ((bits ws x).flatMap (leBytes ws.bytes))).1 := by
  have hfold : ∀ (words : List ℕ) (acc : List UInt8 × ℕ),
      words.foldl (fun acc d => readBitsWord ws.bytes acc d) acc =
        writeBack acc (words.flatMap (leBytes ws.bytes)) := by
    intro words
    induction words with
    | nil => intro acc; rfl
    | cons d words ih =>
      intro acc
      rw [List.foldl_cons, ih, readBitsWord_eq, List.flatMap_cons, writeBack_append]
  rw [readBits, hfold]

/-- The little-endian bytes of the words of `x`: its bytes, as many as the words hold. -/
theorem flatMap_leBytes : ∀ words : List ℕ, (∀ d ∈ words, d < 2 ^ ws.bits) →
    words.flatMap (leBytes ws.bytes) =
      leBytes (ws.bytes * words.length) (Nat.ofDigits (2 ^ ws.bits) words)
  | [], _ => rfl
  | d :: words, hd => by
    have hlt : d < 2 ^ ws.bits := hd d List.mem_cons_self
    have hrest := flatMap_leBytes words fun e he => hd e (List.mem_cons_of_mem _ he)
    set y := Nat.ofDigits (2 ^ ws.bits) (d :: words) with hy
    rw [Nat.ofDigits_cons] at hy
    have habove : y >>> (8 * ws.bytes) = Nat.ofDigits (2 ^ ws.bits) words := by
      rw [hy, Nat.shiftRight_eq_div_pow, ← WordSize.bits, Nat.add_mul_div_left _ _ (by positivity),
        Nat.div_eq_of_lt hlt, Nat.zero_add]
    have hlow : leBytes ws.bytes y = leBytes ws.bytes d := by
      refine List.map_congr_left fun t ht => ?_
      have ht' : t < ws.bytes := List.mem_range.mp ht
      have hsplit : 2 ^ ws.bits = 2 ^ (8 * t) * 2 ^ (8 * (ws.bytes - t)) := by
        rw [← Nat.pow_add, WordSize.bits]
        congr 1
        omega
      have hdiv : y >>> (8 * t) = d >>> (8 * t) + 2 ^ (8 * (ws.bytes - t)) *
          Nat.ofDigits (2 ^ ws.bits) words := by
        rw [hy, Nat.shiftRight_eq_div_pow, Nat.shiftRight_eq_div_pow, hsplit, Nat.mul_assoc,
          Nat.add_mul_div_left _ _ (by positivity)]
      have hmod : 2 ^ (8 * (ws.bytes - t)) % 256 = 0 := by
        obtain ⟨u, hu⟩ : ∃ u, ws.bytes - t = u + 1 := ⟨ws.bytes - t - 1, by omega⟩
        rw [hu, Nat.mul_succ, Nat.pow_add]
        simp
      rw [hdiv]
      apply uint8_ofNat_eq_of_mod
      simp only [Nat.add_mod, Nat.mul_mod, hmod, Nat.zero_mul, Nat.zero_mod, Nat.add_zero,
        Nat.mod_mod]
    rw [List.flatMap_cons, hrest, List.length_cons, Nat.mul_succ, Nat.add_comm, leBytes_add, hlow,
      habove]

theorem leBytes_take {k m : ℕ} (d : ℕ) (h : m ≤ k) : (leBytes k d).take m = leBytes m d := by
  simp [leBytes, ← List.map_take, List.take_range, Nat.min_eq_left h]

/-- On a zero-filled buffer `ReadBits` leaves the buffer's width of low bytes of `x`. -/
theorem readBits_zero (x L : ℕ) : readBits ws x (List.replicate L 0) = lowBytes L x := by
  have hbase : 1 < 2 ^ ws.bits :=
    Nat.one_lt_two_pow (by unfold WordSize.bits; have := ws.bytes_pos; omega)
  have hdigits : ∀ d ∈ bits ws x, d < 2 ^ ws.bits := fun d hd => Nat.digits_lt_base hbase hd
  rw [readBits_eq, List.length_replicate, flatMap_leBytes ws _ hdigits, bits, Nat.ofDigits_digits]
  set K := ws.bytes * (Nat.digits (2 ^ ws.bits) x).length with hK
  rw [writeBack_fst _ _ _ (List.length_replicate ..).ge, length_leBytes,
    leBytes_take x (Nat.min_le_right _ _), List.take_replicate, List.drop_replicate, Nat.sub_self,
    List.replicate_zero, List.append_nil, leBytes_reverse, Nat.min_eq_left (Nat.sub_le _ _)]
  rcases Nat.le_total L K with hL | hL
  · rw [Nat.min_eq_left hL, Nat.sub_self, List.replicate_zero, List.nil_append]
  · -- the buffer is wider than the words: above them `x` has no byte
    rw [Nat.min_eq_right hL]
    have hfit : x >>> (8 * K) = 0 := by
      rw [Nat.shiftRight_eq_div_pow, Nat.div_eq_zero_iff_lt (by positivity), hK, ← Nat.mul_assoc,
        Nat.pow_mul]
      exact Nat.lt_base_pow_length_digits hbase
    conv_rhs => rw [← Nat.add_sub_cancel' hL, lowBytes_add, hfit, lowBytes_zero]

/-- `bigEndianByteAt` reads byte `n` of `x`, counted from the least significant. -/
theorem bigEndianByteAt_eq (x n : ℕ) : bigEndianByteAt ws x n = UInt8.ofNat (x >>> (8 * n)) := by
  have hbase : 1 < 2 ^ ws.bits :=
    Nat.one_lt_two_pow (by unfold WordSize.bits; have := ws.bytes_pos; omega)
  have hn : n = ws.bytes * (n / ws.bytes) + n % ws.bytes := (Nat.div_add_mod n ws.bytes).symm
  have hr : n % ws.bytes < ws.bytes := Nat.mod_lt _ ws.bytes_pos
  unfold bigEndianByteAt
  dsimp only
  split_ifs with hi
  · -- past the top word `x` has no byte
    have hfit : x >>> (8 * n) = 0 := by
      rw [Nat.shiftRight_eq_div_pow, Nat.div_eq_zero_iff_lt (by positivity)]
      calc x < (2 ^ ws.bits) ^ (bits ws x).length := Nat.lt_base_pow_length_digits hbase
        _ ≤ (2 ^ ws.bits) ^ (n / ws.bytes) := Nat.pow_le_pow_right (by omega) hi
        _ = 2 ^ (8 * (ws.bytes * (n / ws.bytes))) := by rw [← Nat.pow_mul, WordSize.bits, Nat.mul_assoc]
        _ ≤ 2 ^ (8 * n) := Nat.pow_le_pow_right (by norm_num) (by omega)
    rw [hfit]
    rfl
  · -- the byte lies in word `n / wordBytes`, at offset `n % wordBytes`
    rw [bits, Nat.getD_digits _ _ (by omega), ← Nat.pow_mul, Nat.shiftRight_eq_div_pow,
      Nat.shiftRight_eq_div_pow]
    apply uint8_ofNat_eq_of_mod
    have hsplit : 2 ^ ws.bits = 2 ^ (8 * (n % ws.bytes)) * 2 ^ (8 * (ws.bytes - n % ws.bytes)) := by
      rw [← Nat.pow_add, WordSize.bits]
      congr 1
      omega
    have hdvd : 256 ∣ 2 ^ (8 * (ws.bytes - n % ws.bytes)) := by
      obtain ⟨u, hu⟩ : ∃ u, ws.bytes - n % ws.bytes = u + 1 := ⟨_, (Nat.succ_pred_eq_of_pos (by omega)).symm⟩
      rw [hu, Nat.mul_succ, Nat.pow_add]
      exact Dvd.intro_left _ rfl
    rw [hsplit, Nat.mod_mul_right_div_self, Nat.mod_mod_of_dvd _ hdvd, Nat.div_div_eq_div_mul,
      ← Nat.pow_add, WordSize.bits]
    conv_rhs => rw [hn]
    rw [Nat.mul_add, Nat.mul_assoc]

/-- `Byte` reads byte `n` of the `padlength` low bytes, from the most significant. -/
theorem byte_eq (x : ℕ) {padlength n : ℕ} (h : n < padlength) :
    byte ws x padlength n = (lowBytes padlength x).getD n 0 := by
  rw [byte, if_neg (Nat.not_le.mpr h), bigEndianByteAt_eq, getD_lowBytes x h]

/-- The minimal encoding is `BitLen` rounded up to bytes. -/
theorem length_bigEndian_eq_size (x : ℕ) : (bigEndian x).length = (Nat.size x + 7) / 8 := by
  have hiff : ∀ k, (bigEndian x).length ≤ k ↔ (Nat.size x + 7) / 8 ≤ k := by
    intro k
    rw [length_bigEndian_le_iff, show (256 : ℕ) = 2 ^ 8 by norm_num, ← Nat.pow_mul,
      ← Nat.size_le]
    omega
  exact Nat.le_antisymm ((hiff _).mpr le_rfl) ((hiff _).mp le_rfl)

/-- `PaddedBigBytes` is the minimal encoding, left-padded with zeros to `n` bytes. -/
theorem paddedBigBytes_eq (x n : ℕ) :
    paddedBigBytes ws x n =
      List.replicate (max n (bigEndian x).length - (bigEndian x).length) 0 ++ bigEndian x := by
  have hlen := length_bigEndian_eq_size x
  unfold paddedBigBytes
  split_ifs with hbig
  · -- `BitLen / 8 ≥ n`: the minimal encoding is already long enough
    rw [Nat.max_eq_right (by omega), Nat.sub_self, List.replicate_zero, List.nil_append]
  · rw [readBits_zero, lowBytes_eq_pad (by omega), Nat.max_eq_left (by omega)]

end Bytes

/-- The byte helpers match the big-endian representation, for every word size: `PaddedBigBytes`
is the minimal encoding left-padded to `max n ⌈BitLen / 8⌉` bytes, `ReadBits` leaves a
zero-filled buffer that is long enough holding the encoding left-padded to its length, and `Byte`
reads byte `i` of the `p`-byte encoding. -/
theorem big_bytes_match_big_endian (ws : WordSize) :
    (∀ x n : ℕ, paddedBigBytes ws x n =
      List.replicate (max n ((Nat.size x + 7) / 8) - (bigEndian x).length) 0 ++ bigEndian x) ∧
    (∀ x L : ℕ, (Nat.size x + 7) / 8 ≤ L →
      readBits ws x (List.replicate L 0) =
        List.replicate (L - (bigEndian x).length) 0 ++ bigEndian x) ∧
    (∀ x p i : ℕ, (Nat.size x + 7) / 8 ≤ p → i < p →
      byte ws x p i = (List.replicate (p - (bigEndian x).length) 0 ++ bigEndian x).getD i 0) := by
  refine ⟨fun x n => ?_, fun x L hL => ?_, fun x p i hp hi => ?_⟩
  · rw [paddedBigBytes_eq, length_bigEndian_eq_size]
  · rw [readBits_zero, lowBytes_eq_pad (by rw [length_bigEndian_eq_size]; exact hL)]
  · rw [byte_eq ws x hi, lowBytes_eq_pad (by rw [length_bigEndian_eq_size]; exact hp)]

/-- A number of two 64-bit words, `2^64 + 0x0102`, read into twelve bytes. -/
theorem big_bytes_match_big_endian_twoWords :
    readBits WordSize.w64 (2 ^ 64 + 0x0102) (List.replicate 12 0) =
      [0, 0, 0, 1, 0, 0, 0, 0, 0, 0, 1, 2] := by
  have hsize : (Nat.size (2 ^ 64 + 0x0102) + 7) / 8 ≤ 12 := by
    have h : Nat.size (2 ^ 64 + 0x0102) ≤ 65 := Nat.size_le.mpr (by norm_num)
    omega
  rw [(big_bytes_match_big_endian WordSize.w64).2.1 _ 12 hsize]
  rfl

/-! ## `Exp` -/

section Exp
variable (ws : WordSize)

/-- The loop over `k` bits of `word`, modulo `2 ^ 256`: the result is multiplied by `base` to
the power of those bits, and `base` is raised to `2 ^ k`. By induction on `k`, one bit a step. -/
theorem expWord_cast : ∀ (k : ℕ) (s : ExpState) (word : ℕ),
    ((expWord k s word).result : ZMod (2 ^ 256)) = s.result * s.base ^ (word % 2 ^ k) ∧
    ((expWord k s word).base : ZMod (2 ^ 256)) = s.base ^ (2 ^ k)
  | 0, s, word => by simp [expWord, Nat.mod_one]
  | k + 1, s, word => by
    obtain ⟨hres, hbase⟩ := expWord_cast k ⟨if word % 2 = 1 then u256 (s.result * s.base)
      else s.result, u256 (s.base * s.base)⟩ (word >>> 1)
    have hbits : word % 2 ^ (k + 1) = word % 2 + 2 * (word / 2 % 2 ^ k) := by
      rw [Nat.pow_succ', Nat.mod_mul]
    have hlow : ((if word % 2 = 1 then u256 (s.result * s.base) else s.result : ℕ) :
        ZMod (2 ^ 256)) = s.result * s.base ^ (word % 2) := by
      rcases Nat.mod_two_eq_zero_or_one word with h0 | h1
      · simp [h0]
      · simp [h1, u256, ZMod.natCast_mod]
    have hsq : ((u256 (s.base * s.base) : ℕ) : ZMod (2 ^ 256)) = s.base ^ 2 := by
      simp [u256, ZMod.natCast_mod, sq]
    rw [expWord]
    refine ⟨?_, ?_⟩
    · rw [hres, hlow, hsq, Nat.shiftRight_eq_div_pow, Nat.pow_one, hbits, pow_add, ← pow_mul,
        mul_assoc]
    · rw [hbase, hsq, ← pow_mul, ← Nat.pow_succ']

theorem expWord_result_lt : ∀ (k : ℕ) (s : ExpState) (word : ℕ), s.result < 2 ^ 256 →
    (expWord k s word).result < 2 ^ 256
  | 0, _, _, h => h
  | k + 1, s, word, h => by
    rw [expWord]
    refine expWord_result_lt k _ _ ?_
    split_ifs
    · exact Nat.mod_lt _ (by positivity)
    · exact h

/-- The loop over the words, by induction on them: modulo `2 ^ 256` the result is multiplied by
`base` to the power of the number the words make up, and `base` is raised to `2 ^ bits`. -/
theorem foldl_expWord_cast : ∀ (words : List ℕ) (s : ExpState), (∀ d ∈ words, d < 2 ^ ws.bits) →
    ((words.foldl (fun s word => expWord ws.bits s word) s).result : ZMod (2 ^ 256)) =
        s.result * s.base ^ Nat.ofDigits (2 ^ ws.bits) words ∧
    ((words.foldl (fun s word => expWord ws.bits s word) s).base : ZMod (2 ^ 256)) =
        s.base ^ (2 ^ (ws.bits * words.length))
  | [], s, _ => by simp
  | d :: words, s, hd => by
    obtain ⟨hres, hbase⟩ := foldl_expWord_cast words (expWord ws.bits s d)
      fun e he => hd e (List.mem_cons_of_mem _ he)
    obtain ⟨hres₁, hbase₁⟩ := expWord_cast ws.bits s d
    rw [Nat.mod_eq_of_lt (hd d List.mem_cons_self)] at hres₁
    rw [List.foldl_cons]
    refine ⟨?_, ?_⟩
    · rw [hres, hres₁, hbase₁, Nat.ofDigits_cons, pow_add, pow_mul, mul_assoc]
    · rw [hbase, hbase₁, ← pow_mul, ← Nat.pow_add, List.length_cons, Nat.mul_succ, Nat.add_comm]

theorem exp_result_lt (base exponent : ℕ) : (exp ws base exponent).1 < 2 ^ 256 := by
  have hstep : ∀ (words : List ℕ) (s : ExpState), s.result < 2 ^ 256 →
      (words.foldl (fun s word => expWord ws.bits s word) s).result < 2 ^ 256 := by
    intro words
    induction words with
    | nil => exact fun _ h => h
    | cons d words ih => exact fun s h => ih _ (expWord_result_lt _ _ _ h)
  exact hstep _ _ (Nat.one_lt_two_pow (by norm_num))

/-- `Exp` returns `base ^ exponent` modulo `2 ^ 256`. -/
theorem exp_result (base exponent : ℕ) : (exp ws base exponent).1 = base ^ exponent % 2 ^ 256 := by
  have hbase : 1 < 2 ^ ws.bits :=
    Nat.one_lt_two_pow (by unfold WordSize.bits; have := ws.bytes_pos; omega)
  have hcast := (foldl_expWord_cast ws (bits ws exponent) ⟨1, base⟩
    fun d hd => Nat.digits_lt_base hbase hd).1
  have hexp : Nat.ofDigits (2 ^ ws.bits) (bits ws exponent) = exponent := Nat.ofDigits_digits _ _
  dsimp only at hcast
  rw [hexp, Nat.cast_one, one_mul, ← Nat.cast_pow] at hcast
  have hval := congrArg ZMod.val hcast
  rw [ZMod.val_natCast, ZMod.val_natCast] at hval
  rw [← hval]
  exact (Nat.mod_eq_of_lt (exp_result_lt ws base exponent)).symm

theorem bits_one : bits WordSize.w64 1 = [1] := Nat.digits_of_lt _ 1 one_ne_zero (by decide)

end Exp

set_option maxRecDepth 4000 in
/-- On a 64-bit platform `Exp(2, 1)` returns `2` but leaves `base` at `0`: the loop squares it
in place for all 64 bits of the exponent's word. -/
theorem exp_overwrites_base : exp WordSize.w64 2 1 = (2, 0) := by
  rw [exp, bits_one]
  rfl

end Srcd.Common
