import Mathlib

/-! # Bit strings as numbers, and folds linear in exclusive or

A string of bits, most significant first, is a number with a length; groups of `w` bits are then
digits in base `2 ^ w`, most significant first (`beValue`), and appending bits below a number
that leaves them room is addition (`mul_two_pow_or`, `mul_two_pow_xor`). A step function linear
in exclusive or folds to an affine map (`foldl_xor`).
-/

namespace Srcd.Library
set_option autoImplicit false

/-- The value of digits in base `b`, most significant first. -/
def beValue (b : ℕ) (L : List ℕ) : ℕ := Nat.ofDigits b L.reverse

@[simp] theorem beValue_nil (b : ℕ) : beValue b [] = 0 := rfl

@[simp] theorem beValue_append_singleton (b : ℕ) (L : List ℕ) (x : ℕ) :
    beValue b (L ++ [x]) = beValue b L * b + x := by
  simp only [beValue, List.reverse_append, List.reverse_singleton, List.singleton_append,
    Nat.ofDigits_cons]
  ring

theorem beValue_inj {b : ℕ} (hb : 1 < b) {L₁ L₂ : List ℕ} (hlen : L₁.length = L₂.length)
    (h₁ : ∀ x ∈ L₁, x < b) (h₂ : ∀ x ∈ L₂, x < b) (h : beValue b L₁ = beValue b L₂) : L₁ = L₂ := by
  have hrev := Nat.ofDigits_inj_of_len_eq hb (by simpa using hlen)
    (fun x hx => h₁ x (List.mem_reverse.mp hx)) (fun x hx => h₂ x (List.mem_reverse.mp hx)) h
  exact List.reverse_injective hrev

/-! ## Bits side by side -/

theorem mul_two_pow_add_lt {a x f t : ℕ} (ha : a < 2 ^ f) (hx : x < 2 ^ t) :
    a * 2 ^ t + x < 2 ^ (f + t) := by
  have h : (a + 1) * 2 ^ t ≤ 2 ^ f * 2 ^ t := Nat.mul_le_mul_right _ ha
  rw [pow_add]
  linarith

/-- The top bits of `r` shifted in below `V`, then its low bits: all of `r` below `V`. -/
theorem shift_in (V r t R : ℕ) (ht : t ≤ R) :
    (V * 2 ^ t + r / 2 ^ (R - t)) * 2 ^ (R - t) + r % 2 ^ (R - t) = V * 2 ^ R + r := by
  have hpow : 2 ^ t * 2 ^ (R - t) = 2 ^ R := by
    rw [← pow_add, Nat.add_sub_cancel' ht]
  rw [add_mul, add_assoc, Nat.div_add_mod' r (2 ^ (R - t)), mul_assoc, hpow]

theorem mul_two_pow_or {a b k : ℕ} (hb : b < 2 ^ k) : a * 2 ^ k ||| b = a * 2 ^ k + b := by
  rw [Nat.mul_comm, Nat.two_pow_add_eq_or_of_lt hb]

theorem mul_two_pow_xor {a b k : ℕ} (hb : b < 2 ^ k) : a * 2 ^ k ^^^ b = a * 2 ^ k + b := by
  rw [← mul_two_pow_or hb]
  apply Nat.eq_of_testBit_eq
  intro j
  by_cases hj : k ≤ j
  · have hbj : b.testBit j = false :=
      Nat.testBit_lt_two_pow (hb.trans_le (Nat.pow_le_pow_right (by decide) hj))
    simp [hbj]
  · simp [Nat.testBit_mul_two_pow, hj]

/-- The top `j` of the `m + j` bits of `r * 2 ^ m`. -/
theorem mul_two_pow_shiftRight (r m j : ℕ) : (r * 2 ^ m) >>> (m + j) = r / 2 ^ j := by
  rw [Nat.shiftRight_eq_div_pow, pow_add, ← Nat.div_div_eq_div_mul, Nat.mul_div_cancel _ (by positivity)]

/-- Shifting `r * 2 ^ m`, of `m + R` bits, up by `t ≤ R` within `m + R` bits drops the top `t`
bits of `r`. -/
theorem mul_two_pow_shiftLeft_mod (r m t R : ℕ) (ht : t ≤ R) :
    (r * 2 ^ m) <<< t % 2 ^ (m + R) = r % 2 ^ (R - t) * 2 ^ (m + t) := by
  have hR : m + R = (R - t) + (m + t) := by omega
  rw [Nat.shiftLeft_eq, mul_assoc, ← pow_add, hR, pow_add 2 (R - t) (m + t), Nat.mul_mod_mul_right]

/-! ## Folds linear in exclusive or -/

theorem xor_xor_xor_cancel (a b g : ℕ) : (a ^^^ g) ^^^ (b ^^^ g) = a ^^^ b := by
  rw [Nat.xor_assoc, Nat.xor_comm b g, ← Nat.xor_assoc g, Nat.xor_self, Nat.zero_xor]

/-- A fold of a step linear in `xor` is affine: what the start contributes and what the inputs
contribute are folded apart. -/
theorem foldl_xor {f : ℕ → ℕ → ℕ} (hf : ∀ a b v w, f (a ^^^ b) (v ^^^ w) = f a v ^^^ f b w) :
    ∀ (vs : List ℕ) (a b : ℕ),
      vs.foldl f (a ^^^ b) = vs.foldl f a ^^^ (List.replicate vs.length 0).foldl f b
  | [], a, b => rfl
  | v :: vs, a, b => by
    have hstep : f (a ^^^ b) v = f a v ^^^ f b 0 := by simpa using hf a b v 0
    simp only [List.foldl_cons, List.length_cons, List.replicate_succ, hstep]
    exact foldl_xor hf vs (f a v) (f b 0)

end Srcd.Library
