import Mathlib

/-! # Pointers into a heap of records

A Go pointer to a record the program allocates is an index into the list of every record
allocated so far: a read through it is `getD` with the zero record, and a write through it is
`List.modify`, which every other pointer to the record sees. A count of the records with some
property is the potential of a recursion that each call makes lose it on one record.

A loop whose body may fail is a `foldlM` in `Option`; its invariant is indexed by the items still
to go, so that it may speak of the work left.
-/

namespace Srcd.Library
set_option autoImplicit false

section Pointers
variable {α : Type}

theorem getD_modify_self {l : List α} {p : ℕ} (hp : p < l.length) (f : α → α) (d : α) :
    (l.modify p f).getD p d = f (l.getD p d) := by
  simp [List.getD_eq_getElem?_getD, hp]

theorem getD_modify_ne (l : List α) {p q : ℕ} (h : p ≠ q) (f : α → α) (d : α) :
    (l.modify p f).getD q d = l.getD q d := by
  simp [List.getD_eq_getElem?_getD, h]

/-- A read after an allocation: an old record, the new one, or the zero record. -/
theorem getD_push (l : List α) (x : α) (q : ℕ) (d : α) :
    (l ++ [x]).getD q d = if q < l.length then l.getD q d else if q = l.length then x else d := by
  split_ifs with hlt heq
  · exact List.getD_append l [x] d q hlt
  · subst heq
    simp
  · exact List.getD_eq_default _ _ (by simp only [List.length_append, List.length_singleton]; omega)

theorem getD_modify_of_length_le {l : List α} {p : ℕ} (hp : l.length ≤ p) (f : α → α) (q : ℕ)
    (d : α) : (l.modify p f).getD q d = l.getD q d := by
  by_cases hq : p = q
  · subst hq
    rw [List.getD_eq_default _ _ (by simpa using hp), List.getD_eq_default _ _ hp]
  · exact getD_modify_ne l hq f d

/-- A write that can only take `P` away keeps the count of records with `P` from growing. -/
theorem countP_modify_le {P : α → Bool} (l : List α) (p : ℕ) {f : α → α}
    (hf : ∀ x, P (f x) → P x) : (l.modify p f).countP P ≤ l.countP P := by
  induction l generalizing p with
  | nil => simp
  | cons x l ih =>
    cases p with
    | zero =>
      rw [List.modify_zero_cons, List.countP_cons, List.countP_cons]
      have := hf x
      split_ifs <;> simp_all
    | succ p =>
      rw [List.modify_succ_cons, List.countP_cons, List.countP_cons]
      have := ih p
      omega

/-- A write that takes `P` away from a record with `P` lowers the count by one. -/
theorem countP_modify_of_lost {P : α → Bool} {l : List α} {p : ℕ} (hp : p < l.length)
    {f : α → α} (d : α) (hx : P (l.getD p d)) (hfx : P (f (l.getD p d)) = false) :
    (l.modify p f).countP P + 1 = l.countP P := by
  induction l generalizing p with
  | nil => simp at hp
  | cons x l ih =>
    cases p with
    | zero =>
      simp only [List.getD_cons_zero] at hx hfx
      rw [List.modify_zero_cons, List.countP_cons, List.countP_cons, hx, hfx]
      simp
    | succ p =>
      simp only [List.getD_cons_succ] at hx hfx
      rw [List.modify_succ_cons, List.countP_cons, List.countP_cons,
        ← ih (by simpa using hp) hx hfx]
      omega

end Pointers

/-! ## Loops whose body may fail -/

section Loops
variable {β γ : Type} {f : γ → β → Option γ} {P : List β → γ → Prop}

/-- A loop each of whose steps from the invariant succeeds, into the invariant of the items left,
runs to its end. -/
theorem foldlM_option_of_step (step : ∀ b l x, P (b :: l) x → ∃ y, f x b = some y ∧ P l y) :
    ∀ (l : List β) (x : γ), P l x → ∃ y, l.foldlM f x = some y ∧ P [] y := by
  intro l
  induction l with
  | nil => intro x hx; exact ⟨x, rfl, hx⟩
  | cons b l ih =>
    intro x hx
    obtain ⟨y, hy, hPy⟩ := step b l x hx
    rw [List.foldlM_cons, hy, Option.bind_eq_bind, Option.bind_some]
    exact ih y hPy

/-- An invariant that each successful step keeps holds at the end of a loop that succeeds. -/
theorem foldlM_option_inv (step : ∀ b l x y, P (b :: l) x → f x b = some y → P l y) :
    ∀ (l : List β) (x y : γ), P l x → l.foldlM f x = some y → P [] y := by
  intro l
  induction l with
  | nil => intro x y hx h; cases h; exact hx
  | cons b l ih =>
    intro x y hx h
    rw [List.foldlM_cons] at h
    obtain ⟨z, hz, hrest⟩ := Option.bind_eq_some_iff.1 h
    exact ih z y (step b l x z hx hz) hrest

end Loops

end Srcd.Library
