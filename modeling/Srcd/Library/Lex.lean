import Mathlib

/-! # Lexicographic order and increasing lists

Two facts about the lexicographic order of lists that a walk over a prefix tree rests on: an
extension of a list that is below a bound without being a prefix of it stays below it, and the
lists of a strictly increasing sequence from its first one at least a bound on are all at least
it. Then the thresholds of a filter over a strictly increasing list, as a loop that looks for the
next element from a position on moves them.
-/

namespace Srcd.Library
set_option autoImplicit false

section
variable {α : Type} [LinearOrder α]

/-- A list below `key` that is not a prefix of it differs from it at a smaller element, and so
does every extension. -/
theorem lt_of_lt_of_not_prefix {p key q : List α} (hlt : p < key) (hp : ¬ p <+: key)
    (hq : p <+: q) : q < key := by
  obtain ⟨r, rfl⟩ := hq
  induction p generalizing key with
  | nil => exact absurd (List.nil_prefix) hp
  | cons a p ih =>
    cases key with
    | nil => exact absurd hlt (List.not_lt_nil _)
    | cons b key =>
      cases hlt with
      | rel hab => exact List.Lex.rel hab
      | cons hlt' =>
        exact List.Lex.cons (ih hlt' fun h => hp (List.prefix_cons_inj a |>.mpr h))

end

section
variable {γ β : Type} [LinearOrder β]

/-- In a strictly increasing list whose first element is at least `key`, every element is. -/
theorem Pairwise.filter_le_of_head {f : γ → β} {key : β} {x : γ} {l : List γ}
    (hl : (x :: l).Pairwise fun a b => f a < f b) (hx : key ≤ f x) :
    (x :: l).filter (fun y => decide (key ≤ f y)) = x :: l := by
  rw [List.filter_eq_self]
  intro y hy
  rcases List.mem_cons.mp hy with rfl | hy
  · exact decide_eq_true hx
  · exact decide_eq_true (hx.trans (List.rel_of_pairwise_cons hl hy).le)

/-- A loop that looks for the first element from a threshold `j` on that satisfies `q` finds
`i`; looking again from `i` finds it again, and looking past it finds what came after it. -/
theorem filter_threshold_eq_cons {f : γ → β} {l : List γ} (hl : l.Pairwise fun a b => f a < f b)
    {q : γ → Bool} {j : β} {i : γ} {rest : List γ}
    (h : l.filter (fun x => decide (j ≤ f x) && q x) = i :: rest) :
    l.filter (fun x => decide (f i ≤ f x) && q x) = i :: rest ∧
      l.filter (fun x => decide (f i < f x) && q x) = rest := by
  induction l with
  | nil => simp at h
  | cons x l ih =>
    have hx : ∀ y ∈ l, f x < f y := fun y hy => List.rel_of_pairwise_cons hl hy
    by_cases hsel : j ≤ f x ∧ q x = true
    · -- `x` is the element found: every later one is past it, and past `j`
      rw [List.filter_cons_of_pos (by simpa using hsel)] at h
      obtain ⟨rfl, rfl⟩ := List.cons.inj h
      have hlater : ∀ (t : β → Prop) [DecidablePred t], (∀ y ∈ l, t (f y)) →
          l.filter (fun y => decide (t (f y)) && q y) = l.filter q := fun t _ ht =>
        List.filter_congr fun y hy => by simp [ht y hy]
      refine ⟨?_, ?_⟩
      · rw [List.filter_cons_of_pos (by simpa using hsel.2),
          hlater (fun b => f x ≤ b) fun y hy => (hx y hy).le,
          hlater (fun b => j ≤ b) fun y hy => hsel.1.trans (hx y hy).le]
      · rw [List.filter_cons_of_neg (by simp), hlater (fun b => f x < b) hx,
          hlater (fun b => j ≤ b) fun y hy => hsel.1.trans (hx y hy).le]
    · -- `x` is skipped: the element found comes later, so `x` is before it
      rw [List.filter_cons_of_neg (by simpa using hsel)] at h
      have hi : i ∈ l := List.mem_of_mem_filter (h ▸ List.mem_cons_self)
      have hxi := hx i hi
      obtain ⟨h₁, h₂⟩ := ih (List.Pairwise.of_cons hl) h
      refine ⟨?_, ?_⟩
      · rw [List.filter_cons_of_neg (by simp [not_le.mpr hxi]), h₁]
      · rw [List.filter_cons_of_neg (by simp [not_lt.mpr hxi.le]), h₂]

end

end Srcd.Library
