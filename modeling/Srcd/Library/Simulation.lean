import Srcd.Library.ExceptState

/-! # Runs of a fallible machine and the total machine they implement

A concrete machine steps by `step : σ → α → Except ε σ`, an abstract one by a total
`spec : β → α → β`, and `abs` reads the abstract state off a concrete one. When every step from
a state satisfying `Inv` succeeds, keeps `Inv` and moves `abs` as `spec` does, so does every
run (`Simulates.run`).
-/

namespace Srcd.Library
set_option autoImplicit false

section
variable {σ α ε β : Type}

/-- `step` implements `spec` through `abs` on the states satisfying `Inv`. -/
def Simulates (step : σ → α → Except ε σ) (spec : β → α → β) (abs : σ → β) (Inv : σ → Prop) :
    Prop :=
  ∀ s a, Inv s → ∃ s', step s a = .ok s' ∧ Inv s' ∧ abs s' = spec (abs s) a

theorem Simulates.run {step : σ → α → Except ε σ} {spec : β → α → β} {abs : σ → β}
    {Inv : σ → Prop} (h : Simulates step spec abs Inv) :
    ∀ (l : List α) (s : σ), Inv s →
      ∃ s', l.foldlM step s = .ok s' ∧ Inv s' ∧ abs s' = l.foldl spec (abs s) := by
  intro l
  induction l with
  | nil => intro s hs; exact ⟨s, rfl, hs, rfl⟩
  | cons a l ih =>
    intro s hs
    obtain ⟨s₁, hstep, hinv₁, habs₁⟩ := h s a hs
    obtain ⟨s', hrun, hinv', habs'⟩ := ih s₁ hinv₁
    refine ⟨s', ?_, hinv', ?_⟩
    · rw [List.foldlM_cons, hstep, except_ok_bind, hrun]
    · rw [habs', habs₁, List.foldl_cons]

end

end Srcd.Library
