import Srcd.Library.Nearest
import Mathlib

/-! # Lists sorted by a key

Entries kept strictly increasing in their keys and changed the way code built on `sort.Search`
changes them: the search finds the first entry whose key is not below a given key
(`search_key_split`), and an entry is put there, in place of the entries of its key if there
are any (`pairwise_put`, `find?_put`).
-/

namespace Srcd.Library
set_option autoImplicit false

section
variable {α κ : Type} [LT κ] [LE κ] [Std.IsLinearOrder κ] [Std.LawfulOrderLT κ] {key : α → κ}

/-- Along a list strictly increasing in its keys, keys do not decrease. -/
theorem key_le_of_le {l : List α} (hl : l.Pairwise fun a b => key a < key b) {i j : ℕ}
    (hi : i < l.length) (hj : j < l.length) (hij : i ≤ j) : key l[i] ≤ key l[j] := by
  rcases Nat.lt_or_eq_of_le hij with hlt | rfl
  · exact Std.le_of_lt (List.pairwise_iff_getElem.mp hl i j hi hj hlt)
  · exact Std.le_refl _

/-- Where `sort.Search` stops in a list strictly increasing in its keys, looking for the first
entry whose key is not below `k`: the entries before have keys below `k`, the others do not. -/
theorem search_key_split [DecidableLE κ] {l : List α} (hl : l.Pairwise fun a b => key a < key b)
    (k : κ) (d : α) :
    (∀ x ∈ l.take (search l.length fun j => decide (k ≤ key (l.getD j d))), key x < k) ∧
      ∀ x ∈ l.drop (search l.length fun j => decide (k ≤ key (l.getD j d))), k ≤ key x := by
  set f : ℕ → Bool := fun j => decide (k ≤ key (l.getD j d)) with hf
  have hmono : ∀ a b, a ≤ b → b < l.length → f a = true → f b = true := by
    intro a b hab hb ha
    have ha' : a < l.length := by omega
    simp only [hf, decide_eq_true_eq, List.getD_eq_getElem l d ha', List.getD_eq_getElem l d hb]
      at ha ⊢
    exact Std.le_trans ha (key_le_of_le hl ha' hb hab)
  obtain ⟨-, hbelow, hat⟩ := search_spec hmono
  generalize search l.length f = i at hbelow hat ⊢
  constructor
  · intro x hx
    obtain ⟨j, hj, rfl⟩ := List.mem_take_iff_getElem.mp hx
    have hjl : j < l.length := by omega
    have hfj := hbelow j (by omega)
    simp only [hf, decide_eq_false_iff_not, List.getD_eq_getElem l d hjl] at hfj
    exact Std.not_le.mp hfj
  · intro x hx
    obtain ⟨j, hj, rfl⟩ := List.mem_drop_iff_getElem.mp hx
    have hi : i < l.length := by omega
    have hfi := hat hi
    simp only [hf, decide_eq_true_eq, List.getD_eq_getElem l d hi] at hfi
    exact Std.le_trans hfi (key_le_of_le hl hi (by omega) (by omega))

omit [LE κ] [Std.IsLinearOrder κ] [Std.LawfulOrderLT κ] in
/-- An entry of a list strictly increasing in its keys has a smaller key than every entry after
it. -/
theorem key_lt_of_mem_drop {l : List α} (hl : l.Pairwise fun a b => key a < key b) {i : ℕ}
    (hi : i < l.length) : ∀ y ∈ l.drop (i + 1), key l[i] < key y := by
  have hsplit : l = l.take i ++ l[i] :: l.drop (i + 1) := by
    rw [← List.drop_eq_getElem_cons hi, List.take_append_drop]
  have hparts := hsplit ▸ hl
  rw [List.pairwise_append, List.pairwise_cons] at hparts
  exact hparts.2.1.1

/-- An entry put between the entries of smaller and of larger key keeps the list sorted. -/
theorem pairwise_put {lo hi : List α} {x : α} (hlo : lo.Pairwise fun a b => key a < key b)
    (hhi : hi.Pairwise fun a b => key a < key b) (hxlo : ∀ y ∈ lo, key y < key x)
    (hxhi : ∀ y ∈ hi, key x < key y) : (lo ++ x :: hi).Pairwise fun a b => key a < key b := by
  rw [List.pairwise_append, List.pairwise_cons]
  refine ⟨hlo, ⟨hxhi, hhi⟩, ?_⟩
  intro a ha b hb
  rcases List.mem_cons.mp hb with rfl | hb
  · exact hxlo a ha
  · exact Std.lt_trans (hxlo a ha) (hxhi b hb)

omit [Std.IsLinearOrder κ] in
/-- The entry of a key after `x` is put in place of the entries `mid` of its own key: `x` for
its key, the entry there was for any other. -/
theorem find?_put [DecidableEq κ] {lo mid hi : List α} {x : α} (hxlo : ∀ y ∈ lo, key y < key x)
    (hmid : ∀ y ∈ mid, key y = key x) (k : κ) :
    (lo ++ x :: hi).find? (fun y => decide (key y = k)) =
      if key x = k then some x else (lo ++ mid ++ hi).find? (fun y => decide (key y = k)) := by
  have hlo : lo.find? (fun y => decide (key y = k)) = none ∨ key x ≠ k := by
    by_cases hx : key x = k
    · refine .inl (List.find?_eq_none.mpr fun y hy hyk => ?_)
      rw [decide_eq_true_eq, ← hx] at hyk
      exact Std.ne_of_lt (hxlo y hy) hyk
    · exact .inr hx
  split_ifs with hx
  · rw [List.find?_append, hlo.resolve_right (not_not.mpr hx), Option.none_or,
      List.find?_cons_of_pos (by simpa using hx)]
  · have hmid' : mid.find? (fun y => decide (key y = k)) = none :=
      List.find?_eq_none.mpr fun y hy hyk => hx (by rw [← hmid y hy]; simpa using hyk)
    rw [List.find?_append, List.find?_cons_of_neg (by simpa using hx), List.find?_append,
      List.find?_append, hmid', Option.or_none]

end

end Srcd.Library
