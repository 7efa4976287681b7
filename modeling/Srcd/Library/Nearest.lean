import Mathlib

/-! # Bounded sorted insertion

A list that keeps the `k` elements of least key seen so far: binary search finds where a new
element goes, the element is put there and the list is cut back to `k`. `search` is the binary
search of Go's `sort.Search`; on a predicate that holds on a suffix of `[0, n)` it finds the start
of the suffix. `KLeast key k L R` says that `R` lists, in order of key, `k` elements of `L` (all of
them if `L` is shorter) none of which has a larger key than an element of `L` left out;
`KLeast.insert` is the step: inserting in order and cutting back keeps it.
-/

namespace Srcd.Library
set_option autoImplicit false

/-! ## Binary search -/

/-- The loop of `sort.Search` on `[i, j)`. -/
def searchFrom (f : ℕ → Bool) (i j : ℕ) : ℕ :=
  if hij : i < j then
    let h := (i + j) / 2
    if !f h then searchFrom f (h + 1) j else searchFrom f i h
  else i
termination_by j - i
decreasing_by all_goals omega

/-- `sort.Search(n, f)`. -/
def search (n : ℕ) (f : ℕ → Bool) : ℕ := searchFrom f 0 n

section
variable {f : ℕ → Bool} {n : ℕ}

/-- The loop keeps `f` false below `i` and true from `j` on; it stops at `i = j`. -/
theorem searchFrom_spec (hmono : ∀ a b, a ≤ b → b < n → f a = true → f b = true) {i j : ℕ}
    (hij : i ≤ j) (hjn : j ≤ n) (hlo : ∀ m < i, f m = false)
    (hhi : ∀ m, j ≤ m → m < n → f m = true) :
    searchFrom f i j ≤ n ∧ (∀ m < searchFrom f i j, f m = false) ∧
      (searchFrom f i j < n → f (searchFrom f i j) = true) := by
  fun_induction searchFrom f i j with
  | case1 i j hlt h hf ih =>
    simp only [Bool.not_eq_true'] at hf
    refine ih (by omega) hjn (fun m hm => ?_) hhi
    by_cases hmi : m < i
    · exact hlo m hmi
    · cases hfm : f m
      · rfl
      · have := hmono m ((i + j) / 2) (by omega) (by omega) hfm
        rw [hf] at this
        exact absurd this (by simp)
  | case2 i j hlt h hf ih =>
    simp only [Bool.not_eq_true, Bool.not_eq_false'] at hf
    exact ih (by omega) (by omega) hlo fun m hm hmn => hmono _ m hm hmn hf
  | case3 i j hge =>
    exact ⟨by omega, hlo, fun hin => hhi i (by omega) hin⟩

/-- `sort.Search` on a predicate that holds on a suffix of `[0, n)` finds where the suffix starts. -/
theorem search_spec (hmono : ∀ a b, a ≤ b → b < n → f a = true → f b = true) :
    search n f ≤ n ∧ (∀ m < search n f, f m = false) ∧
      (search n f < n → f (search n f) = true) :=
  searchFrom_spec hmono (Nat.zero_le n) (Nat.le_refl n) (fun _ h => absurd h (Nat.not_lt_zero _))
    fun _ h₁ h₂ => absurd h₂ (Nat.not_lt.mpr h₁)

end

/-! ## The `k` least elements -/

section
variable {α β : Type} [LinearOrder β] (key : α → β)

/-- `R` is, in order of key, the `k` elements of `L` with the least keys (all of `L` if it is
shorter): what is left out, `D`, has no key below one of `R`. -/
structure KLeast (k : ℕ) (L R : List α) : Prop where
  sorted : R.Pairwise fun a b => key a ≤ key b
  length_eq : R.length = min k L.length
  rest : ∃ D, (R ++ D).Perm L ∧ ∀ x ∈ R, ∀ y ∈ D, key x ≤ key y

theorem kLeast_nil (k : ℕ) : KLeast key k [] [] :=
  ⟨List.Pairwise.nil, by simp, ⟨[], List.Perm.refl _, by simp⟩⟩

variable {key}

theorem KLeast.subset {k : ℕ} {L R : List α} (h : KLeast key k L R) : ∀ x ∈ R, x ∈ L := by
  obtain ⟨D, hRD, -⟩ := h.rest
  exact fun x hx => hRD.subset (List.mem_append_left D hx)

/-- Putting `n` after the elements of key at most its own and before those of larger key keeps a
sorted list sorted, and adds `n` to it. -/
theorem pairwise_insert_of_bounds {l : List α} {n : α} {ix : ℕ}
    (hl : l.Pairwise fun a b => key a ≤ key b) (hlo : ∀ x ∈ l.take ix, key x ≤ key n)
    (hhi : ∀ y ∈ l.drop ix, key n < key y) :
    (l.take ix ++ n :: l.drop ix).Pairwise (fun a b => key a ≤ key b) ∧
      (l.take ix ++ n :: l.drop ix).Perm (n :: l) := by
  have hsplit := List.take_append_drop ix l
  have hparts := hsplit ▸ hl
  rw [List.pairwise_append] at hparts
  obtain ⟨htake, hdrop, hcross⟩ := hparts
  refine ⟨?_, ?_⟩
  · rw [List.pairwise_append]
    refine ⟨htake, List.pairwise_cons.mpr ⟨fun y hy => le_of_lt (hhi y hy), hdrop⟩, ?_⟩
    intro x hx y hy
    rcases List.mem_cons.mp hy with rfl | hy
    · exact hlo x hx
    · exact hcross x hx y hy
  · exact List.perm_middle.trans (List.Perm.of_eq (by rw [hsplit]))

/-- The step of a bounded sorted list: after `n` is inserted in order into the `k` least of `L`,
the first `k` are the `k` least of `L ++ [n]`. -/
theorem KLeast.insert {k : ℕ} {L R S : List α} {n : α} (h : KLeast key k L R)
    (hS : S.Pairwise fun a b => key a ≤ key b) (hperm : S.Perm (n :: R)) :
    KLeast key k (L ++ [n]) (S.take (min k (R.length + 1))) := by
  obtain ⟨D, hRD, hnear⟩ := h.rest
  have hlenS : S.length = R.length + 1 := by simpa using hperm.length_eq
  have hlenL : L.length = R.length + D.length := by simpa using hRD.length_eq.symm
  have hR := h.length_eq
  refine ⟨hS.sublist (List.take_sublist _ _), ?_, ⟨S.drop (min k (R.length + 1)) ++ D, ?_, ?_⟩⟩
  · simp only [List.length_take, List.length_append, List.length_singleton, hlenS]
    omega
  · -- what is kept and what is cut off make up `S`, which is `n` and `R`
    rw [← List.append_assoc, List.take_append_drop]
    exact (hperm.append_right D).trans ((hRD.cons n).trans (List.perm_append_singleton n L).symm)
  · intro x hx y hy
    rcases List.mem_append.mp hy with hy | hy
    · exact hS.rel_of_mem_take_of_mem_drop hx hy
    · -- something was left out of `L`, so `R` was full and one element of `S` is cut off
      have hfull : R.length = k := by
        have : 0 < D.length := List.length_pos_of_mem hy
        omega
      have hcut : min k (R.length + 1) = k := by omega
      rw [hcut] at hx
      obtain ⟨z, hz⟩ : ∃ z, S.drop k = [z] := List.length_eq_one_iff.mp (by simp; omega)
      have hxz : key x ≤ key z := hS.rel_of_mem_take_of_mem_drop hx (by simp [hz])
      have hSz : (S.take k ++ [z]).Perm (n :: R) := by rw [← hz, List.take_append_drop]; exact hperm
      have hzmem : z ∈ n :: R := hSz.subset (List.mem_append_right _ (List.mem_singleton_self z))
      rcases List.mem_cons.mp hzmem with rfl | hzR
      · -- the element cut off is `n`, so what is kept is `R`
        have hkept : (S.take k).Perm R :=
          (List.perm_cons z).mp ((List.perm_append_singleton z _).symm.trans hSz)
        exact hnear x (hkept.subset hx) y hy
      · exact le_trans hxz (hnear z hzR y hy)

end

end Srcd.Library
