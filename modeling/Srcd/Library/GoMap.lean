import Mathlib

/-! # Go maps that a loop visits

A Go map that a `range` loop visits is a list of bindings, one for each key, in the order the
loop visits them; Go picks that order at random, and a model that fixes one covers that run.
Writing a bound key keeps its place; writing a new key binds it last. Reading a missing key
gives the zero value, which the callers pass.
-/

namespace Srcd.Library
set_option autoImplicit false

abbrev GoMap (κ ν : Type) := List (κ × ν)

namespace GoMap
variable {κ ν : Type}

/-- The map with every value sent through `g`, in the same order. -/
def mapVal {μ : Type} (g : ν → μ) (m : GoMap κ ν) : GoMap κ μ := m.map fun b => (b.1, g b.2)

@[simp] theorem mapVal_cons {μ : Type} (g : ν → μ) (b : κ × ν) (m : GoMap κ ν) :
    mapVal g (b :: m) = (b.1, g b.2) :: mapVal g m := rfl

variable [DecidableEq κ]

def get? (m : GoMap κ ν) (k : κ) : Option ν := (m.find? fun b => b.1 = k).map Prod.snd

/-- `m[k]`, the zero value `z` for a missing key. -/
def getD (m : GoMap κ ν) (k : κ) (z : ν) : ν := (m.get? k).getD z

/-- `m[k] = v`. -/
def set (m : GoMap κ ν) (k : κ) (v : ν) : GoMap κ ν :=
  if m.any (fun b => b.1 = k) then m.map fun b => if b.1 = k then (k, v) else b else m ++ [(k, v)]

/-- `delete(m, k)`. -/
def delete (m : GoMap κ ν) (k : κ) : GoMap κ ν := m.filter fun b => b.1 ≠ k

def contains (m : GoMap κ ν) (k : κ) : Bool := m.any fun b => b.1 = k

@[simp] theorem get?_nil (k : κ) : get? ([] : GoMap κ ν) k = none := rfl

theorem get?_cons (b : κ × ν) (m : GoMap κ ν) (k : κ) :
    get? (b :: m) k = if b.1 = k then some b.2 else m.get? k := by
  by_cases h : b.1 = k <;> simp [get?, h]

theorem get?_append_of_none {m : GoMap κ ν} {k : κ} (h : m.get? k = none) (m' : GoMap κ ν) :
    get? (m ++ m') k = m'.get? k := by
  induction m with
  | nil => rfl
  | cons b m ih =>
    rw [get?_cons] at h
    split at h
    · cases h
    · rw [List.cons_append, get?_cons, if_neg ‹_›, ih h]

theorem get?_eq_none_iff {m : GoMap κ ν} {k : κ} : m.get? k = none ↔ ∀ b ∈ m, b.1 ≠ k := by
  simp [get?, List.find?_eq_none]

theorem get?_eq_none {m : GoMap κ ν} {k : κ} (h : ∀ b ∈ m, b.1 ≠ k) : m.get? k = none :=
  get?_eq_none_iff.mpr h

theorem mem_of_get?_eq_some {m : GoMap κ ν} {k : κ} {v : ν} (h : m.get? k = some v) :
    (k, v) ∈ m := by
  obtain ⟨b, hb, rfl⟩ := Option.map_eq_some_iff.mp h
  have hk : b.1 = k := by simpa using List.find?_some hb
  rw [← hk]
  exact List.mem_of_find?_eq_some hb

theorem contains_eq_false_iff {m : GoMap κ ν} {k : κ} :
    m.contains k = false ↔ ∀ b ∈ m, b.1 ≠ k := by
  simp [contains]

/-! ### `set`, one binding at a time -/

@[simp] theorem set_nil (k : κ) (v : ν) : GoMap.set [] k v = [(k, v)] := rfl

theorem set_cons_of_ne {b : κ × ν} {k : κ} (hb : b.1 ≠ k) (m : GoMap κ ν) (v : ν) :
    GoMap.set (b :: m) k v = b :: GoMap.set m k v := by
  unfold set
  by_cases hm : m.any (fun b => decide (b.1 = k)) = true <;> simp [hm, hb]

theorem set_cons_of_eq {b : κ × ν} {k : κ} (hb : b.1 = k) (m : GoMap κ ν) (v : ν) :
    GoMap.set (b :: m) k v = (k, v) :: m.map fun b => if b.1 = k then (k, v) else b := by
  simp [set, hb]

/-- Replacing the bindings of `k` leaves the other keys as they were. -/
theorem get?_map_replace (m : GoMap κ ν) {k k' : κ} (h : k' ≠ k) (v : ν) :
    get? (m.map fun b => if b.1 = k then (k, v) else b) k' = m.get? k' := by
  induction m with
  | nil => rfl
  | cons b m ih =>
    rw [List.map_cons, get?_cons, get?_cons, ih]
    by_cases hb : b.1 = k
    · simp [hb, Ne.symm h]
    · simp [hb]

theorem get?_set_self (m : GoMap κ ν) (k : κ) (v : ν) : (m.set k v).get? k = some v := by
  induction m with
  | nil => simp [get?]
  | cons b m ih =>
    by_cases hb : b.1 = k
    · rw [set_cons_of_eq hb, get?_cons, if_pos rfl]
    · rw [set_cons_of_ne hb, get?_cons, if_neg hb, ih]

theorem get?_set_ne (m : GoMap κ ν) {k k' : κ} (h : k' ≠ k) (v : ν) :
    (m.set k v).get? k' = m.get? k' := by
  induction m with
  | nil => simp [get?, Ne.symm h]
  | cons b m ih =>
    by_cases hb : b.1 = k
    · rw [set_cons_of_eq hb, get?_cons, if_neg (Ne.symm h), get?_map_replace m h, get?_cons,
        if_neg (hb ▸ Ne.symm h)]
    · rw [set_cons_of_ne hb, get?_cons, get?_cons, ih]

theorem set_set_self (m : GoMap κ ν) (k : κ) (v : ν) : (m.set k v).set k v = m.set k v := by
  induction m with
  | nil => simp [set]
  | cons b m ih =>
    by_cases hb : b.1 = k
    · rw [set_cons_of_eq hb, set_cons_of_eq rfl, List.map_map]
      congr 1
      apply List.map_congr_left
      intro c _
      by_cases hc : c.1 = k <;> simp [hc]
    · rw [set_cons_of_ne hb, set_cons_of_ne hb, ih]

/-- A binding of the written map was there before, or is the one written. -/
theorem mem_set {m : GoMap κ ν} {k : κ} {v : ν} {b : κ × ν} (hb : b ∈ m.set k v) :
    b ∈ m ∨ b = (k, v) := by
  induction m with
  | nil => simpa using hb
  | cons c m ih =>
    by_cases hc : c.1 = k
    · rw [set_cons_of_eq hc] at hb
      rcases List.mem_cons.mp hb with rfl | hb
      · exact .inr rfl
      · obtain ⟨d, hd, rfl⟩ := List.mem_map.mp hb
        by_cases hdk : d.1 = k
        · simp [hdk]
        · simp only [hdk, if_false]
          exact .inl (List.mem_cons_of_mem c hd)
    · rw [set_cons_of_ne hc] at hb
      rcases List.mem_cons.mp hb with rfl | hb
      · exact .inl List.mem_cons_self
      · exact (ih hb).imp_left (List.mem_cons_of_mem c)

/-- Writing a key that is not bound appends it. -/
theorem set_of_not_contains {m : GoMap κ ν} {k : κ} (h : m.contains k = false) (v : ν) :
    m.set k v = m ++ [(k, v)] := by
  simp only [contains] at h
  simp [set, h]

/-- Writing the key of the last binding, bound nowhere else, replaces it in place. -/
theorem set_append_last {m : GoMap κ ν} {k : κ} (h : ∀ b ∈ m, b.1 ≠ k) (v₀ v : ν) :
    (m ++ [(k, v₀)]).set k v = m ++ [(k, v)] := by
  induction m with
  | nil => simp [set_cons_of_eq]
  | cons b m ih =>
    rw [List.cons_append, set_cons_of_ne (h b List.mem_cons_self),
      ih fun c hc => h c (List.mem_cons_of_mem b hc), List.cons_append]

/-! ### `contains` -/

theorem contains_eq_isSome (m : GoMap κ ν) (k : κ) : m.contains k = (m.get? k).isSome := by
  cases h : m.get? k with
  | none => exact contains_eq_false_iff.2 (get?_eq_none_iff.1 h)
  | some v =>
    simp only [contains, Option.isSome_some, List.any_eq_true, decide_eq_true_eq]
    exact ⟨(k, v), mem_of_get?_eq_some h, rfl⟩

theorem contains_set_self (m : GoMap κ ν) (k : κ) (v : ν) : (m.set k v).contains k = true := by
  rw [contains_eq_isSome, get?_set_self]
  rfl

theorem contains_set_ne (m : GoMap κ ν) {k k' : κ} (h : k' ≠ k) (v : ν) :
    (m.set k v).contains k' = m.contains k' := by
  rw [contains_eq_isSome, contains_eq_isSome, get?_set_ne m h]

/-- A write keeps every key bound. -/
theorem contains_set_of_contains {m : GoMap κ ν} {k' : κ} (h : m.contains k' = true) (k : κ) (v : ν) :
    (m.set k v).contains k' = true := by
  by_cases hk : k' = k
  · subst hk
    exact contains_set_self m k' v
  · rw [contains_set_ne m hk]
    exact h

/-! ### `delete` -/

theorem keys_nodup_delete {m : GoMap κ ν} (hm : (m.map Prod.fst).Nodup) (k : κ) :
    ((m.delete k).map Prod.fst).Nodup :=
  hm.sublist ((List.filter_sublist).map Prod.fst)

/-- Deleting a key bound once leaves the other bindings. -/
theorem delete_perm {m l : GoMap κ ν} {k : κ} {v : ν} (hm : (m.map Prod.fst).Nodup)
    (hp : m.Perm ((k, v) :: l)) : (m.delete k).Perm l := by
  have hkl : ∀ b ∈ l, b.1 ≠ k := by
    have hnd := (hp.map Prod.fst).nodup_iff.1 hm
    rw [List.map_cons, List.nodup_cons] at hnd
    intro b hb hbk
    apply hnd.1
    rw [← hbk]
    exact List.mem_map.2 ⟨b, hb, rfl⟩
  have hf := hp.filter fun b => decide (b.1 ≠ k)
  rw [List.filter_cons_of_neg (by simp), (List.filter_eq_self (l := l)).2 (by simpa using hkl)] at hf
  exact hf

theorem get?_mapVal {μ : Type} (g : ν → μ) (m : GoMap κ ν) (k : κ) :
    (m.mapVal g).get? k = (m.get? k).map g := by
  induction m with
  | nil => rfl
  | cons b m ih =>
    rw [mapVal_cons, get?_cons, get?_cons, ih]
    split <;> rfl

theorem mapVal_set {μ : Type} (g : ν → μ) (m : GoMap κ ν) (k : κ) (v : ν) :
    (m.set k v).mapVal g = (m.mapVal g).set k (g v) := by
  induction m with
  | nil => rfl
  | cons b m ih =>
    by_cases hb : b.1 = k
    · have hb' : (b.1, g b.2).1 = k := hb
      rw [set_cons_of_eq hb, mapVal_cons, mapVal_cons, set_cons_of_eq hb', mapVal, mapVal,
        List.map_map, List.map_map]
      congr 1
      apply List.map_congr_left
      intro c _
      by_cases hc : c.1 = k <;> simp [hc]
    · have hb' : (b.1, g b.2).1 ≠ k := hb
      rw [set_cons_of_ne hb, mapVal_cons, ih, mapVal_cons, set_cons_of_ne hb']

end GoMap

/-! ## A `range` loop that one key moves -/

end Srcd.Library
