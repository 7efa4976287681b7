import Mathlib

/-! # Maps written by puts and erasures

A map from keys to optional values changes by writes: `put k v` binds `k` to `v` and `erase k`
unbinds it. After a sequence of writes a key holds what the last write to it left, or what it
held before when no write touched it (`foldl_apply`).
-/

namespace Srcd.Library
set_option autoImplicit false

inductive MapOp (κ ν : Type) where
  | put (k : κ) (v : ν)
  | erase (k : κ)
  deriving DecidableEq, Repr

namespace MapOp
variable {κ ν : Type}

/-- The key a write touches. -/
def key : MapOp κ ν → κ
  | put k _ => k
  | erase k => k

/-- What a write leaves under its key. -/
def written : MapOp κ ν → Option ν
  | put _ v => some v
  | erase _ => none

variable [DecidableEq κ]

def apply (m : κ → Option ν) (op : MapOp κ ν) : κ → Option ν :=
  Function.update m op.key op.written

/-- What `k` holds after `ops`: what the last write to `k` left, else what `m` held. -/
def lastWrite (m : κ → Option ν) (ops : List (MapOp κ ν)) (k : κ) : Option ν :=
  match (ops.filter fun op => op.key = k).getLast? with
  | some op => op.written
  | none => m k

theorem lastWrite_cons (m : κ → Option ν) (op : MapOp κ ν) (ops : List (MapOp κ ν)) (k : κ) :
    lastWrite m (op :: ops) k = lastWrite (apply m op) ops k := by
  unfold lastWrite
  rcases hl : (ops.filter fun op => op.key = k).getLast? with _ | op'
  · -- no later write to `k`: the first write decides
    rw [List.getLast?_eq_none_iff] at hl
    rw [List.filter_cons, hl]
    by_cases hk : op.key = k
    · subst hk
      simp [apply]
    · simp [hk, apply, Function.update_of_ne (Ne.symm hk)]
  · rw [List.filter_cons]
    by_cases hk : op.key = k <;> simp [hk, List.getLast?_cons, hl]

/-- A key holds a value some write left, or the value it held before. -/
theorem lastWrite_eq_some {m : κ → Option ν} {ops : List (MapOp κ ν)} {k : κ} {v : ν}
    (h : lastWrite m ops k = some v) : m k = some v ∨ ∃ op ∈ ops, op.written = some v := by
  unfold lastWrite at h
  split at h
  · next op hl =>
    exact .inr ⟨op, (List.mem_filter.mp (List.mem_of_getLast? hl)).1, h⟩
  · exact .inl h

/-- A key that some write touches, and that every write to it leaves as `x`, holds `x`. -/
theorem lastWrite_of_forall (m : κ → Option ν) {ops : List (MapOp κ ν)} {k : κ} {x : Option ν}
    (hmem : ∃ op ∈ ops, op.key = k) (hall : ∀ op ∈ ops, op.key = k → op.written = x) :
    lastWrite m ops k = x := by
  unfold lastWrite
  split
  · next op hl =>
    obtain ⟨hop, hk⟩ := List.mem_filter.mp (List.mem_of_getLast? hl)
    exact hall op hop (of_decide_eq_true hk)
  · next hl =>
    obtain ⟨op, hop, hk⟩ := hmem
    rw [List.getLast?_eq_none_iff, List.filter_eq_nil_iff] at hl
    exact absurd (decide_eq_true hk) (hl op hop)

theorem foldl_apply (m : κ → Option ν) (ops : List (MapOp κ ν)) (k : κ) :
    ops.foldl apply m k = lastWrite m ops k := by
  induction ops generalizing m with
  | nil => rfl
  | cons op ops ih => rw [List.foldl_cons, ih, lastWrite_cons]

end MapOp

end Srcd.Library
