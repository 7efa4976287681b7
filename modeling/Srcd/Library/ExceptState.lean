import Mathlib

/-! # Methods that change their receiver and may fail

`ExceptT ε (StateM σ)` models a method on a receiver of type `σ` that returns an error of type
`ε` or a result: the state reached is kept when the method fails, as it is for a pointer
receiver in Go. The lemmas below run such methods on a given state: each combinator is
reduced once its argument's run is known, so that proofs about a program step through it
without unfolding the monad stack.
-/

namespace Srcd.Library
set_option autoImplicit false

section
variable {ε σ α β : Type}

/-- Running a method on a receiver: its result or its error, and the receiver afterwards. -/
def exec (m : ExceptT ε (StateM σ) α) (s : σ) : Except ε α × σ := m.run.run s

@[simp] theorem exec_pure (a : α) (s : σ) :
    exec (pure a : ExceptT ε (StateM σ) α) s = (.ok a, s) := rfl

@[simp] theorem exec_throw (e : ε) (s : σ) :
    exec (throw e : ExceptT ε (StateM σ) α) s = (.error e, s) := rfl

@[simp] theorem exec_get (s : σ) : exec (get : ExceptT ε (StateM σ) σ) s = (.ok s, s) := rfl

@[simp] theorem exec_set (s s' : σ) :
    exec (set s' : ExceptT ε (StateM σ) PUnit) s = (.ok ⟨⟩, s') := rfl

@[simp] theorem exec_modify (f : σ → σ) (s : σ) :
    exec (modify f : ExceptT ε (StateM σ) PUnit) s = (.ok ⟨⟩, f s) := rfl

/-- Running a method and returning its error as a value never fails. -/
@[simp] theorem exec_lift_run (m : ExceptT ε (StateM σ) α) (s : σ) :
    exec (ExceptT.lift m.run : ExceptT ε (StateM σ) (Except ε α)) s =
      (.ok (exec m s).1, (exec m s).2) := rfl

theorem exec_bind_of_ok {m : ExceptT ε (StateM σ) α} {f : α → ExceptT ε (StateM σ) β}
    {s s' : σ} {a : α} (h : exec m s = (.ok a, s')) :
    exec (m >>= f) s = exec (f a) s' := by
  simp only [exec, ExceptT.run_bind, StateT.run_bind] at h ⊢
  rw [h]
  rfl

theorem exec_bind_of_error {m : ExceptT ε (StateM σ) α} {f : α → ExceptT ε (StateM σ) β}
    {s s' : σ} {e : ε} (h : exec m s = (.error e, s')) :
    exec (m >>= f) s = (.error e, s') := by
  simp only [exec, ExceptT.run_bind, StateT.run_bind] at h ⊢
  rw [h]
  rfl

theorem exec_tryCatch_of_ok {m : ExceptT ε (StateM σ) α} {handler : ε → ExceptT ε (StateM σ) α}
    {s s' : σ} {a : α} (h : exec m s = (.ok a, s')) :
    exec (tryCatch m handler) s = (.ok a, s') := by
  show exec (ExceptT.tryCatch m handler) s = _
  simp only [exec, ExceptT.tryCatch, ExceptT.run_mk, StateT.run_bind] at h ⊢
  erw [h]
  rfl

theorem exec_tryCatch_of_error {m : ExceptT ε (StateM σ) α}
    {handler : ε → ExceptT ε (StateM σ) α} {s s' : σ} {e : ε} (h : exec m s = (.error e, s')) :
    exec (tryCatch m handler) s = exec (handler e) s' := by
  show exec (ExceptT.tryCatch m handler) s = _
  simp only [exec, ExceptT.tryCatch, ExceptT.run_mk, StateT.run_bind] at h ⊢
  erw [h]
  rfl

/-- A method that cannot fail, then another on its result. -/
theorem stateM_run_bind (x : StateM σ α) (f : α → StateM σ β) (s : σ) :
    (x >>= f).run s = (f (x.run s).1).run (x.run s).2 := rfl

/-- A method whose error is passed on through `f`. -/
@[simp] theorem exec_adapt {ε' : Type} (f : ε → ε') (m : ExceptT ε (StateM σ) α) (s : σ) :
    exec (ExceptT.adapt f m) s = ((exec m s).1.mapError f, (exec m s).2) := by
  simp only [exec, ExceptT.adapt, ExceptT.run_mk]
  rfl

/-! ## What a method returns

`Returns m P`: every value `m` returns, from any receiver, satisfies `P`. The rules follow the
combinators, so that a property of a method's result is proved from properties of the results
of the methods it calls, without running them.
-/

def Returns (m : ExceptT ε (StateM σ) α) (P : α → Prop) : Prop :=
  ∀ s a s', exec m s = (.ok a, s') → P a

theorem Returns.pure {a : α} {P : α → Prop} (h : P a) :
    Returns (pure a : ExceptT ε (StateM σ) α) P := by
  intro s b s' hrun
  cases hrun
  exact h

theorem Returns.throw {e : ε} {P : α → Prop} : Returns (throw e : ExceptT ε (StateM σ) α) P := by
  intro s b s' hrun
  cases hrun

theorem Returns.of_forall {m : ExceptT ε (StateM σ) α} {P : α → Prop} (h : ∀ a, P a) :
    Returns m P :=
  fun _ a _ _ => h a

theorem Returns.bind {m : ExceptT ε (StateM σ) α} {f : α → ExceptT ε (StateM σ) β}
    {P : α → Prop} {Q : β → Prop} (hm : Returns m P) (hf : ∀ a, P a → Returns (f a) Q) :
    Returns (m >>= f) Q := by
  intro s b s'' hrun
  rcases hfirst : exec m s with ⟨_ | a, s'⟩
  · rw [exec_bind_of_error hfirst] at hrun
    cases hrun
  · rw [exec_bind_of_ok hfirst] at hrun
    exact hf a (hm s a s' hfirst) s' b s'' hrun

/-- A method whose first call returns anything: only what follows it counts. -/
theorem Returns.bind_any {m : ExceptT ε (StateM σ) α} {f : α → ExceptT ε (StateM σ) β}
    {Q : β → Prop} (hf : ∀ a, Returns (f a) Q) : Returns (m >>= f) Q :=
  Returns.bind (Returns.of_forall fun _ => trivial : Returns m fun _ => True) fun a _ => hf a

theorem Returns.tryCatch {m : ExceptT ε (StateM σ) α} {handler : ε → ExceptT ε (StateM σ) α}
    {P : α → Prop} (hm : Returns m P) (hh : ∀ e, Returns (handler e) P) :
    Returns (tryCatch m handler) P := by
  intro s a s'' hrun
  rcases hfirst : exec m s with ⟨e | b, s'⟩
  · rw [exec_tryCatch_of_error hfirst] at hrun
    exact hh e s' a s'' hrun
  · rw [exec_tryCatch_of_ok hfirst] at hrun
    exact hm s a s'' (hfirst.trans hrun)

/-- A method that cannot fail, called from one that can. -/
theorem Returns.lift {m : StateM σ α} {P : α → Prop} (h : ∀ s, P (m.run s).1) :
    Returns (liftM m : ExceptT ε (StateM σ) α) P := by
  intro s a s' hrun
  cases hrun
  exact h s

theorem Returns.ite {c : Prop} [Decidable c] {m₁ m₂ : ExceptT ε (StateM σ) α} {P : α → Prop}
    (h₁ : c → Returns m₁ P) (h₂ : ¬ c → Returns m₂ P) : Returns (if c then m₁ else m₂) P := by
  by_cases hc : c
  · rw [if_pos hc]
    exact h₁ hc
  · rw [if_neg hc]
    exact h₂ hc

/-! ## Functions that may fail -/

@[simp] theorem except_ok_bind (a : α) (f : α → Except ε β) : (Except.ok a >>= f) = f a := rfl

@[simp] theorem except_error_bind (e : ε) (f : α → Except ε β) :
    (Except.error e >>= f : Except ε β) = .error e := rfl

@[simp] theorem except_map_ok (a : α) (f : α → β) : (Except.ok a : Except ε α).map f = .ok (f a) :=
  rfl

theorem except_map_eq_ok {x : Except ε α} {f : α → β} {b : β} (h : x.map f = .ok b) :
    ∃ a, x = .ok a ∧ f a = b := by
  cases x with
  | error e => cases h
  | ok a => exact ⟨a, rfl, Except.ok.inj h⟩

theorem except_bind_eq_ok {x : Except ε α} {f : α → Except ε β} {b : β} :
    (x >>= f) = .ok b ↔ ∃ a, x = .ok a ∧ f a = .ok b := by
  cases x with
  | error e => simp
  | ok a => simp

/-- `mapM` of a function that succeeds on every element. -/
theorem except_mapM_eq_ok_map {f : α → Except ε β} {g : α → β} :
    ∀ {L : List α}, (∀ x ∈ L, f x = .ok (g x)) → L.mapM f = .ok (L.map g)
  | [], _ => rfl
  | x :: L, h => by
    rw [List.mapM_cons, h x List.mem_cons_self,
      except_mapM_eq_ok_map fun y hy => h y (List.mem_cons_of_mem x hy)]
    rfl

@[simp] theorem except_mapError_eq_ok {ε' : Type} {x : Except ε α} {f : ε → ε'} {a : α} :
    x.mapError f = .ok a ↔ x = .ok a := by
  cases x <;> simp [Except.mapError]

end

end Srcd.Library
