import Mathlib
import Srcd.P2p.Dial

/-! # What the dial scheduler keeps

`expire` takes off exactly the entries of the dial history that expire before `now` and leaves a
heap. `newTasks` dials only nodes that `checkDial` lets through in the state it starts from, each
once, writes each into `dialing` as it makes its task, starts a lookup only when none runs, and
makes no more dynamic dials than are needed. Over every run of the task loop of `Server.run`,
whatever the events, `dialing` holds exactly the dial tasks that run or wait, so no node is dialed
twice at a time; one lookup runs or waits while `lookupRunning` is set and none otherwise; the
dial history stays a heap; and at most `maxActiveDialTasks` tasks run.
-/

namespace Srcd.P2p
open Srcd.Library
set_option autoImplicit false

variable {I : Type}

/-- The dial task of a task, if it is one. -/
def Task.dialTask? : Task I → Option (DialTask I)
  | .dial t => some t
  | _ => none

def Task.isDiscover : Task I → Bool
  | .discover _ => true
  | _ => false

/-- The dial tasks among `ts`. -/
def dialTasks (ts : List (Task I)) : List (DialTask I) := ts.filterMap Task.dialTask?

/-- The binding a dial task writes into `dialing`. -/
def DialTask.binding (t : DialTask I) : I × ConnFlag := (t.dest.id, t.flags)

@[simp] theorem dialTasks_nil : dialTasks ([] : List (Task I)) = [] := rfl

@[simp] theorem dialTasks_append (ts ts' : List (Task I)) :
    dialTasks (ts ++ ts') = dialTasks ts ++ dialTasks ts' := List.filterMap_append

@[simp] theorem dialTasks_dial (t : DialTask I) (ts : List (Task I)) :
    dialTasks (.dial t :: ts) = t :: dialTasks ts := rfl

@[simp] theorem dialTasks_discover (results : List (Node I)) (ts : List (Task I)) :
    dialTasks (.discover results :: ts) = dialTasks ts := rfl

@[simp] theorem dialTasks_waitExpire (d : ℤ) (ts : List (Task I)) :
    dialTasks (.waitExpire d :: ts) = dialTasks ts := rfl

@[simp] theorem isDiscover_discover (results : List (Node I)) :
    (Task.discover results).isDiscover = true := rfl

@[simp] theorem isDiscover_dial (t : DialTask I) : (Task.dial t).isDiscover = false := rfl

@[simp] theorem isDiscover_waitExpire (d : ℤ) : (Task.waitExpire d : Task I).isDiscover = false := rfl

theorem less_eq_decide (a b : PastDial I) : PastDial.less a b = decide (a.exp < b.exp) := rfl

/-! ## The dial history -/

namespace DialHistory

theorem min_eq_some {h : DialHistory I} {m : PastDial I} (hm : h.min = some m) :
    ∃ hne : 0 < h.length, h[0] = m := by
  have hne : 0 < h.length := List.length_pos_of_ne_nil fun h0 => by simp [h0, min] at hm
  exact ⟨hne, by simpa [min, List.head?_eq_getElem?, hne] using hm⟩

/-- `expire` leaves a heap of exactly the entries that do not expire before `now`. -/
theorem expire_spec {h : DialHistory I} (hh : Heap.IsHeap PastDial.less h) (now : ℤ) :
    Heap.IsHeap PastDial.less (h.expire now) ∧
      (h.expire now).Perm (h.filter fun e => ¬ e.exp < now) := by
  fun_induction expire h now with
  | case1 h m hm hlt x h' hp ih =>
    obtain ⟨hne, hm0⟩ := min_eq_some hm
    obtain ⟨h'', hpop, hh'', hperm⟩ := Heap.IsHeap.pop less_eq_decide hh hne
    rw [hp] at hpop
    obtain ⟨rfl, rfl⟩ := Prod.mk.inj (Option.some_injective _ hpop)
    obtain ⟨ihh, ihp⟩ := ih hh''
    have hfilter := hperm.filter fun e => ¬ e.exp < now
    rw [List.filter_cons_of_neg (by simpa [hm0] using hlt)] at hfilter
    exact ⟨ihh, ihp.trans hfilter⟩
  | case2 h m hm hlt hp =>
    obtain ⟨hne, -⟩ := min_eq_some hm
    obtain ⟨h'', hpop, -⟩ := Heap.IsHeap.pop less_eq_decide hh hne
    rw [hp] at hpop
    cases hpop
  | case3 h m hm hlt =>
    obtain ⟨hne, hm0⟩ := min_eq_some hm
    refine ⟨hh, ?_⟩
    rw [List.filter_eq_self.2]
    intro e he
    have hle := Heap.IsHeap.root_least less_eq_decide hh hne he
    rw [hm0] at hle
    simp only [decide_eq_true_eq, not_lt]
    exact le_trans (not_lt.1 hlt) hle
  | case4 h hm =>
    refine ⟨hh, ?_⟩
    have h0 : h = [] := by simpa [min] using hm
    simp [h0]

example :
    Heap.IsHeap PastDial.less ([⟨1, 5⟩, ⟨2, 9⟩] : DialHistory ℕ) ∧
      (Heap.IsHeap PastDial.less (expire ([⟨1, 5⟩, ⟨2, 9⟩] : DialHistory ℕ) 7) ∧
        (expire ([⟨1, 5⟩, ⟨2, 9⟩] : DialHistory ℕ) 7).Perm
          (([⟨1, 5⟩, ⟨2, 9⟩] : DialHistory ℕ).filter fun e => ¬ e.exp < 7)) :=
  ⟨by decide, expire_spec (by decide) 7⟩

end DialHistory

/-! ## `newTasks` -/

namespace DialState
variable [DecidableEq I]

theorem checkDial_eq_none_iff {s : DialState I} {n : Node I} {peers : GoMap I ConnFlag} :
    s.checkDial n peers = none ↔
      s.dialing.contains n.id = false ∧ peers.contains n.id = false ∧ s.self ≠ some n.id ∧
        (s.netrestrict.any fun l => !netlistContains l n.ip) = false ∧
        s.hist.contains n.id = false := by
  unfold checkDial
  split_ifs <;> simp_all

/-- A check that passes after more dials passes before them. -/
theorem checkDial_of_append {s s' : DialState I} {n : Node I} {peers : GoMap I ConnFlag}
    (hself : s'.self = s.self) (hnet : s'.netrestrict = s.netrestrict) (hhist : s'.hist = s.hist)
    {l : GoMap I ConnFlag} (hdial : s'.dialing = s.dialing ++ l)
    (h : s'.checkDial n peers = none) : s.checkDial n peers = none := by
  rw [checkDial_eq_none_iff] at h ⊢
  obtain ⟨hd, hp, hs, hn, hh⟩ := h
  rw [hdial, GoMap.contains, List.any_append, Bool.or_eq_false_iff] at hd
  refine ⟨hd.1, hp, ?_, ?_, ?_⟩
  · rwa [← hself]
  · rwa [← hnet]
  · rwa [← hhist]

/-- What the static nodes keep: each is filed under its own ID, with the static flag. -/
def StaticOk (static : GoMap I (DialTask I)) : Prop :=
  ∀ b ∈ static, b.2.dest.id = b.1 ∧ b.2.flags = staticDialedConn

instance (static : GoMap I (DialTask I)) : Decidable (StaticOk static) :=
  inferInstanceAs (Decidable (∀ b ∈ static, b.2.dest.id = b.1 ∧ b.2.flags = staticDialedConn))

/-- What the dial passes of `newTasks` keep, against the state `s₀` they start from. -/
structure PassInv (s₀ : DialState I) (peers : GoMap I ConnFlag) (p : Pass I) : Prop where
  dialing : p.s.dialing = s₀.dialing ++ (dialTasks p.tasks).map DialTask.binding
  keys : (p.s.dialing.map Prod.fst).Nodup
  checked : ∀ t ∈ dialTasks p.tasks, s₀.checkDial t.dest peers = none
  no_lookup : p.tasks.countP Task.isDiscover = 0
  self : p.s.self = s₀.self
  netrestrict : p.s.netrestrict = s₀.netrestrict
  hist : p.s.hist = s₀.hist
  lookupRunning : p.s.lookupRunning = s₀.lookupRunning
  static : StaticOk p.s.static
  budget : p.need + ((dialTasks p.tasks).filter fun t => isDyn t.flags).length = s₀.needDynDials peers

section PassInv
variable {s₀ : DialState I} {peers : GoMap I ConnFlag} {p : Pass I}

theorem PassInv.start (hkeys : (s₀.dialing.map Prod.fst).Nodup) (hstatic : StaticOk s₀.static) :
    PassInv s₀ peers ⟨s₀, [], s₀.needDynDials peers⟩ :=
  ⟨by simp, hkeys, by simp, rfl, rfl, rfl, rfl, rfl, hstatic, by simp⟩

/-- The one way a pass dials: a task for a node the check lets through, written into
`dialing`; a dynamic one uses up one of the dials needed. -/
theorem PassInv.dial (inv : PassInv s₀ peers p) {t : DialTask I}
    (hcheck : p.s.checkDial t.dest peers = none) :
    PassInv s₀ peers ⟨{ p.s with dialing := p.s.dialing.set t.dest.id t.flags },
      p.tasks ++ [.dial t], p.need - if isDyn t.flags then 1 else 0⟩ := by
  have hnew := (checkDial_eq_none_iff.1 hcheck).1
  rw [GoMap.set_of_not_contains hnew]
  rw [GoMap.contains_eq_false_iff] at hnew
  refine ⟨?_, ?_, ?_, ?_, inv.self, inv.netrestrict, inv.hist, inv.lookupRunning, inv.static, ?_⟩
  · simp [inv.dialing, DialTask.binding]
  · rw [List.map_append, List.nodup_append]
    refine ⟨inv.keys, List.nodup_singleton _, ?_⟩
    simp only [List.map_cons, List.map_nil, List.mem_singleton, List.mem_map]
    rintro _ ⟨b, hb, rfl⟩ _ rfl
    exact hnew b hb
  · intro u hu
    rw [dialTasks_append, dialTasks_dial, dialTasks_nil, List.mem_append, List.mem_singleton] at hu
    rcases hu with hu | rfl
    · exact inv.checked u hu
    · exact checkDial_of_append inv.self inv.netrestrict inv.hist inv.dialing hcheck
  · simp [List.countP_append, inv.no_lookup]
  · have := inv.budget
    split_ifs with hdyn <;> simp [List.filter_append, hdyn] <;> omega

theorem PassInv.addDynDial (inv : PassInv s₀ peers p) (n : Node I) :
    PassInv s₀ peers (addDynDial peers p n) := by
  unfold DialState.addDynDial
  split
  · exact inv
  · next hcheck =>
    have h := inv.dial (t := ⟨dynDialedConn, n⟩) hcheck
    simp only [if_pos (show isDyn dynDialedConn = true from rfl)] at h
    exact h

theorem PassInv.delete_static (inv : PassInv s₀ peers p) (id : I) :
    PassInv s₀ peers { p with s := { p.s with static := p.s.static.delete id } } :=
  { inv with static := fun b hb => inv.static b (List.mem_of_mem_filter hb) }

theorem PassInv.staticDial (inv : PassInv s₀ peers p) {e : I × DialTask I}
    (he : e.2.dest.id = e.1 ∧ e.2.flags = staticDialedConn) :
    PassInv s₀ peers (staticDial peers p e) := by
  unfold DialState.staticDial
  split
  · exact inv.delete_static _
  · exact inv.delete_static _
  · exact inv
  · next hcheck =>
    have h := inv.dial hcheck
    rw [he.1, he.2, if_neg (by decide), sub_zero, ← he.2] at h
    exact h

/-- The bootnodes are no part of the invariant. -/
theorem PassInv.with_bootnodes (inv : PassInv s₀ peers p) (b : List (Node I)) :
    PassInv s₀ peers { p with s := { p.s with bootnodes := b } } :=
  ⟨inv.dialing, inv.keys, inv.checked, inv.no_lookup, inv.self, inv.netrestrict, inv.hist,
    inv.lookupRunning, inv.static, inv.budget⟩

/-- Nor is the lookup buffer. -/
theorem PassInv.with_lookupBuf (inv : PassInv s₀ peers p) (b : List (Node I)) :
    PassInv s₀ peers { p with s := { p.s with lookupBuf := b } } :=
  ⟨inv.dialing, inv.keys, inv.checked, inv.no_lookup, inv.self, inv.netrestrict, inv.hist,
    inv.lookupRunning, inv.static, inv.budget⟩

theorem PassInv.bootnodeDial (inv : PassInv s₀ peers p) (now : ℤ) :
    PassInv s₀ peers (bootnodeDial peers now p) := by
  unfold DialState.bootnodeDial
  split
  · split
    · exact (inv.with_bootnodes _).addDynDial _
    · exact inv
  · exact inv

theorem PassInv.foldl_addDynDial (l : List (Node I)) (inv : PassInv s₀ peers p) :
    PassInv s₀ peers (l.foldl (DialState.addDynDial peers) p) := by
  induction l generalizing p with
  | nil => exact inv
  | cons n l ih => exact ih (inv.addDynDial n)

theorem PassInv.randomDials (inv : PassInv s₀ peers p) (random : List (Node I)) :
    PassInv s₀ peers (randomDials peers random p) := by
  unfold DialState.randomDials
  dsimp only
  split
  · exact PassInv.foldl_addDynDial _ inv
  · exact inv

theorem PassInv.lookupDials (l : List (Node I)) (inv : PassInv s₀ peers p) :
    PassInv s₀ peers (lookupDials peers p l).1 := by
  induction l generalizing p with
  | nil => exact inv
  | cons n l ih =>
    rw [DialState.lookupDials]
    split
    · exact ih (inv.addDynDial n)
    · exact inv

theorem PassInv.foldl_staticDial (l : GoMap I (DialTask I)) (hl : StaticOk l)
    (inv : PassInv s₀ peers p) : PassInv s₀ peers (l.foldl (DialState.staticDial peers) p) := by
  induction l generalizing p with
  | nil => exact inv
  | cons e l ih =>
    exact ih (fun b hb => hl b (List.mem_cons_of_mem e hb)) (inv.staticDial (hl e List.mem_cons_self))

end PassInv

/-- The state the dial passes of `newTasks` start from: the start time set, the history
expired. -/
def started (s : DialState I) (now : ℤ) : DialState I :=
  let s := if s.start.isNone then { s with start := some now } else s
  { s with hist := s.hist.expire now }

omit [DecidableEq I] in
@[simp] theorem started_dialing (s : DialState I) (now : ℤ) :
    (s.started now).dialing = s.dialing := by
  unfold started; split <;> rfl

omit [DecidableEq I] in
@[simp] theorem started_static (s : DialState I) (now : ℤ) :
    (s.started now).static = s.static := by
  unfold started; split <;> rfl

omit [DecidableEq I] in
@[simp] theorem started_lookupRunning (s : DialState I) (now : ℤ) :
    (s.started now).lookupRunning = s.lookupRunning := by
  unfold started; split <;> rfl

omit [DecidableEq I] in
@[simp] theorem started_hist (s : DialState I) (now : ℤ) :
    (s.started now).hist = s.hist.expire now := by
  unfold started; split <;> rfl

omit [DecidableEq I] in
@[simp] theorem started_needDynDials (s : DialState I) (now : ℤ) (peers : GoMap I ConnFlag) :
    (s.started now).needDynDials peers = s.needDynDials peers := by
  unfold started; split <;> rfl

/-- The dial passes of `newTasks`, up to the cut of the lookup buffer. -/
def dialPass (s : DialState I) (peers : GoMap I ConnFlag) (random : List (Node I)) (now : ℤ) :
    Pass I :=
  let s₁ := s.started now
  let p := s₁.static.foldl (staticDial peers) ⟨s₁, [], s₁.needDynDials peers⟩
  let p := randomDials peers random (bootnodeDial peers now p)
  let r := lookupDials peers p p.s.lookupBuf
  { r.1 with s := { r.1.s with lookupBuf := r.1.s.lookupBuf.drop r.2 } }

theorem newTasks_eq (s : DialState I) (nRunning : ℕ) (peers : GoMap I ConnFlag)
    (random : List (Node I)) (now : ℤ) :
    s.newTasks nRunning peers random now =
      ((waitExpireTask nRunning now (discoverTask (s.dialPass peers random now))).s,
        (waitExpireTask nRunning now (discoverTask (s.dialPass peers random now))).tasks) := rfl

theorem dialPass_inv {s : DialState I} (hkeys : (s.dialing.map Prod.fst).Nodup)
    (hstatic : StaticOk s.static) (peers : GoMap I ConnFlag) (random : List (Node I)) (now : ℤ) :
    PassInv (s.started now) peers (s.dialPass peers random now) := by
  have inv₀ : PassInv (s.started now) peers ⟨s.started now, [], (s.started now).needDynDials peers⟩ :=
    PassInv.start (by simpa using hkeys) (by simpa using hstatic)
  have inv₁ := (PassInv.foldl_staticDial (s.started now).static (by simpa using hstatic)
    inv₀).bootnodeDial now
  exact (PassInv.lookupDials _ (inv₁.randomDials random)).with_lookupBuf _

omit [DecidableEq I] in
/-- A lookup task is made only when none runs, and it sets `lookupRunning`. -/
theorem discoverTask_cases (p : Pass I) :
    discoverTask p = p ∨ (p.s.lookupRunning = false ∧ discoverTask p =
      { p with s := { p.s with lookupRunning := true }, tasks := p.tasks ++ [.discover []] }) := by
  unfold discoverTask
  split
  · next h => exact .inr ⟨by simpa using h.2, rfl⟩
  · exact .inl rfl

omit [DecidableEq I] in
/-- The wait task adds at most a task that is neither a dial nor a lookup. -/
theorem waitExpireTask_cases (nRunning : ℕ) (now : ℤ) (p : Pass I) :
    ∃ extra, waitExpireTask nRunning now p = { p with tasks := p.tasks ++ extra } ∧
      dialTasks extra = [] ∧ extra.countP Task.isDiscover = 0 := by
  unfold waitExpireTask
  split
  · split
    · exact ⟨_, rfl, rfl, rfl⟩
    · exact ⟨[], by simp, rfl, rfl⟩
  · exact ⟨[], by simp, rfl, rfl⟩

/-- What `newTasks` does to the state, in terms of the tasks it returns. -/
structure NewTasksOk (s : DialState I) (now : ℤ) (r : DialState I × List (Task I)) : Prop where
  dialing : r.1.dialing = s.dialing ++ (dialTasks r.2).map DialTask.binding
  keys : (r.1.dialing.map Prod.fst).Nodup
  lookup : r.2.countP Task.isDiscover + (if s.lookupRunning then 1 else 0) =
    if r.1.lookupRunning then 1 else 0
  static : StaticOk r.1.static
  hist : r.1.hist = s.hist.expire now

theorem newTasks_ok {s : DialState I} (hkeys : (s.dialing.map Prod.fst).Nodup)
    (hstatic : StaticOk s.static) (nRunning : ℕ) (peers : GoMap I ConnFlag)
    (random : List (Node I)) (now : ℤ) :
    NewTasksOk s now (s.newTasks nRunning peers random now) := by
  have inv := dialPass_inv hkeys hstatic peers random now
  rw [newTasks_eq]
  generalize s.dialPass peers random now = p at inv
  have hlr := inv.lookupRunning
  rw [started_lookupRunning] at hlr
  rcases discoverTask_cases p with hdisc | ⟨hnone, hdisc⟩ <;> rw [hdisc] <;>
    obtain ⟨extra, hw, hd, hc⟩ := waitExpireTask_cases nRunning now _ <;> rw [hw]
  · -- no lookup is started
    refine ⟨?_, inv.keys, ?_, inv.static, by simp [inv.hist]⟩
    · simp [inv.dialing, hd]
    · simp [List.countP_append, inv.no_lookup, hc, hlr]
  · -- a lookup is started; none ran
    refine ⟨?_, inv.keys, ?_, inv.static, by simp [inv.hist]⟩
    · simp [inv.dialing, hd]
    · simp [List.countP_append, List.countP_cons, inv.no_lookup, hc, ← hlr, hnone]

/-- Every dial `newTasks` makes is to a node that `checkDial` lets through in the state it
starts from: not dialed, not a peer, not the node itself, on the whitelist and not dialed
recently; and no node gets two. -/
theorem newTasks_dials_checked {s : DialState I} (hkeys : (s.dialing.map Prod.fst).Nodup)
    (hstatic : StaticOk s.static) (nRunning : ℕ) (peers : GoMap I ConnFlag)
    (random : List (Node I)) (now : ℤ) :
    (∀ t ∈ dialTasks (s.newTasks nRunning peers random now).2,
        (s.started now).checkDial t.dest peers = none) ∧
      ((dialTasks (s.newTasks nRunning peers random now).2).map fun t => t.dest.id).Nodup := by
  have inv := dialPass_inv hkeys hstatic peers random now
  have hok := newTasks_ok hkeys hstatic nRunning peers random now
  have hkeys' := hok.keys
  rw [hok.dialing, List.map_append, List.nodup_append, List.map_map] at hkeys'
  refine ⟨?_, hkeys'.2.1⟩
  rw [newTasks_eq]
  obtain ⟨extra, hw, hd, -⟩ := waitExpireTask_cases nRunning now (discoverTask (s.dialPass peers random now))
  rw [hw]
  rcases discoverTask_cases (s.dialPass peers random now) with hdisc | ⟨-, hdisc⟩ <;>
    simpa [hdisc, hd] using inv.checked

theorem newTasks_dials_checked_fresh :
    (((newDialState [⟨1, [], [10, 0, 0, 1]⟩] [] none 4 none : DialState ℕ).dialing.map
        Prod.fst).Nodup ∧
      StaticOk (newDialState [⟨1, [], [10, 0, 0, 1]⟩] [] none 4 none : DialState ℕ).static) ∧
    ((∀ t ∈ dialTasks ((newDialState [⟨1, [], [10, 0, 0, 1]⟩] [] none 4 none : DialState ℕ).newTasks
          0 [] [⟨2, [], [10, 0, 0, 2]⟩] 0).2,
        ((newDialState [⟨1, [], [10, 0, 0, 1]⟩] [] none 4 none : DialState ℕ).started 0).checkDial
          t.dest [] = none) ∧
      ((dialTasks ((newDialState [⟨1, [], [10, 0, 0, 1]⟩] [] none 4 none : DialState ℕ).newTasks
          0 [] [⟨2, [], [10, 0, 0, 2]⟩] 0).2).map fun t => t.dest.id).Nodup) :=
  ⟨⟨by decide, by decide⟩, newTasks_dials_checked (by decide) (by decide) 0 [] _ 0⟩

/-! ### The dynamic dial budget -/

/-- How a guarded dial stage moves `needDynDials` from `a` to `b`: never up, never below zero
from zero or more, and not at all from zero or less. -/
def NeedStep (a b : ℤ) : Prop := b ≤ a ∧ (0 ≤ a → 0 ≤ b) ∧ (a ≤ 0 → b = a)

omit [DecidableEq I] in
theorem NeedStep.refl (a : ℤ) : NeedStep a a := ⟨le_rfl, id, fun _ => rfl⟩

omit [DecidableEq I] in
theorem NeedStep.trans {a b c : ℤ} (hab : NeedStep a b) (hbc : NeedStep b c) : NeedStep a c := by
  obtain ⟨h₁, h₂, h₃⟩ := hab
  obtain ⟨h₄, h₅, h₆⟩ := hbc
  refine ⟨h₄.trans h₁, fun ha => h₅ (h₂ ha), fun ha => ?_⟩
  obtain rfl : b = a := h₃ ha
  exact h₆ ha

theorem addDynDial_need (peers : GoMap I ConnFlag) (p : Pass I) (n : Node I) :
    (addDynDial peers p n).need = p.need ∨ (addDynDial peers p n).need = p.need - 1 := by
  unfold DialState.addDynDial
  split
  · exact .inl rfl
  · exact .inr rfl

/-- A dynamic dial made only while one is needed. -/
theorem needStep_addDynDial (peers : GoMap I ConnFlag) (p : Pass I) (n : Node I)
    (h : 0 < p.need) : NeedStep p.need (addDynDial peers p n).need := by
  unfold NeedStep
  rcases addDynDial_need peers p n with h' | h' <;> rw [h'] <;> omega

theorem foldl_addDynDial_need (peers : GoMap I ConnFlag) (l : List (Node I)) (p : Pass I) :
    p.need - l.length ≤ (l.foldl (addDynDial peers) p).need ∧
      (l.foldl (addDynDial peers) p).need ≤ p.need := by
  induction l generalizing p with
  | nil => simp
  | cons n l ih =>
    have := ih (addDynDial peers p n)
    rcases addDynDial_need peers p n with h | h <;>
      simp only [List.foldl_cons, List.length_cons, Nat.cast_add, Nat.cast_one] <;> omega

theorem foldl_staticDial_need (peers : GoMap I ConnFlag) (l : GoMap I (DialTask I)) (p : Pass I) :
    (l.foldl (staticDial peers) p).need = p.need := by
  induction l generalizing p with
  | nil => rfl
  | cons e l ih =>
    rw [List.foldl_cons, ih]
    unfold DialState.staticDial
    split <;> rfl

theorem needStep_bootnodeDial (peers : GoMap I ConnFlag) (now : ℤ) (p : Pass I) :
    NeedStep p.need (bootnodeDial peers now p).need := by
  unfold DialState.bootnodeDial
  split
  · split
    · next h => exact needStep_addDynDial peers _ _ h.2.1
    · exact .refl _
  · exact .refl _

/-- The random dials take at most half of what is needed. -/
theorem needStep_randomDials (peers : GoMap I ConnFlag) (random : List (Node I)) (p : Pass I) :
    NeedStep p.need (randomDials peers random p).need := by
  unfold DialState.randomDials
  dsimp only
  split
  · next h =>
    have hpos : 0 ≤ p.need := by
      by_contra hneg
      have := Int.tdiv_nonneg (a := -p.need) (b := 2) (by omega) (by omega)
      rw [Int.neg_tdiv] at this
      omega
    rw [Int.tdiv_eq_ediv_of_nonneg hpos] at h ⊢
    obtain ⟨hlo, hhi⟩ := foldl_addDynDial_need peers (random.take (p.need / 2).toNat) p
    have hlen : ((random.take (p.need / 2).toNat).length : ℤ) ≤ p.need / 2 := by
      rw [List.length_take]
      omega
    unfold NeedStep
    omega
  · exact .refl _

theorem needStep_lookupDials (peers : GoMap I ConnFlag) (l : List (Node I)) (p : Pass I) :
    NeedStep p.need (lookupDials peers p l).1.need := by
  induction l generalizing p with
  | nil => exact .refl _
  | cons n l ih =>
    rw [DialState.lookupDials]
    split
    · next h => exact (needStep_addDynDial peers p n h).trans (ih _)
    · exact .refl _

theorem needStep_dialPass (s : DialState I) (peers : GoMap I ConnFlag) (random : List (Node I))
    (now : ℤ) : NeedStep (s.needDynDials peers) (s.dialPass peers random now).need := by
  rw [← started_needDynDials s now peers]
  unfold dialPass
  dsimp only
  have hb := needStep_bootnodeDial peers now ((s.started now).static.foldl (staticDial peers)
    ⟨s.started now, [], (s.started now).needDynDials peers⟩)
  rw [foldl_staticDial_need] at hb
  exact (hb.trans (needStep_randomDials peers random _)).trans (needStep_lookupDials peers _ _)

/-- `newTasks` makes no more dynamic dials than `needDynDials` asks for, and none when it asks
for none. -/
theorem newTasks_budget {s : DialState I} (hkeys : (s.dialing.map Prod.fst).Nodup)
    (hstatic : StaticOk s.static) (nRunning : ℕ) (peers : GoMap I ConnFlag)
    (random : List (Node I)) (now : ℤ) :
    (((dialTasks (s.newTasks nRunning peers random now).2).filter fun t => isDyn t.flags).length : ℤ)
      ≤ max 0 (s.needDynDials peers) := by
  have hb := (dialPass_inv hkeys hstatic peers random now).budget
  have hstep := needStep_dialPass s peers random now
  rw [started_needDynDials] at hb
  rw [newTasks_eq]
  obtain ⟨extra, hw, hd, -⟩ := waitExpireTask_cases nRunning now
    (discoverTask (s.dialPass peers random now))
  rw [hw]
  unfold NeedStep at hstep
  rcases discoverTask_cases (s.dialPass peers random now) with hdisc | ⟨-, hdisc⟩ <;>
    simp only [hdisc, dialTasks_append, hd, List.append_nil, dialTasks_discover, dialTasks_nil] <;>
    omega

theorem newTasks_budget_fresh :
    (((newDialState [] [] none 4 none : DialState ℕ).dialing.map Prod.fst).Nodup ∧
      StaticOk (newDialState [] [] none 4 none : DialState ℕ).static) ∧
    (((dialTasks ((newDialState [] [] none 4 none : DialState ℕ).newTasks 0 []
          [⟨2, [], [10, 0, 0, 2]⟩, ⟨3, [], [10, 0, 0, 3]⟩] 0).2).filter
          fun t => isDyn t.flags).length : ℤ) ≤
      max 0 ((newDialState [] [] none 4 none : DialState ℕ).needDynDials []) :=
  ⟨⟨by decide, by decide⟩, newTasks_budget (by decide) (by decide) 0 [] _ 0⟩

end DialState

/-! ## The dial history under `add` and `remove` -/

namespace DialHistory
variable [DecidableEq I]

theorem add_heap {h : DialHistory I} (hh : Heap.IsHeap PastDial.less h) (id : I) (exp : ℤ) :
    Heap.IsHeap PastDial.less (h.add id exp) :=
  Heap.IsHeap.push less_eq_decide hh _

theorem remove_heap {h : DialHistory I} (hh : Heap.IsHeap PastDial.less h) (id : I) :
    Heap.IsHeap PastDial.less (h.remove id).1 := by
  unfold remove
  split
  · next i hi =>
    obtain ⟨hlt, -⟩ := List.findIdx?_eq_some_iff_getElem.1 hi
    obtain ⟨h', hrem, hh', -⟩ := Heap.IsHeap.remove less_eq_decide hh hlt
    rw [hrem]
    exact hh'
  · exact hh

end DialHistory

/-! ## The task loop -/

theorem startTasks_append (running ts : List (Task I)) :
    (startTasks running ts).1 ++ (startTasks running ts).2 = running ++ ts := by
  induction ts generalizing running with
  | nil => simp [startTasks]
  | cons t ts ih =>
    rw [startTasks]
    split
    · rw [ih, List.append_assoc, List.singleton_append]
    · rfl

theorem startTasks_length (running ts : List (Task I))
    (h : running.length ≤ maxActiveDialTasks) :
    (startTasks running ts).1.length ≤ maxActiveDialTasks := by
  induction ts generalizing running with
  | nil => exact h
  | cons t ts ih =>
    rw [startTasks]
    split
    · next hlt => exact ih _ (by simp only [List.length_append, List.length_singleton]; omega)
    · exact h

namespace DialLoop
variable [DecidableEq I]

/-- The tasks that run or wait. -/
def outstanding (l : DialLoop I) : List (Task I) := l.runningTasks ++ l.queuedTasks

/-- What the task loop keeps over every run. -/
structure Inv (l : DialLoop I) : Prop where
  keys : (l.dialstate.dialing.map Prod.fst).Nodup
  dialing : l.dialstate.dialing.Perm ((dialTasks l.outstanding).map DialTask.binding)
  lookup : l.outstanding.countP Task.isDiscover = if l.dialstate.lookupRunning then 1 else 0
  static : DialState.StaticOk l.dialstate.static
  hist : Heap.IsHeap PastDial.less l.dialstate.hist
  running : l.runningTasks.length ≤ maxActiveDialTasks

/-- `scheduleTasks` either only starts queued tasks, or also adds what `newTasks` returns. -/
theorem scheduleTasks_cases (l : DialLoop I) (random : List (Node I)) (now : ℤ) :
    (l.scheduleTasks random now).peers = l.peers ∧
    (l.runningTasks.length ≤ maxActiveDialTasks →
      (l.scheduleTasks random now).runningTasks.length ≤ maxActiveDialTasks) ∧
    (((l.scheduleTasks random now).dialstate = l.dialstate ∧
        (l.scheduleTasks random now).outstanding = l.outstanding) ∨
      ∃ nRunning, (l.scheduleTasks random now).dialstate =
          (l.dialstate.newTasks nRunning l.peers random now).1 ∧
        (l.scheduleTasks random now).outstanding.Perm
          (l.outstanding ++ (l.dialstate.newTasks nRunning l.peers random now).2)) := by
  have hr := startTasks_append l.runningTasks l.queuedTasks
  unfold scheduleTasks
  dsimp only
  split
  · refine ⟨rfl, fun h => startTasks_length _ _ (startTasks_length _ _ h), .inr ⟨_, rfl, ?_⟩⟩
    unfold outstanding
    dsimp only
    generalize startTasks l.runningTasks l.queuedTasks = r at hr ⊢
    generalize (l.dialstate.newTasks (r.1.length + r.2.length) l.peers random now).2 = nt
    have h₁ : ((startTasks r.1 nt).1 ++ (r.2 ++ (startTasks r.1 nt).2)).Perm
        ((startTasks r.1 nt).1 ++ (startTasks r.1 nt).2 ++ r.2) := by
      rw [List.append_assoc]
      exact List.Perm.append_left _ List.perm_append_comm
    rw [startTasks_append] at h₁
    refine h₁.trans ?_
    rw [← hr, List.append_assoc, List.append_assoc]
    exact List.Perm.append_left _ List.perm_append_comm
  · exact ⟨rfl, fun h => startTasks_length _ _ h, .inl ⟨rfl, hr⟩⟩

theorem Inv.scheduleTasks {l : DialLoop I} (inv : Inv l) (random : List (Node I)) (now : ℤ) :
    Inv (l.scheduleTasks random now) := by
  obtain ⟨-, hrun, hcases⟩ := scheduleTasks_cases l random now
  rcases hcases with ⟨hd, ho⟩ | ⟨nRunning, hd, ho⟩
  · exact ⟨hd ▸ inv.keys, hd ▸ ho ▸ inv.dialing, hd ▸ ho ▸ inv.lookup, hd ▸ inv.static,
      hd ▸ inv.hist, hrun inv.running⟩
  · have ok := DialState.newTasks_ok inv.keys inv.static nRunning l.peers random now
    refine ⟨by rw [hd]; exact ok.keys, ?_, ?_, by rw [hd]; exact ok.static, ?_, hrun inv.running⟩
    · -- the new dials are written into `dialing` as they join the tasks
      rw [hd, ok.dialing]
      refine (inv.dialing.append_right _).trans ?_
      rw [← List.map_append, ← dialTasks_append]
      exact ((ho.filterMap _).map _).symm
    · rw [ho.countP_eq, List.countP_append, inv.lookup, hd, add_comm]
      exact ok.lookup
    · rw [hd, ok.hist]
      exact (DialHistory.expire_spec inv.hist now).1

omit [DecidableEq I] in
theorem outstanding_perm_eraseIdx {l : DialLoop I} {k : ℕ} (hk : k < l.runningTasks.length) :
    l.outstanding.Perm (l.runningTasks[k] :: (l.runningTasks.eraseIdx k ++ l.queuedTasks)) :=
  ((List.getElem_cons_eraseIdx_perm hk).append_right _).symm

/-- A finished task leaves the tasks; a dial's node leaves `dialing` for the history, and a
lookup clears `lookupRunning`. -/
theorem Inv.taskDone {l : DialLoop I} (inv : Inv l) {k : ℕ} {t : Task I}
    (ht : l.runningTasks[k]? = some t) (results : List (Node I)) (now : ℤ) :
    Inv { l with dialstate := l.dialstate.taskDone (t.finish results) now,
                 runningTasks := l.runningTasks.eraseIdx k } := by
  obtain ⟨hk, rfl⟩ := List.getElem?_eq_some_iff.1 ht
  have hperm := outstanding_perm_eraseIdx hk
  have hrun : (l.runningTasks.eraseIdx k).length ≤ maxActiveDialTasks := by
    rw [List.length_eraseIdx_of_lt hk]
    have := inv.running
    omega
  have hdial := inv.dialing.trans ((hperm.filterMap Task.dialTask?).map DialTask.binding)
  have hlookup := hperm.countP_eq Task.isDiscover
  rw [inv.lookup, List.countP_cons] at hlookup
  generalize l.runningTasks[k] = t at hdial hlookup
  cases t with
  | dial d =>
    refine ⟨GoMap.keys_nodup_delete inv.keys _, GoMap.delete_perm inv.keys hdial, ?_, inv.static,
      DialHistory.add_heap inv.hist _ _, hrun⟩
    show (l.runningTasks.eraseIdx k ++ l.queuedTasks).countP Task.isDiscover =
      if l.dialstate.lookupRunning then 1 else 0
    rw [isDiscover_dial, if_neg Bool.false_ne_true, add_zero] at hlookup
    exact hlookup.symm
  | discover r =>
    refine ⟨inv.keys, hdial, ?_, inv.static, inv.hist, hrun⟩
    split at hlookup <;>
      simp_all [outstanding, DialState.taskDone, Task.finish, List.countP_append, List.countP_eq_zero]
  | waitExpire d =>
    refine ⟨inv.keys, hdial, ?_, inv.static, inv.hist, hrun⟩
    show (l.runningTasks.eraseIdx k ++ l.queuedTasks).countP Task.isDiscover =
      if l.dialstate.lookupRunning then 1 else 0
    rw [isDiscover_waitExpire, if_neg Bool.false_ne_true, add_zero] at hlookup
    exact hlookup.symm

theorem addStatic_static {s : DialState I} (hs : DialState.StaticOk s.static) (n : Node I) :
    DialState.StaticOk (s.addStatic n).static := by
  intro b hb
  rcases GoMap.mem_set hb with hb | rfl
  · exact hs b hb
  · exact ⟨rfl, rfl⟩

theorem Inv.handle {l : DialLoop I} (inv : Inv l) (e : DialEvent I) : Inv (l.handle e) := by
  cases e with
  | addStatic n =>
    exact ⟨inv.keys, inv.dialing, inv.lookup, addStatic_static inv.static n, inv.hist, inv.running⟩
  | removeStatic n =>
    exact ⟨inv.keys, inv.dialing, inv.lookup, fun b hb => inv.static b (List.mem_of_mem_filter hb),
      DialHistory.remove_heap inv.hist n.id, inv.running⟩
  | taskDone k results now =>
    simp only [DialLoop.handle]
    split
    · next t ht => exact inv.taskDone ht results now
    · exact inv
  | addPeer id flags => exact ⟨inv.keys, inv.dialing, inv.lookup, inv.static, inv.hist, inv.running⟩
  | delPeer id => exact ⟨inv.keys, inv.dialing, inv.lookup, inv.static, inv.hist, inv.running⟩

theorem Inv.step {l : DialLoop I} (inv : Inv l) (random : List (Node I)) (now : ℤ)
    (e : DialEvent I) : Inv (l.step random now e) :=
  (inv.scheduleTasks random now).handle e

theorem Inv.run {l : DialLoop I} (inv : Inv l) (evs : List (List (Node I) × ℤ × DialEvent I)) :
    Inv (l.run evs) := by
  induction evs generalizing l with
  | nil => exact inv
  | cons ev evs ih => exact ih (inv.step ev.1 ev.2.1 ev.2.2)

/-- Adding static nodes changes only the static nodes. -/
theorem foldl_addStatic (l : List (Node I)) (s : DialState I) :
    ∃ static, l.foldl DialState.addStatic s = { s with static := static } ∧
      (DialState.StaticOk s.static → DialState.StaticOk static) := by
  induction l generalizing s with
  | nil => exact ⟨s.static, rfl, id⟩
  | cons n l ih =>
    obtain ⟨static, heq, hok⟩ := ih (s.addStatic n)
    exact ⟨static, heq, fun hs => hok (addStatic_static hs n)⟩

theorem init_inv (static bootnodes : List (Node I)) (self : Option I) (maxdyn : ℤ)
    (netrestrict : Option (List (IP × ℕ))) : Inv (init static bootnodes self maxdyn netrestrict) := by
  obtain ⟨st, heq, hok⟩ := foldl_addStatic static
    (⟨maxdyn, self, netrestrict, false, [], [], [], [], none, bootnodes⟩ : DialState I)
  unfold init newDialState
  rw [heq]
  refine ⟨List.nodup_nil, List.Perm.refl _, rfl, hok (by simp [DialState.StaticOk]), ?_,
    Nat.zero_le _⟩
  intro k hk
  exact absurd hk (Nat.not_lt_zero k)

/-- Over every run of the task loop, whatever the events: `dialing` holds exactly the node and
flags of each dial task that runs or waits, and no node has two such tasks. -/
theorem dialLoop_dials_exact (static bootnodes : List (Node I)) (self : Option I) (maxdyn : ℤ)
    (netrestrict : Option (List (IP × ℕ))) (evs : List (List (Node I) × ℤ × DialEvent I)) :
    let l := (init static bootnodes self maxdyn netrestrict).run evs
    l.dialstate.dialing.Perm ((dialTasks l.outstanding).map DialTask.binding) ∧
      ((dialTasks l.outstanding).map fun t => t.dest.id).Nodup := by
  have inv := (init_inv static bootnodes self maxdyn netrestrict).run evs
  refine ⟨inv.dialing, ?_⟩
  have hkeys := (inv.dialing.map Prod.fst).nodup_iff.1 inv.keys
  rwa [List.map_map] at hkeys

/-- Over every run of the task loop, whatever the events, the loop keeps `Inv`: `dialing`
holds the dial tasks that run or wait, one lookup runs or waits exactly while `lookupRunning`
is set, the static nodes are filed under their IDs, the dial history is a heap and at most
`maxActiveDialTasks` tasks run. -/
theorem dialLoop_inv (static bootnodes : List (Node I)) (self : Option I) (maxdyn : ℤ)
    (netrestrict : Option (List (IP × ℕ))) (evs : List (List (Node I) × ℤ × DialEvent I)) :
    Inv ((init static bootnodes self maxdyn netrestrict).run evs) :=
  (init_inv static bootnodes self maxdyn netrestrict).run evs

end DialLoop

end Srcd.P2p
