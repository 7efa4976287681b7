import Srcd.Library.GoMap
import Mathlib

/-! # Sub-protocol multiplexing (`p2p/peer.go`, `p2p/protocol.go`)

Each end of a connection runs `matchProtocols` on its own protocols and the caps the other end
advertised: the caps are sorted by name and version, and each one a protocol matches is given
the next range of message codes above the base protocol's, a later version of a name taking the
place of the earlier one. `WriteMsg` shifts a protocol's code into its range, `handle` finds the
protocol whose range holds an incoming code, and `ReadMsg` shifts it back. Of a message only its
code is kept; the payloads, channels and goroutines are left out.
-/

namespace Srcd.P2p
open Srcd.Library
set_option autoImplicit false

structure Cap where
  name : String
  version : ℕ
  deriving DecidableEq, Repr

/-- A protocol as `matchProtocols` reads it: name, version and the number of codes it uses. -/
structure Protocol where
  name : String
  version : ℕ
  length : UInt64
  deriving DecidableEq, Repr

def Protocol.cap (p : Protocol) : Cap := ⟨p.name, p.version⟩

/-- `capsByNameAndVersion.Less`. -/
def Cap.less (a b : Cap) : Bool := a.name < b.name || (a.name = b.name && a.version < b.version)

def baseProtocolLength : UInt64 := 16
def discMsg : UInt64 := 0x01
def pingMsg : UInt64 := 0x02

structure ProtoRW where
  proto : Protocol
  offset : UInt64
  deriving DecidableEq, Repr

/-- `sort.Sort(capsByNameAndVersion(caps))`. Two caps neither of which is `Less` than the other
are equal, so every sorting algorithm gives this list. -/
def sortCaps (caps : List Cap) : List Cap := caps.insertionSort fun a b => b.less a = false

/-- The inner loop of `matchProtocols`: the first protocol with the cap's name and version. -/
def findProto (protocols : List Protocol) (cap : Cap) : Option Protocol :=
  protocols.find? fun p => p.name = cap.name && p.version = cap.version

/-- One cap of the loop of `matchProtocols`, on the map so far and the next free code. -/
def matchStep (protocols : List Protocol) (acc : GoMap String ProtoRW × UInt64) (cap : Cap) :
    GoMap String ProtoRW × UInt64 :=
  match findProto protocols cap with
  | none => acc
  | some proto =>
    -- an older version of the name matched before: its codes are taken back
    let offset := match acc.1.get? cap.name with
      | some old => acc.2 - old.proto.length
      | none => acc.2
    (acc.1.set cap.name ⟨proto, offset⟩, offset + proto.length)

/-- `matchProtocols`. -/
def matchProtocols (protocols : List Protocol) (caps : List Cap) : GoMap String ProtoRW :=
  ((sortCaps caps).foldl (matchStep protocols) ([], baseProtocolLength)).1

/-- `Peer.getProto`, visiting the running protocols in the order of `running`. -/
def getProto (running : GoMap String ProtoRW) (code : UInt64) : Option ProtoRW :=
  (running.find? fun b => code ≥ b.2.offset && code < b.2.offset + b.2.proto.length).map Prod.snd

/-- What `Peer.handle` does with a message. -/
inductive Handled where
  | pong
  | disconnect
  | discard
  /-- sent to the `in` channel of the protocol -/
  | deliver (rw : ProtoRW)
  /-- "msg code out of range" -/
  | outOfRange
  deriving DecidableEq, Repr

/-- `Peer.handle`, on the code of the message. -/
def handle (running : GoMap String ProtoRW) (code : UInt64) : Handled :=
  if code = pingMsg then .pong
  else if code = discMsg then .disconnect
  else if code < baseProtocolLength then .discard
  else match getProto running code with
    | some rw => .deliver rw
    | none => .outOfRange

inductive PeerError where
  | invalidMsgCode
  deriving DecidableEq, Repr

/-- `protoRW.WriteMsg`: the code sent on the wire. -/
def ProtoRW.writeMsg (rw : ProtoRW) (code : UInt64) : Except PeerError UInt64 :=
  if code ≥ rw.proto.length then .error .invalidMsgCode else .ok (code + rw.offset)

/-- `protoRW.ReadMsg`: the code the protocol reads. -/
def ProtoRW.readMsg (rw : ProtoRW) (code : UInt64) : UInt64 := code - rw.offset

/-! ## What the two ends compare -/

/-- What the two ends must agree on for a name: version, first code and number of codes. -/
def ProtoRW.view (rw : ProtoRW) : ℕ × UInt64 × UInt64 :=
  (rw.proto.version, rw.offset, rw.proto.length)

/-- A cap both ends have a protocol for. -/
def Common (P₁ P₂ : List Protocol) (c : Cap) : Prop :=
  c ∈ P₁.map Protocol.cap ∧ c ∈ P₂.map Protocol.cap

/-- The number of codes the bindings use. -/
def codeSpan (m : GoMap String ProtoRW) : ℕ := (m.map fun b => b.2.proto.length.toNat).sum

/-- The code ranges of the bindings follow one another from `start`, the last ending at `stop`. -/
def Consecutive : UInt64 → GoMap String ProtoRW → UInt64 → Prop
  | start, [], stop => stop = start
  | start, b :: m, stop => b.2.offset = start ∧ Consecutive (start + b.2.proto.length) m stop

/-! ## The order of caps -/

/-- The order `sortCaps` sorts by: by name, then by version. -/
def Cap.le (a b : Cap) : Prop := a.name < b.name ∨ a.name = b.name ∧ a.version ≤ b.version

theorem Cap.less_eq_false_iff {a b : Cap} : b.less a = false ↔ a.le b := by
  unfold Cap.less Cap.le
  rcases lt_trichotomy a.name b.name with h | h | h
  · simp [h, not_lt_of_gt h, ne_of_gt h]
  · simp [h]
  · simp [h, not_lt_of_gt h, ne_of_gt h]

theorem Cap.le_total (a b : Cap) : a.le b ∨ b.le a := by
  unfold Cap.le
  rcases lt_trichotomy a.name b.name with h | h | h
  · exact .inl (.inl h)
  · rcases Nat.le_total a.version b.version with hv | hv
    · exact .inl (.inr ⟨h, hv⟩)
    · exact .inr (.inr ⟨h.symm, hv⟩)
  · exact .inr (.inl h)

theorem Cap.le_trans {a b c : Cap} (hab : a.le b) (hbc : b.le c) : a.le c := by
  unfold Cap.le at *
  rcases hab with h₁ | ⟨h₁, v₁⟩ <;> rcases hbc with h₂ | ⟨h₂, v₂⟩
  · exact .inl (lt_trans h₁ h₂)
  · exact .inl (h₂ ▸ h₁)
  · exact .inl (h₁ ▸ h₂)
  · exact .inr ⟨h₁.trans h₂, v₁.trans v₂⟩

theorem Cap.le_antisymm {a b : Cap} (hab : a.le b) (hba : b.le a) : a = b := by
  unfold Cap.le at *
  rcases hab with h₁ | ⟨h₁, v₁⟩
  · rcases hba with h₂ | ⟨h₂, -⟩
    · exact absurd (lt_trans h₁ h₂) (lt_irrefl _)
    · exact absurd (h₂ ▸ h₁) (lt_irrefl _)
  · rcases hba with h₂ | ⟨-, v₂⟩
    · exact absurd (h₁ ▸ h₂) (lt_irrefl _)
    · cases a; cases b
      simp only at h₁ v₁ v₂
      rw [h₁, Nat.le_antisymm v₁ v₂]

theorem Cap.name_le_of_le {a b : Cap} (h : a.le b) : a.name ≤ b.name :=
  h.elim le_of_lt fun h => h.1.le

instance : Std.Total fun a b : Cap => b.less a = false :=
  ⟨fun a b => (Cap.le_total a b).imp Cap.less_eq_false_iff.mpr Cap.less_eq_false_iff.mpr⟩

instance : IsTrans Cap fun a b => b.less a = false :=
  ⟨fun _ _ _ hab hbc => Cap.less_eq_false_iff.mpr
    (Cap.le_trans (Cap.less_eq_false_iff.mp hab) (Cap.less_eq_false_iff.mp hbc))⟩

theorem sortCaps_pairwise (caps : List Cap) : (sortCaps caps).Pairwise Cap.le :=
  (List.pairwise_insertionSort _ caps).imp Cap.less_eq_false_iff.mp

theorem sortCaps_perm (caps : List Cap) : (sortCaps caps).Perm caps := List.perm_insertionSort _ _

/-- In a sorted list every element is at most the last. -/
theorem le_of_getLast? {l : List Cap} (hl : l.Pairwise Cap.le) {z : Cap} (hz : l.getLast? = some z)
    {x : Cap} (hx : x ∈ l) : x.le z := by
  obtain ⟨ys, rfl⟩ := List.getLast?_eq_some_iff.mp hz
  rcases List.mem_append.mp hx with hx | hx
  · exact (List.pairwise_append.mp hl).2.2 x hx z (List.mem_singleton_self z)
  · rw [List.mem_singleton.mp hx]
    exact .inr ⟨rfl, le_rfl⟩

/-! ## One step of the loop -/

section
variable {P : List Protocol}

theorem findProto_spec {c : Cap} {p : Protocol} (h : findProto P c = some p) :
    p ∈ P ∧ p.cap = c := by
  have hp := List.find?_some h
  simp only [Bool.and_eq_true, decide_eq_true_eq] at hp
  exact ⟨List.mem_of_find?_eq_some h, by rw [Protocol.cap, hp.1, hp.2]⟩

theorem findProto_isSome_iff {c : Cap} : (findProto P c).isSome ↔ c ∈ P.map Protocol.cap := by
  simp only [findProto, List.find?_isSome, Bool.and_eq_true, decide_eq_true_eq, List.mem_map]
  constructor
  · rintro ⟨p, hp, hn, hv⟩
    exact ⟨p, hp, by rw [Protocol.cap, hn, hv]⟩
  · rintro ⟨p, hp, rfl⟩
    exact ⟨p, hp, rfl, rfl⟩

theorem matchStep_of_none {c : Cap} (h : findProto P c = none) (s : GoMap String ProtoRW × UInt64) :
    matchStep P s c = s := by
  simp [matchStep, h]

theorem matchStep_of_some {c : Cap} {p : Protocol} (h : findProto P c = some p)
    (s : GoMap String ProtoRW × UInt64) :
    matchStep P s c =
      (s.1.set c.name ⟨p, (s.1.get? c.name).elim s.2 fun old => s.2 - old.proto.length⟩,
        ((s.1.get? c.name).elim s.2 fun old => s.2 - old.proto.length) + p.length) := by
  simp only [matchStep, h]
  cases s.1.get? c.name <;> rfl

/-- A cap matched twice in a row is matched once: the second time takes back the codes the first
gave and gives them again. -/
theorem matchStep_matchStep (s : GoMap String ProtoRW × UInt64) (c : Cap) :
    matchStep P (matchStep P s c) c = matchStep P s c := by
  cases h : findProto P c with
  | none => rw [matchStep_of_none h, matchStep_of_none h]
  | some p =>
    rw [matchStep_of_some h (s := matchStep P s c), matchStep_of_some h]
    simp only [GoMap.get?_set_self, Option.elim_some, UInt64.add_sub_cancel, GoMap.set_set_self]

/-- Caps no protocol matches are skipped. -/
theorem foldl_matchStep_filter :
    ∀ (l : List Cap) (s : GoMap String ProtoRW × UInt64),
      l.foldl (matchStep P) s = (l.filter fun c => (findProto P c).isSome).foldl (matchStep P) s
  | [], _ => rfl
  | c :: l, s => by
    cases h : findProto P c with
    | none =>
      rw [List.foldl_cons, matchStep_of_none h, List.filter_cons_of_neg (by simp [h]),
        foldl_matchStep_filter l s]
    | some p =>
      rw [List.foldl_cons, List.filter_cons_of_pos (by simp [h]), List.foldl_cons,
        foldl_matchStep_filter l]

end

/-- A fold whose step, done twice in a row on one element, is done once, gives the same over a
sorted list and over the list with its repeats removed. -/
theorem foldl_eq_foldl_dedup {α σ : Type} [DecidableEq α] {r : α → α → Prop} (f : σ → α → σ)
    (hf : ∀ s a, f (f s a) a = f s a) (hanti : ∀ a b, r a b → r b a → a = b) {l : List α}
    (hl : l.Pairwise r) (s : σ) : l.foldl f s = l.dedup.foldl f s := by
  induction l generalizing s with
  | nil => rfl
  | cons a t ih =>
    obtain ⟨ha, ht⟩ := List.pairwise_cons.mp hl
    by_cases hmem : a ∈ t
    · -- `a` heads `t` as well: it is below everything in `t`, and the head of `t` is below it
      obtain ⟨t', rfl⟩ : ∃ t', t = a :: t' := by
        obtain ⟨b, t', rfl⟩ := List.exists_cons_of_ne_nil (List.ne_nil_of_mem hmem)
        refine ⟨t', ?_⟩
        rcases List.mem_cons.mp hmem with rfl | h'
        · rfl
        · rw [hanti b a (List.rel_of_pairwise_cons ht h') (ha b List.mem_cons_self)]
      rw [List.dedup_cons_of_mem hmem, ← ih ht, List.foldl_cons, List.foldl_cons, List.foldl_cons,
        hf]
    · rw [List.dedup_cons_of_notMem hmem, List.foldl_cons, List.foldl_cons, ih ht]

/-! ## Both ends walk the same caps -/

/-- The caps of `caps` that a protocol of `P` matches, in order, each once. -/
def matchedCaps (P : List Protocol) (caps : List Cap) : List Cap :=
  ((sortCaps caps).filter fun c => (findProto P c).isSome).dedup

theorem matchedCaps_pairwise (P : List Protocol) (caps : List Cap) :
    (matchedCaps P caps).Pairwise Cap.le :=
  (sortCaps_pairwise caps).sublist ((List.dedup_sublist _).trans List.filter_sublist)

theorem mem_matchedCaps {P : List Protocol} {caps : List Cap} {c : Cap} :
    c ∈ matchedCaps P caps ↔ c ∈ caps ∧ c ∈ P.map Protocol.cap := by
  rw [matchedCaps, List.mem_dedup, List.mem_filter, (sortCaps_perm caps).mem_iff,
    findProto_isSome_iff]

theorem matchProtocols_eq (P : List Protocol) (caps : List Cap) :
    matchProtocols P caps = ((matchedCaps P caps).foldl (matchStep P) ([], baseProtocolLength)).1 := by
  rw [matchProtocols, foldl_matchStep_filter, matchedCaps,
    foldl_eq_foldl_dedup _ matchStep_matchStep (fun _ _ => Cap.le_antisymm)
      ((sortCaps_pairwise caps).sublist List.filter_sublist)]

/-- Each end walks the caps both have, in the same order. -/
theorem matchedCaps_comm (P₁ P₂ : List Protocol) :
    matchedCaps P₁ (P₂.map Protocol.cap) = matchedCaps P₂ (P₁.map Protocol.cap) := by
  have hmem : ∀ c, c ∈ matchedCaps P₁ (P₂.map Protocol.cap) ↔ c ∈ matchedCaps P₂ (P₁.map Protocol.cap) :=
    fun c => by rw [mem_matchedCaps, mem_matchedCaps, and_comm]
  have hperm := (List.perm_ext_iff_of_nodup (List.nodup_dedup _) (List.nodup_dedup _)).mpr hmem
  exact hperm.eq_of_pairwise (fun _ _ _ _ => Cap.le_antisymm) (matchedCaps_pairwise _ _)
    (matchedCaps_pairwise _ _)

/-- The first code the loop gives a cap's protocol: the next free one, or the one of the older
version it replaces. -/
theorem view_offset_eq {m₁ m₂ : GoMap String ProtoRW} {o : UInt64} (n : String)
    (hm : m₁.mapVal ProtoRW.view = m₂.mapVal ProtoRW.view) :
    ((m₁.get? n).elim o fun old => o - old.proto.length) =
      (m₂.get? n).elim o fun old => o - old.proto.length := by
  have hget := GoMap.get?_mapVal ProtoRW.view m₁ n
  rw [hm, GoMap.get?_mapVal] at hget
  cases h₁ : m₁.get? n <;> cases h₂ : m₂.get? n <;> simp only [h₁, h₂, Option.map] at hget
  · rfl
  · cases hget
  · cases hget
  · rename_i old₁ old₂
    have hlen : old₂.proto.length = old₁.proto.length := congrArg (fun v => v.2.2) (Option.some.inj hget)
    simp [hlen]

section
variable {P₁ P₂ : List Protocol}

/-- Over caps both ends match, the two loops give each name the same version and codes, as long
as a cap's protocols have one length at both ends. -/
theorem foldl_matchStep_view
    (hlen : ∀ p ∈ P₁, ∀ q ∈ P₂, p.cap = q.cap → p.length = q.length) :
    ∀ (l : List Cap) (s₁ s₂ : GoMap String ProtoRW × UInt64),
      (∀ c ∈ l, c ∈ P₁.map Protocol.cap ∧ c ∈ P₂.map Protocol.cap) →
      s₁.1.mapVal ProtoRW.view = s₂.1.mapVal ProtoRW.view → s₁.2 = s₂.2 →
      (l.foldl (matchStep P₁) s₁).1.mapVal ProtoRW.view =
          (l.foldl (matchStep P₂) s₂).1.mapVal ProtoRW.view ∧
        (l.foldl (matchStep P₁) s₁).2 = (l.foldl (matchStep P₂) s₂).2
  | [], _, _, _, hm, ho => ⟨hm, ho⟩
  | c :: l, s₁, s₂, hl, hm, ho => by
    obtain ⟨p₁, hp₁⟩ := Option.isSome_iff_exists.mp
      (findProto_isSome_iff.mpr (hl c List.mem_cons_self).1)
    obtain ⟨p₂, hp₂⟩ := Option.isSome_iff_exists.mp
      (findProto_isSome_iff.mpr (hl c List.mem_cons_self).2)
    obtain ⟨hmem₁, hcap₁⟩ := findProto_spec hp₁
    obtain ⟨hmem₂, hcap₂⟩ := findProto_spec hp₂
    have hl₁₂ : p₁.length = p₂.length := hlen p₁ hmem₁ p₂ hmem₂ (hcap₁.trans hcap₂.symm)
    have hv₁₂ : p₁.version = p₂.version := congrArg Cap.version (hcap₁.trans hcap₂.symm)
    have hoff := view_offset_eq (o := s₁.2) c.name hm
    rw [List.foldl_cons, List.foldl_cons, matchStep_of_some hp₁, matchStep_of_some hp₂]
    refine foldl_matchStep_view hlen l _ _ (fun c' hc' => hl c' (List.mem_cons_of_mem c hc')) ?_ ?_
    · simp only [GoMap.mapVal_set, hm, hoff, ← ho]
      simp [ProtoRW.view, hl₁₂, hv₁₂]
    · simp only [hoff, ← ho, hl₁₂]

end

/-! ## The version a name ends with -/

section
variable {P : List Protocol}

/-- After the loop a name is bound to the protocol of the last cap of that name a protocol
matched. -/
theorem get?_foldl_matchStep (n : String) :
    ∀ (l : List Cap) (s : GoMap String ProtoRW × UInt64),
      ((l.foldl (matchStep P) s).1.get? n).map (fun rw => rw.proto.cap) =
        (l.filter fun c => c.name = n && (findProto P c).isSome).getLast?.or
          ((s.1.get? n).map fun rw => rw.proto.cap)
  | [], _ => by simp
  | c :: l, s => by
    rw [List.foldl_cons, get?_foldl_matchStep n l]
    cases h : findProto P c with
    | none => simp [matchStep_of_none h, h]
    | some p =>
      rw [matchStep_of_some h]
      by_cases hn : c.name = n
      · -- the cap names `n`: its protocol is bound to `n`, and it is the latest
        subst hn
        simp only [GoMap.get?_set_self, Option.map_some, (findProto_spec h).2, h,
          Option.isSome_some, decide_true, Bool.and_self, List.filter_cons_of_pos,
          List.getLast?_cons]
        cases (l.filter fun c' => c'.name = c.name && (findProto P c').isSome).getLast? <;> rfl
      · rw [GoMap.get?_set_ne _ (Ne.symm hn), List.filter_cons_of_neg (by simp [hn])]

end

/-! ## The ranges the loop assigns -/

theorem consecutive_append_iff {start stop : UInt64} {m : GoMap String ProtoRW}
    {b : String × ProtoRW} :
    Consecutive start (m ++ [b]) stop ↔
      Consecutive start m b.2.offset ∧ stop = b.2.offset + b.2.proto.length := by
  induction m generalizing start with
  | nil =>
    simp only [List.nil_append, Consecutive]
    constructor
    · rintro ⟨h, rfl⟩
      exact ⟨h, by rw [h]⟩
    · rintro ⟨h, rfl⟩
      exact ⟨h, by rw [h]⟩
  | cons a m ih =>
    simp only [List.cons_append, Consecutive, ih, and_assoc]

/-- What the loop of `matchProtocols` keeps over sorted caps: the ranges follow one another from
`baseProtocolLength` to the next free code, and the names were bound in increasing order. -/
structure Assigned (s : GoMap String ProtoRW × UInt64) : Prop where
  consecutive : Consecutive baseProtocolLength s.1 s.2
  increasing : (s.1.map Prod.fst).Pairwise (· < ·)

/-- A bound name that is at least every bound name is the last one bound. -/
theorem eq_append_last {m : GoMap String ProtoRW} (hinc : (m.map Prod.fst).Pairwise (· < ·))
    {n : String} (hle : ∀ b ∈ m, b.1 ≤ n) {old : ProtoRW} (hget : m.get? n = some old) :
    ∃ m', m = m' ++ [(n, old)] ∧ ∀ b ∈ m', b.1 < n := by
  rcases List.eq_nil_or_concat m with rfl | ⟨m', ⟨k, v⟩, rfl⟩
  · cases hget
  rw [List.concat_eq_append] at hinc hle hget ⊢
  rw [List.map_append, List.pairwise_append] at hinc
  have hbefore : ∀ a ∈ m', a.1 < k := fun a ha =>
    hinc.2.2 a.1 (List.mem_map_of_mem ha) k (List.mem_singleton_self k)
  have hkn : k = n := by
    have hbound : ∃ a ∈ m' ++ [(k, v)], a.1 = n := by
      by_contra hno
      rw [GoMap.get?_eq_none fun a ha hak => hno ⟨a, ha, hak⟩] at hget
      cases hget
    obtain ⟨a, ha, rfl⟩ := hbound
    rcases List.mem_append.mp ha with ha | ha
    · exact absurd (hbefore a ha) (not_lt_of_ge (hle (k, v) (by simp)))
    · rw [List.mem_singleton.mp ha]
  subst hkn
  have hnone : GoMap.get? m' k = none := GoMap.get?_eq_none fun a ha => ne_of_lt (hbefore a ha)
  rw [GoMap.get?_append_of_none hnone, GoMap.get?_cons, if_pos rfl] at hget
  cases hget
  exact ⟨m', rfl, hbefore⟩

section
variable {P : List Protocol}

/-- One cap keeps the ranges consecutive and the names increasing, when no name bound so far
comes after the cap's. -/
theorem Assigned.step {s : GoMap String ProtoRW × UInt64} {c : Cap} (hs : Assigned s)
    (hle : ∀ b ∈ s.1, b.1 ≤ c.name) :
    Assigned (matchStep P s c) ∧ ∀ b ∈ (matchStep P s c).1, b.1 ≤ c.name := by
  obtain ⟨m, o⟩ := s
  cases h : findProto P c with
  | none => rw [matchStep_of_none h]; exact ⟨hs, hle⟩
  | some p =>
    rw [matchStep_of_some h]
    cases hget : GoMap.get? m c.name with
    | none =>
      have hfree := GoMap.get?_eq_none_iff.mp hget
      simp only [Option.elim_none]
      rw [GoMap.set_of_not_contains (GoMap.contains_eq_false_iff.mpr hfree)]
      refine ⟨⟨consecutive_append_iff.mpr ⟨hs.consecutive, rfl⟩, ?_⟩, ?_⟩
      · rw [List.map_append, List.pairwise_append]
        refine ⟨hs.increasing, List.pairwise_singleton _ _, ?_⟩
        intro a ha b hb
        obtain ⟨a', ha', rfl⟩ := List.mem_map.mp ha
        rw [List.map_singleton, List.mem_singleton] at hb
        exact hb ▸ lt_of_le_of_ne (hle a' ha') (hfree a' ha')
      · intro b hb
        rcases List.mem_append.mp hb with hb | hb
        · exact hle b hb
        · rw [List.mem_singleton.mp hb]
    | some old =>
      obtain ⟨m', rfl, hbefore⟩ := eq_append_last hs.increasing hle hget
      obtain ⟨hcons, hstop⟩ := consecutive_append_iff.mp hs.consecutive
      have hstop' : o = old.offset + old.proto.length := hstop
      simp only [Option.elim_some]
      rw [show o - old.proto.length = old.offset by rw [hstop', UInt64.add_sub_cancel],
        GoMap.set_append_last (fun b hb => ne_of_lt (hbefore b hb))]
      refine ⟨⟨consecutive_append_iff.mpr ⟨hcons, rfl⟩, ?_⟩, ?_⟩
      · simpa using hs.increasing
      · intro b hb
        rcases List.mem_append.mp hb with hb | hb
        · exact le_of_lt (hbefore b hb)
        · rw [List.mem_singleton.mp hb]

/-- Over sorted caps the loop keeps `Assigned`. -/
theorem Assigned.foldl :
    ∀ (l : List Cap) (s : GoMap String ProtoRW × UInt64), l.Pairwise Cap.le → Assigned s →
      (∀ c ∈ l, ∀ b ∈ s.1, b.1 ≤ c.name) → Assigned (l.foldl (matchStep P) s)
  | [], _, _, hs, _ => hs
  | c :: l, s, hl, hs, hle => by
    obtain ⟨hc, hl'⟩ := List.pairwise_cons.mp hl
    obtain ⟨hs', hle'⟩ := hs.step (P := P) (hle c List.mem_cons_self)
    exact Assigned.foldl l _ hl' hs' fun c' hc' b hb =>
      (hle' b hb).trans (Cap.name_le_of_le (hc c' hc'))

theorem assigned_matchProtocols (caps : List Cap) :
    Assigned ((sortCaps caps).foldl (matchStep P) ([], baseProtocolLength)) :=
  Assigned.foldl _ _ (sortCaps_pairwise caps) ⟨rfl, List.Pairwise.nil⟩ fun _ _ _ hb => absurd hb (by simp)

/-- Every name is bound to a protocol of that name. -/
theorem foldl_matchStep_protos :
    ∀ (l : List Cap) (s : GoMap String ProtoRW × UInt64),
      (∀ b ∈ s.1, b.2.proto ∈ P ∧ b.2.proto.name = b.1) →
      ∀ b ∈ (l.foldl (matchStep P) s).1, b.2.proto ∈ P ∧ b.2.proto.name = b.1
  | [], _, hs => hs
  | c :: l, s, hs => by
    refine foldl_matchStep_protos l _ ?_
    cases h : findProto P c with
    | none => rw [matchStep_of_none h]; exact hs
    | some p =>
      rw [matchStep_of_some h]
      intro b hb
      rcases GoMap.mem_set hb with hb | rfl
      · exact hs b hb
      · exact ⟨(findProto_spec h).1, congrArg Cap.name (findProto_spec h).2⟩

/-- The bound protocols are distinct protocols of `P`, so they use no more codes than `P`. -/
theorem codeSpan_le {m : GoMap String ProtoRW} (hprotos : ∀ b ∈ m, b.2.proto ∈ P ∧ b.2.proto.name = b.1)
    (hnodup : (m.map Prod.fst).Nodup) : codeSpan m ≤ (P.map fun p => p.length.toNat).sum := by
  have hinj : ∀ x ∈ m, ∀ y ∈ m, x.2.proto = y.2.proto → x = y := fun x hx y hy h =>
    List.inj_on_of_nodup_map hnodup hx hy
      (by rw [← (hprotos x hx).2, ← (hprotos y hy).2, h])
  have hdistinct : (m.map fun b => b.2.proto).Nodup := (hnodup.of_map Prod.fst).map_on hinj
  obtain ⟨l, hperm, hsub⟩ := List.subperm_of_subset hdistinct fun p hp => by
    obtain ⟨b, hb, rfl⟩ := List.mem_map.mp hp
    exact (hprotos b hb).1
  calc codeSpan m = ((m.map fun b => b.2.proto).map fun p => p.length.toNat).sum := by
        rw [codeSpan, List.map_map]; rfl
    _ = (l.map fun p => p.length.toNat).sum := ((hperm.map _).sum_eq).symm
    _ ≤ (P.map fun p => p.length.toNat).sum := (hsub.map _).sum_le_sum fun _ _ => Nat.zero_le _

end

/-- Consecutive ranges that do not pass `2 ^ 64` lie one after another above `start`. -/
theorem Consecutive.ranges :
    ∀ (m : GoMap String ProtoRW) (start stop : UInt64), Consecutive start m stop →
      start.toNat + codeSpan m < 2 ^ 64 →
      (∀ b ∈ m, start.toNat ≤ b.2.offset.toNat ∧
          b.2.offset.toNat + b.2.proto.length.toNat ≤ start.toNat + codeSpan m) ∧
        m.Pairwise fun a b => a.2.offset.toNat + a.2.proto.length.toNat ≤ b.2.offset.toNat
  | [], _, _, _, _ => ⟨by simp, List.Pairwise.nil⟩
  | b :: m, start, stop, ⟨hb, hm⟩, hfit => by
    have hspan : codeSpan (b :: m) = b.2.proto.length.toNat + codeSpan m := by
      simp [codeSpan]
    have hnext : (start + b.2.proto.length).toNat = start.toNat + b.2.proto.length.toNat := by
      rw [UInt64.toNat_add, Nat.mod_eq_of_lt (by omega)]
    obtain ⟨hin, hpair⟩ := Consecutive.ranges m _ stop hm (by omega)
    rw [hnext] at hin
    refine ⟨?_, List.pairwise_cons.mpr ⟨fun a ha => ?_, hpair⟩⟩
    · intro a ha
      rcases List.mem_cons.mp ha with rfl | ha
      · rw [hb]; omega
      · have := hin a ha; omega
    · have := hin a ha
      rw [hb]; omega

/-! ## Routing a message -/

/-- Ranges one after another overlap nowhere: a code lies in at most one of them. -/
theorem eq_of_mem_ranges {m : GoMap String ProtoRW}
    (hpair : m.Pairwise fun a b => a.2.offset.toNat + a.2.proto.length.toNat ≤ b.2.offset.toNat)
    {w : ℕ} {x y : String × ProtoRW} (hx : x ∈ m) (hy : y ∈ m)
    (hwx : x.2.offset.toNat ≤ w ∧ w < x.2.offset.toNat + x.2.proto.length.toNat)
    (hwy : y.2.offset.toNat ≤ w ∧ w < y.2.offset.toNat + y.2.proto.length.toNat) : x = y := by
  induction m with
  | nil => cases hx
  | cons a m ih =>
    obtain ⟨ha, hm⟩ := List.pairwise_cons.mp hpair
    rcases List.mem_cons.mp hx with rfl | hx' <;> rcases List.mem_cons.mp hy with rfl | hy'
    · rfl
    · have := ha y hy'; omega
    · have := ha x hx'; omega
    · exact ih hm hx' hy'

/-- In whatever order the running protocols are visited, `getProto` finds the one whose range
holds the code. -/
theorem getProto_of_mem {m running : GoMap String ProtoRW} (hperm : running.Perm m)
    (hpair : m.Pairwise fun a b => a.2.offset.toNat + a.2.proto.length.toNat ≤ b.2.offset.toNat)
    (hfit : ∀ b ∈ m, b.2.offset.toNat + b.2.proto.length.toNat < 2 ^ 64)
    {b : String × ProtoRW} (hb : b ∈ m) {w : UInt64}
    (hw : b.2.offset.toNat ≤ w.toNat ∧ w.toNat < b.2.offset.toNat + b.2.proto.length.toNat) :
    getProto running w = some b.2 := by
  have htest : ∀ x ∈ m, (w ≥ x.2.offset && w < x.2.offset + x.2.proto.length) = true ↔
      x.2.offset.toNat ≤ w.toNat ∧ w.toNat < x.2.offset.toNat + x.2.proto.length.toNat := by
    intro x hx
    simp only [Bool.and_eq_true, decide_eq_true_eq, ge_iff_le, UInt64.le_iff_toNat_le,
      UInt64.lt_iff_toNat_lt, UInt64.toNat_add, Nat.mod_eq_of_lt (hfit x hx)]
  unfold getProto
  cases hf : running.find? (fun x => w ≥ x.2.offset && w < x.2.offset + x.2.proto.length) with
  | none =>
    have hno := List.find?_eq_none.mp hf b (hperm.mem_iff.mpr hb)
    exact absurd ((htest b hb).mpr hw) hno
  | some x =>
    have hxm : x ∈ m := hperm.mem_iff.mp (List.mem_of_find?_eq_some hf)
    have hpx := List.find?_some hf
    rw [Option.map_some, eq_of_mem_ranges hpair hxm hb ((htest x hxm).mp hpx) hw]

/-! ## What the two ends agree on -/

section
variable (P₁ P₂ : List Protocol)

theorem codeSpan_eq_of_view {m₁ m₂ : GoMap String ProtoRW}
    (h : m₁.mapVal ProtoRW.view = m₂.mapVal ProtoRW.view) : codeSpan m₁ = codeSpan m₂ := by
  have hspan : ∀ m : GoMap String ProtoRW,
      codeSpan m = ((m.mapVal ProtoRW.view).map fun b => b.2.2.2.toNat).sum := fun m => by
    rw [codeSpan, GoMap.mapVal, List.map_map]; rfl
  rw [hspan, h, ← hspan]

/-- Both ends bind the same names, in the same order, with the same versions and ranges. -/
theorem matchProtocols_view_eq (hlen : ∀ p ∈ P₁, ∀ q ∈ P₂, p.cap = q.cap → p.length = q.length) :
    (matchProtocols P₁ (P₂.map Protocol.cap)).mapVal ProtoRW.view =
      (matchProtocols P₂ (P₁.map Protocol.cap)).mapVal ProtoRW.view := by
  rw [matchProtocols_eq, matchProtocols_eq, matchedCaps_comm P₂ P₁]
  exact (foldl_matchStep_view hlen _ ([], baseProtocolLength) ([], baseProtocolLength)
    (fun c hc => (mem_matchedCaps.mp hc).symm) rfl rfl).1

/-- Each bound name is at the highest version both ends have. -/
theorem matchProtocols_highest {n : String} {rw : ProtoRW}
    (h : (matchProtocols P₁ (P₂.map Protocol.cap)).get? n = some rw) :
    rw.proto.name = n ∧ Common P₁ P₂ rw.proto.cap ∧
      ∀ v, Common P₁ P₂ ⟨n, v⟩ → v ≤ rw.proto.version := by
  have hlast := get?_foldl_matchStep (P := P₁) n (sortCaps (P₂.map Protocol.cap)) ([], baseProtocolLength)
  rw [← matchProtocols, h] at hlast
  simp only [GoMap.get?_nil, Option.map_none, Option.or_none] at hlast
  set L := (sortCaps (P₂.map Protocol.cap)).filter
    fun c => c.name = n && (findProto P₁ c).isSome with hL
  have hsorted : L.Pairwise Cap.le := (sortCaps_pairwise _).sublist List.filter_sublist
  have hmem := List.mem_of_getLast? hlast.symm
  rw [hL, List.mem_filter, (sortCaps_perm _).mem_iff] at hmem
  simp only [Bool.and_eq_true, decide_eq_true_eq] at hmem
  obtain ⟨hcap₂, hname, hfound⟩ := hmem
  have hname' : rw.proto.name = n := hname
  refine ⟨hname', ⟨findProto_isSome_iff.mp hfound, hcap₂⟩, fun v hv => ?_⟩
  obtain ⟨hv₁, hv₂⟩ := hv
  have hvL : (⟨n, v⟩ : Cap) ∈ L := by
    rw [hL, List.mem_filter, (sortCaps_perm _).mem_iff]
    simp [hv₂, findProto_isSome_iff.mpr hv₁]
  rcases le_of_getLast? hsorted hlast.symm hvL with hlt | ⟨-, hle⟩
  · exact absurd (hname ▸ hlt) (lt_irrefl _)
  · exact hle

/-- Every name both ends have a version of is bound. -/
theorem matchProtocols_bound {c : Cap} (hc : Common P₁ P₂ c) :
    ((matchProtocols P₁ (P₂.map Protocol.cap)).get? c.name).isSome := by
  have hlast := get?_foldl_matchStep (P := P₁) c.name (sortCaps (P₂.map Protocol.cap))
    ([], baseProtocolLength)
  rw [← matchProtocols] at hlast
  simp only [GoMap.get?_nil, Option.map_none, Option.or_none] at hlast
  have hcL : c ∈ (sortCaps (P₂.map Protocol.cap)).filter
      fun c' => c'.name = c.name && (findProto P₁ c').isSome := by
    rw [List.mem_filter, (sortCaps_perm _).mem_iff]
    simp [hc.2, findProto_isSome_iff.mpr hc.1]
  obtain ⟨z, hz⟩ := Option.isSome_iff_exists.mp (List.getLast?_isSome.mpr (List.ne_nil_of_mem hcL))
  rw [hz] at hlast
  cases hg : (matchProtocols P₁ (P₂.map Protocol.cap)).get? c.name with
  | none => rw [hg] at hlast; cases hlast
  | some _ => rfl

/-- The ranges of an end follow one another from `baseProtocolLength`. -/
theorem matchProtocols_consecutive (P : List Protocol) (caps : List Cap) :
    ∃ stop, Consecutive baseProtocolLength (matchProtocols P caps) stop :=
  ⟨_, (assigned_matchProtocols (P := P) caps).consecutive⟩

/-- An end's ranges use no more codes than its protocols have. -/
theorem codeSpan_matchProtocols_le (P : List Protocol) (caps : List Cap) :
    codeSpan (matchProtocols P caps) ≤ (P.map fun p => p.length.toNat).sum := by
  have hassigned := assigned_matchProtocols (P := P) caps
  have hprotos := foldl_matchStep_protos (P := P) (sortCaps caps) ([], baseProtocolLength)
    (fun _ hb => absurd hb (by simp))
  exact codeSpan_le hprotos (hassigned.increasing.imp ne_of_lt)

/-- The ranges of an end that uses fewer than `2 ^ 64 - 16` codes: from `baseProtocolLength` on,
none wrapping, one after another. -/
theorem ranges_of_codeSpan {m : GoMap String ProtoRW} {stop : UInt64}
    (hcons : Consecutive baseProtocolLength m stop) (hspan : 16 + codeSpan m < 2 ^ 64) :
    (∀ b ∈ m, 16 ≤ b.2.offset.toNat ∧ b.2.offset.toNat + b.2.proto.length.toNat < 2 ^ 64) ∧
      m.Pairwise fun a b => a.2.offset.toNat + a.2.proto.length.toNat ≤ b.2.offset.toNat := by
  obtain ⟨hin, hpair⟩ := Consecutive.ranges m _ stop hcons hspan
  exact ⟨fun b hb => ⟨(hin b hb).1, lt_of_le_of_lt (hin b hb).2 hspan⟩, hpair⟩

/-- A message a protocol of one end writes reaches the protocol of that name at the other end,
with its code, in whatever order that end visits its protocols. -/
theorem matchProtocols_deliver
    (hlen : ∀ p ∈ P₁, ∀ q ∈ P₂, p.cap = q.cap → p.length = q.length)
    (hspan : 16 + (P₁.map fun p => p.length.toNat).sum < 2 ^ 64) {n : String} {rw₁ : ProtoRW}
    (h₁ : (matchProtocols P₁ (P₂.map Protocol.cap)).get? n = some rw₁) {c : UInt64}
    (hc : c < rw₁.proto.length) :
    ∃ rw₂ w, (matchProtocols P₂ (P₁.map Protocol.cap)).get? n = some rw₂ ∧
      rw₁.writeMsg c = .ok w ∧
      (∀ running : GoMap String ProtoRW, running.Perm (matchProtocols P₂ (P₁.map Protocol.cap)) →
        handle running w = .deliver rw₂) ∧
      rw₂.readMsg w = c := by
  have hview := matchProtocols_view_eq P₁ P₂ hlen
  have hget := GoMap.get?_mapVal ProtoRW.view (matchProtocols P₁ (P₂.map Protocol.cap)) n
  rw [hview, GoMap.get?_mapVal, h₁, Option.map_some] at hget
  obtain ⟨rw₂, h₂, hv⟩ := Option.map_eq_some_iff.mp hget
  have hoff : rw₂.offset = rw₁.offset := congrArg (fun v => v.2.1) hv
  have hlen₂ : rw₂.proto.length = rw₁.proto.length := congrArg (fun v => v.2.2) hv
  have hspan₁ : 16 + codeSpan (matchProtocols P₁ (P₂.map Protocol.cap)) < 2 ^ 64 :=
    lt_of_le_of_lt (Nat.add_le_add_left (codeSpan_matchProtocols_le _ _) 16) hspan
  have hspan₂ : 16 + codeSpan (matchProtocols P₂ (P₁.map Protocol.cap)) < 2 ^ 64 := by
    rwa [← codeSpan_eq_of_view hview]
  obtain ⟨stop₁, hcons₁⟩ := matchProtocols_consecutive P₁ (P₂.map Protocol.cap)
  obtain ⟨stop₂, hcons₂⟩ := matchProtocols_consecutive P₂ (P₁.map Protocol.cap)
  obtain ⟨hin₁, -⟩ := ranges_of_codeSpan hcons₁ hspan₁
  obtain ⟨hin₂, hpair₂⟩ := ranges_of_codeSpan hcons₂ hspan₂
  have hmem₂ := GoMap.mem_of_get?_eq_some h₂
  obtain ⟨h16, hfit⟩ : 16 ≤ rw₁.offset.toNat ∧ rw₁.offset.toNat + rw₁.proto.length.toNat < 2 ^ 64 :=
    hin₁ _ (GoMap.mem_of_get?_eq_some h₁)
  have hcn : c.toNat < rw₁.proto.length.toNat := UInt64.lt_iff_toNat_lt.mp hc
  have hw : (c + rw₁.offset).toNat = c.toNat + rw₁.offset.toNat := by
    rw [UInt64.toNat_add, Nat.mod_eq_of_lt (by omega)]
  have hw16 : 16 ≤ (c + rw₁.offset).toNat := by
    rw [hw]; omega
  have hping : c + rw₁.offset ≠ pingMsg := fun h => by
    rw [h] at hw16; exact absurd hw16 (by decide)
  have hdisc : c + rw₁.offset ≠ discMsg := fun h => by
    rw [h] at hw16; exact absurd hw16 (by decide)
  have hbase : ¬ c + rw₁.offset < baseProtocolLength := fun h => by
    have hlt := UInt64.lt_iff_toNat_lt.mp h
    have hbase : baseProtocolLength.toNat = 16 := rfl
    omega
  refine ⟨rw₂, c + rw₁.offset, h₂, ?_, fun running hperm => ?_, ?_⟩
  · simp [ProtoRW.writeMsg, UInt64.not_le.mpr hc]
  · have hroute := getProto_of_mem hperm hpair₂ (fun b hb => (hin₂ b hb).2) hmem₂
      (w := c + rw₁.offset) (by simp only; rw [hw, hoff, hlen₂]; omega)
    simp only [handle, hping, hdisc, hbase, if_false, hroute]
  · simp [ProtoRW.readMsg, hoff, UInt64.add_sub_cancel]

end

theorem Consecutive.head {start stop : UInt64} {m : GoMap String ProtoRW}
    (h : Consecutive start m stop) : ∀ b ∈ m.head?, b.2.offset = start := by
  cases m with
  | nil => simp
  | cons a m =>
    intro b hb
    rw [List.head?_cons, Option.mem_some_iff] at hb
    exact hb ▸ h.1

/-- What two ends with protocol lists `P₁` and `P₂` get from `matchProtocols` on each other's
caps, seen from the end of `P₁`: the same names in the same order, with the same versions and
ranges; each name at the highest version both have, and every name both have bound; ranges from
`baseProtocolLength` on, none wrapping, none overlapping; and a message written to a protocol
reaches the protocol of that name at the other end with its code. -/
structure Multiplexed (P₁ P₂ : List Protocol) : Prop where
  same_view : (matchProtocols P₁ (P₂.map Protocol.cap)).mapVal ProtoRW.view =
    (matchProtocols P₂ (P₁.map Protocol.cap)).mapVal ProtoRW.view
  highest : ∀ n rw, (matchProtocols P₁ (P₂.map Protocol.cap)).get? n = some rw →
    rw.proto.name = n ∧ Common P₁ P₂ rw.proto.cap ∧
      ∀ v, Common P₁ P₂ ⟨n, v⟩ → v ≤ rw.proto.version
  bound : ∀ c, Common P₁ P₂ c → ((matchProtocols P₁ (P₂.map Protocol.cap)).get? c.name).isSome
  first_at_base : ∀ b ∈ (matchProtocols P₁ (P₂.map Protocol.cap)).head?,
    b.2.offset = baseProtocolLength
  in_range : ∀ b ∈ matchProtocols P₁ (P₂.map Protocol.cap),
    16 ≤ b.2.offset.toNat ∧ b.2.offset.toNat + b.2.proto.length.toNat < 2 ^ 64
  disjoint : (matchProtocols P₁ (P₂.map Protocol.cap)).Pairwise
    fun a b => a.2.offset.toNat + a.2.proto.length.toNat ≤ b.2.offset.toNat
  deliver : ∀ n rw₁ c, (matchProtocols P₁ (P₂.map Protocol.cap)).get? n = some rw₁ →
    c < rw₁.proto.length →
    ∃ rw₂ w, (matchProtocols P₂ (P₁.map Protocol.cap)).get? n = some rw₂ ∧
      rw₁.writeMsg c = .ok w ∧
      (∀ running : GoMap String ProtoRW, running.Perm (matchProtocols P₂ (P₁.map Protocol.cap)) →
        handle running w = .deliver rw₂) ∧
      rw₂.readMsg w = c

theorem matchProtocols_agree (P₁ P₂ : List Protocol)
    (hlen : ∀ p ∈ P₁, ∀ q ∈ P₂, p.cap = q.cap → p.length = q.length)
    (hspan : 16 + (P₁.map fun p => p.length.toNat).sum < 2 ^ 64) : Multiplexed P₁ P₂ := by
  obtain ⟨stop, hcons⟩ := matchProtocols_consecutive P₁ (P₂.map Protocol.cap)
  obtain ⟨hin, hpair⟩ := ranges_of_codeSpan hcons
    (lt_of_le_of_lt (Nat.add_le_add_left (codeSpan_matchProtocols_le _ _) 16) hspan)
  exact ⟨matchProtocols_view_eq P₁ P₂ hlen, fun _ _ h => matchProtocols_highest P₁ P₂ h,
    fun _ hc => matchProtocols_bound P₁ P₂ hc, hcons.head, hin, hpair,
    fun _ _ _ h₁ hc => matchProtocols_deliver P₁ P₂ hlen hspan h₁ hc⟩

/-- Two protocol lists with versions of `eth` and `les` in common. -/
def sampleProtocols : List Protocol := [⟨"eth", 62, 8⟩, ⟨"eth", 63, 17⟩, ⟨"les", 2, 21⟩]
def samplePeerProtocols : List Protocol := [⟨"eth", 63, 17⟩, ⟨"les", 2, 21⟩, ⟨"shh", 5, 2⟩]

theorem sampleProtocols_multiplexed : Multiplexed sampleProtocols samplePeerProtocols :=
  matchProtocols_agree sampleProtocols samplePeerProtocols (by decide) (by decide)

/-- Two ends that give one protocol different lengths. -/
def lengthMismatchA : List Protocol := [⟨"a", 1, 5⟩, ⟨"b", 1, 3⟩]
def lengthMismatchB : List Protocol := [⟨"a", 1, 7⟩, ⟨"b", 1, 3⟩]

/-- When the ends give `a/1` different lengths, they put `b/1` at different offsets, and a
message of `b` with code `0` arrives at the other end as a message of `a` with code `5`. -/
theorem matchProtocols_length_mismatch :
    ((matchProtocols lengthMismatchA (lengthMismatchB.map Protocol.cap)).get? "b").map
        (fun rw => rw.offset) = some 21 ∧
      ((matchProtocols lengthMismatchB (lengthMismatchA.map Protocol.cap)).get? "b").map
        (fun rw => rw.offset) = some 23 ∧
      handle (matchProtocols lengthMismatchB (lengthMismatchA.map Protocol.cap)) 21 =
        .deliver ⟨⟨"a", 1, 7⟩, 16⟩ := by
  decide

end Srcd.P2p
