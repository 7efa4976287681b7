import Mathlib
import Srcd.Library.Arena
import Srcd.Trie.Sync
import Srcd.Trie.Collapsed

/-! # What every run of the sync scheduler keeps (`trie/sync.go`)

Whatever the calls, the scheduler stays well formed (`Sync.WF`): the requests map each hash
once, to a request for that hash on the heap; every pointer points into the heap; and the queue
is a heap of `prque`'s order. On such a state the recursion of `commit` never runs out of its
bound: each nested call is on a parent whose count of missing children just dropped to zero, so
the requests still waiting for a child are the potential it spends (`Sync.commit_isSome`).
`Process` then fails only as Go's `Process` does, and `Missing` hands out the queued hashes
deepest first.

A node that decodes is short or full, and refers to other nodes by hashes of 32 bytes, so the
hash `children` requests is the key it looks up on disk.
-/

namespace Srcd.Trie
open Srcd.Library Srcd.Rlp Srcd.Rlp.Raw
set_option autoImplicit false

theorem PrqueItem.less_eq_decide (a b : PrqueItem) :
    PrqueItem.less a b = decide (OrderDual.toDual a.priority < OrderDual.toDual b.priority) := by
  simp [PrqueItem.less]

/-! ## What a decoded node refers to -/

/-- The nodes `children` looks at in a node: the value of a short node, the slots of a full node
that are not nil. -/
def childNodes : Node → List Node
  | .shortNode _ val => [val]
  | .fullNode cs => ((List.finRange 17).filter fun i => cs i ≠ .nil).map cs
  | _ => []

theorem childrenOf_fst {req : Request} {n : Node} {cs : List (Node × ℕ)}
    (h : Sync.childrenOf req n = some cs) : cs.map Prod.fst = childNodes n := by
  cases n with
  | shortNode key val =>
    simp only [Sync.childrenOf, Option.some.injEq] at h
    subst h
    rfl
  | fullNode f =>
    simp only [Sync.childrenOf, Option.some.injEq] at h
    subst h
    simp [childNodes, Function.comp_def]
  | nil | hashNode _ | valueNode _ => cases h

theorem decodeRef_hash_length {fuel : ℕ} {buf rest c : List UInt8}
    (h : decodeRef fuel buf = .ok (.hashNode c, rest)) : c.length = 32 := by
  rw [decodeRef] at h
  split at h
  · cases h
  · split at h
    · -- an embedded node decodes to a short or a full node, never to a hash
      dsimp only at h
      split at h
      · cases h
      · split at h
        · cases h
        · rcases hd : decodeNode _ _ with _ | n <;> rw [hd] at h <;> cases h
          rw [decodeNode] at hd
          split at hd
          · cases hd
          · split at hd
            · cases hd
            · split at hd
              · rcases hs : decodeShort _ _ with _ | n <;> rw [hs] at hd <;> cases hd
                rw [decodeShort] at hs
                repeat' (first | split at hs | cases hs)
              · rcases hf : decodeFull _ _ with _ | n <;> rw [hf] at hd <;> cases hd
                rw [decodeFull] at hf
                repeat' (first | split at hf | cases hf)
              · cases hd
    · split at h
      · cases h
      · split at h
        · cases h
          omega
        · cases h

theorem decodeRefs_hash_length {fuel i : ℕ} {elems : List UInt8} {k : ℕ} {refs : List Node}
    {rest : List UInt8} (h : decodeRefs fuel i elems k = .ok (refs, rest)) :
    ∀ c, Node.hashNode c ∈ refs → c.length = 32 := by
  induction k generalizing i elems refs with
  | zero =>
    rw [decodeRefs] at h
    cases h
    simp
  | succ k ih =>
    rw [decodeRefs] at h
    split at h
    · cases h
    · rename_i cld rest' hcld
      rcases hr : decodeRefs fuel (i + 1) rest' k with _ | ⟨clds, rest''⟩ <;> rw [hr] at h <;>
        cases h
      intro c hc
      rcases List.mem_cons.1 hc with hc | hc
      · exact decodeRef_hash_length (hc ▸ hcld)
      · exact ih hr c hc

theorem decodeShort_spec {fuel : ℕ} {elems : List UInt8} {n : Node}
    (h : decodeShort fuel elems = .ok n) :
    ∃ key val, n = .shortNode key val ∧ ∀ c, val = .hashNode c → c.length = 32 := by
  rw [decodeShort] at h
  split at h
  · cases h
  · split at h
    · cases h
    · split at h
      · split at h
        · cases h
        · cases h
          exact ⟨_, _, rfl, fun c hc => by cases hc⟩
      · split at h
        · cases h
        · rename_i r rest hr
          cases h
          exact ⟨_, _, rfl, fun c hc => decodeRef_hash_length (hc ▸ hr)⟩

theorem decodeFull_spec {fuel : ℕ} {elems : List UInt8} {n : Node}
    (h : decodeFull fuel elems = .ok n) :
    ∃ cs, n = .fullNode cs ∧ ∀ i c, cs i = .hashNode c → c.length = 32 := by
  rw [decodeFull] at h
  split at h
  · cases h
  · rename_i refs rest hrefs
    split at h
    · cases h
    · cases h
      refine ⟨_, rfl, fun i c hc => ?_⟩
      simp only [fullChildren] at hc
      split at hc
      · -- one of the sixteen references
        rw [List.getD_eq_getElem?_getD] at hc
        rcases hget : refs[i.val]? with _ | r <;> rw [hget] at hc
        · cases hc
        · exact decodeRefs_hash_length hrefs c (hc ▸ List.mem_of_getElem? hget)
      · split at hc <;> cases hc

/-- A node that decodes is one `children` knows, and refers to others by hashes of 32 bytes. -/
theorem decodeNode_refs {fuel : ℕ} {buf : List UInt8} {n : Node} (h : decodeNode fuel buf = .ok n) :
    (∀ req, (Sync.childrenOf req n).isSome) ∧ ∀ c, Node.hashNode c ∈ childNodes n → c.length = 32 := by
  rw [decodeNode] at h
  split at h
  · cases h
  · split at h
    · cases h
    · split at h
      · rcases hs : decodeShort fuel _ with _ | n' <;> rw [hs] at h <;> cases h
        obtain ⟨key, val, rfl, hval⟩ := decodeShort_spec hs
        exact ⟨fun _ => rfl, fun c hc => hval c (List.mem_singleton.1 hc).symm⟩
      · rcases hf : decodeFull fuel _ with _ | n' <;> rw [hf] at h <;> cases h
        obtain ⟨cs, rfl, hcs⟩ := decodeFull_spec hf
        refine ⟨fun _ => rfl, fun c hc => ?_⟩
        obtain ⟨i, -, hi⟩ := List.mem_map.1 hc
        exact hcs i c hi
      · cases h

/-! ## A download of a two-node trie

A branch node whose child under nibble 0 is a leaf too long to embed, so that the branch refers to
it by hash, and whose child under nibble 1 is a small leaf written in place. `sampleSyncEvents`
downloads it: the root is requested, the branch delivered, the leaf it refers to requested and
delivered, the two committed, and the membatch written out twice, the write of the root failing
the first time.
-/

def sampleLeaf : Node := .shortNode [1, 16] (.valueNode (List.replicate 40 7))

def sampleBranch : Node :=
  .fullNode ![sampleLeaf, .shortNode [0, 16] (.valueNode [3]), .nil, .nil, .nil, .nil, .nil, .nil,
    .nil, .nil, .nil, .nil, .nil, .nil, .nil, .nil, .nil]

theorem canon_sampleLeaf : sampleLeaf.Canon :=
  ⟨by simp, .inl ⟨⟨[1], rfl, by decide⟩, _, rfl⟩⟩

theorem canon_sampleBranch : sampleBranch.Canon := by
  refine ⟨fun i hi => ?_, trivial, by decide⟩
  fin_cases i
  · exact canon_sampleLeaf
  · exact ⟨by simp, .inl ⟨⟨[0], rfl, by decide⟩, _, rfl⟩⟩
  all_goals trivial

theorem decodeNode_nil (fuel : ℕ) : decodeNode fuel [] = .error (.rlp .unexpectedEOF) := by
  rw [decodeNode]
  rfl

theorem decodeNode_sampleLeaf :
    decodeNode (encodeCollapsed lengthKeccak sampleLeaf).length
      (encodeCollapsed lengthKeccak sampleLeaf) = .ok (hashChildren lengthKeccak sampleLeaf) := by
  simpa using decodeNode_encodeCollapsed lengthKeccak length_lengthKeccak canon_sampleLeaf
    (by simp [sampleLeaf]) (by simp [sampleLeaf, Node.AllValues]) (by decide) _ [] le_rfl

theorem decodeNode_sampleBranch :
    decodeNode (encodeCollapsed lengthKeccak sampleBranch).length
      (encodeCollapsed lengthKeccak sampleBranch) = .ok (hashChildren lengthKeccak sampleBranch) := by
  simpa using decodeNode_encodeCollapsed lengthKeccak length_lengthKeccak canon_sampleBranch
    (by simp [sampleBranch]) (fun i => by fin_cases i <;> simp [sampleLeaf, Node.AllValues])
    (by decide) _ [] le_rfl

def sampleRoot : Hash := lengthKeccak (encodeCollapsed lengthKeccak sampleBranch)

def sampleLeafHash : Hash := lengthKeccak (encodeCollapsed lengthKeccak sampleLeaf)

/-- A leaf callback that accepts every value. -/
def acceptLeaf : List UInt8 → Hash → Except Unit Unit := fun _ _ => .ok ()

def sampleSyncEvents : List SyncEvent :=
  [.addSubTrie sampleRoot 0 zeroHash false, .missing 0,
    .process [⟨sampleRoot, encodeCollapsed lengthKeccak sampleBranch⟩], .missing 0,
    .process [⟨sampleLeafHash, encodeCollapsed lengthKeccak sampleLeaf⟩], .commit [sampleRoot],
    .commit []]

/-- Where `sampleSyncEvents` ends: nothing pending, the membatch written out, both nodes on disk. -/
def sampleSyncFinal : SyncSys :=
  ⟨⟨[⟨sampleRoot, some (encodeCollapsed lengthKeccak sampleBranch), false, [], 0, 0, false⟩,
      ⟨sampleLeafHash, some (encodeCollapsed lengthKeccak sampleLeaf), false, [0], 1, 0, false⟩],
      [], [], [], []⟩,
    [(sampleLeafHash, encodeCollapsed lengthKeccak sampleLeaf),
      (sampleRoot, encodeCollapsed lengthKeccak sampleBranch)]⟩

theorem run_sampleSync :
    (SyncSys.init []).run id acceptLeaf sampleSyncEvents = some sampleSyncFinal := by
  simp only [sampleSyncEvents, SyncSys.run, SyncSys.step, SyncSys.init, Sync.process,
    Sync.processLoop, Sync.processItem, Sync.addSubTrie, GoMap.get?_nil, Option.getD_none,
    List.length_nil, decodeNode_nil, decodeNode_sampleBranch, decodeNode_sampleLeaf]
  decide +kernel

namespace Sync

/-! ## Reads and writes through pointers -/

section Fields
variable (s : Sync) (p : ℕ) (f : Request → Request)

@[simp] theorem modify_batch : (s.modify p f).batch = s.batch := rfl
@[simp] theorem modify_order : (s.modify p f).order = s.order := rfl
@[simp] theorem modify_queue : (s.modify p f).queue = s.queue := rfl
@[simp] theorem length_modify : (s.modify p f).reqs.length = s.reqs.length :=
  List.length_modify f s.reqs p

@[simp] theorem store_reqs (r : Request) : (s.store r).reqs = s.reqs := rfl
@[simp] theorem store_queue (r : Request) : (s.store r).queue = s.queue := rfl
@[simp] theorem get_store (r : Request) : (s.store r).get p = s.get p := rfl

end Fields

theorem get_modify_self {s : Sync} {p : ℕ} (hp : p < s.reqs.length) (f : Request → Request) :
    (s.modify p f).get p = f (s.get p) :=
  getD_modify_self hp f default

theorem get_modify_ne (s : Sync) {p q : ℕ} (h : p ≠ q) (f : Request → Request) :
    (s.modify p f).get q = s.get q :=
  getD_modify_ne s.reqs h f default

/-- A read after a write through `p` sees the write at `p` or nothing of it. -/
theorem get_modify_cases (s : Sync) (p : ℕ) (f : Request → Request) (q : ℕ) :
    (s.modify p f).get q = s.get q ∨ (q = p ∧ (s.modify p f).get q = f (s.get q)) := by
  by_cases hq : p = q
  · subst hq
    rcases Nat.lt_or_ge p s.reqs.length with hp | hp
    · exact .inr ⟨rfl, get_modify_self hp f⟩
    · exact .inl (getD_modify_of_length_le hp f p default)
  · exact .inl (get_modify_ne s hq f)

theorem schedule_of_some {s : Sync} {req : Request} {o : ℕ}
    (h : s.requests.get? req.hash = some o) :
    s.schedule req = s.modify o fun x => { x with parents := x.parents ++ req.parents } := by
  simp [schedule, h]

@[simp] theorem schedule_batch (s : Sync) (req : Request) : (s.schedule req).batch = s.batch := by
  unfold schedule
  split <;> rfl

@[simp] theorem schedule_order (s : Sync) (req : Request) : (s.schedule req).order = s.order := by
  unfold schedule
  split <;> rfl

theorem length_schedule_ge (s : Sync) (req : Request) :
    s.reqs.length ≤ (s.schedule req).reqs.length := by
  unfold schedule
  split
  · simp
  · simp

section New
variable {s : Sync} {req : Request} (h : s.requests.get? req.hash = none)
include h

/-! A request for a hash not requested yet is allocated at the end of the heap. -/

theorem length_schedule_new : (s.schedule req).reqs.length = s.reqs.length + 1 := by
  simp [schedule, h]

theorem requests_schedule_new :
    (s.schedule req).requests = s.requests ++ [(req.hash, s.reqs.length)] := by
  have hc : s.requests.contains req.hash = false :=
    GoMap.contains_eq_false_iff.2 (GoMap.get?_eq_none_iff.1 h)
  simp [schedule, h, GoMap.set_of_not_contains hc]

theorem get_schedule_new (q : ℕ) :
    (s.schedule req).get q =
      if q < s.reqs.length then s.get q else if q = s.reqs.length then req else default := by
  simp only [schedule, h]
  exact getD_push s.reqs req q default

theorem queue_schedule_new :
    (s.schedule req).queue = Heap.push PrqueItem.less s.queue ⟨req.hash, req.depth⟩ := by
  simp [schedule, h]

end New

/-! ## Well-formed states -/

/-- What every state keeps: the requests map each hash once, to a request for that hash on the
heap; a parent pointer points into the heap; and the queue is a heap of `prque`'s order. -/
structure WF (s : Sync) : Prop where
  keys : (s.requests.map Prod.fst).Nodup
  ptr : ∀ h p, (h, p) ∈ s.requests → p < s.reqs.length ∧ (s.get p).hash = h
  parents : ∀ b a, a ∈ (s.get b).parents → a < s.reqs.length
  queue : Heap.IsHeap PrqueItem.less s.queue

theorem empty_wf : empty.WF where
  keys := List.nodup_nil
  ptr _ _ h := by cases h
  parents b a h := by cases h
  queue := by decide

theorem WF.modify {s : Sync} (hwf : s.WF) (p : ℕ) {f : Request → Request}
    (hhash : ∀ r, (f r).hash = r.hash)
    (hpar : ∀ r, ∀ a ∈ (f r).parents, a ∈ r.parents ∨ a < s.reqs.length) :
    (s.modify p f).WF where
  keys := hwf.keys
  ptr h q hq := by
    obtain ⟨hlt, hh⟩ := hwf.ptr h q hq
    refine ⟨by simpa using hlt, ?_⟩
    rcases get_modify_cases s p f q with e | ⟨-, e⟩ <;> rw [e]
    · exact hh
    · rw [hhash, hh]
  parents b a ha := by
    rw [length_modify]
    rcases get_modify_cases s p f b with e | ⟨-, e⟩ <;> rw [e] at ha
    · exact hwf.parents b a ha
    · rcases hpar _ a ha with h | h
      · exact hwf.parents b a h
      · exact h
  queue := hwf.queue

/-- A write of the fields `commit` and `Process` count and fill keeps a state well formed. -/
theorem WF.modify_data {s : Sync} (hwf : s.WF) (p : ℕ) {f : Request → Request}
    (hhash : ∀ r, (f r).hash = r.hash) (hpar : ∀ r, (f r).parents = r.parents) :
    (s.modify p f).WF :=
  hwf.modify p hhash fun r _ ha => .inl (hpar r ▸ ha)

theorem WF.schedule {s : Sync} (hwf : s.WF) {req : Request}
    (hreq : ∀ a ∈ req.parents, a < s.reqs.length) : (s.schedule req).WF := by
  rcases hold : s.requests.get? req.hash with _ | o
  · -- a new request: allocated at the end of the heap and bound to its hash
    have hnew : ∀ b ∈ s.requests, b.1 ≠ req.hash := GoMap.get?_eq_none_iff.1 hold
    have hget := get_schedule_new hold
    refine ⟨?_, ?_, ?_, ?_⟩
    · rw [requests_schedule_new hold, List.map_append, List.nodup_append]
      refine ⟨hwf.keys, List.nodup_singleton _, fun x hx y hy => ?_⟩
      obtain ⟨b, hb, rfl⟩ := List.mem_map.1 hx
      rw [List.map_singleton, List.mem_singleton] at hy
      rw [hy]
      exact hnew b hb
    · intro h q hq
      rw [length_schedule_new hold, hget]
      rw [requests_schedule_new hold] at hq
      rcases List.mem_append.1 hq with hq | hq
      · obtain ⟨hlt, hh⟩ := hwf.ptr h q hq
        exact ⟨by omega, by rw [if_pos hlt]; exact hh⟩
      · obtain ⟨rfl, rfl⟩ := Prod.mk.inj (List.mem_singleton.1 hq)
        simp
    · intro b a ha
      rw [length_schedule_new hold]
      rw [hget] at ha
      split_ifs at ha with hlt heq
      · have := hwf.parents b a ha
        omega
      · have := hreq a ha
        omega
      · cases ha
    · rw [queue_schedule_new hold]
      exact Heap.IsHeap.push PrqueItem.less_eq_decide hwf.queue _
  · rw [schedule_of_some hold]
    refine hwf.modify o (fun _ => rfl) fun r a ha => ?_
    rcases List.mem_append.1 ha with h | h
    · exact .inl h
    · exact .inr (hreq a h)

theorem WF.foldl_schedule {s : Sync} (hwf : s.WF) {rs : List Request}
    (hrs : ∀ r ∈ rs, ∀ a ∈ r.parents, a < s.reqs.length) : (rs.foldl Sync.schedule s).WF := by
  induction rs generalizing s with
  | nil => exact hwf
  | cons r rs ih =>
    have hlen := length_schedule_ge s r
    refine ih (hwf.schedule (hrs r List.mem_cons_self)) fun r' hr' a ha => ?_
    have := hrs r' (List.mem_cons_of_mem r hr') a ha
    omega

theorem WF.link {ε : Type} {s s' : Sync} (hwf : s.WF) {err : Hash → SyncErr ε} {req : Request}
    {parent : Hash} (hreq : ∀ a ∈ req.parents, a < s.reqs.length)
    (h : s.link err req parent = .ok s') : s'.WF := by
  unfold Sync.link at h
  split_ifs at h
  · split at h
    · cases h
    · rename_i a ha
      cases h
      have hlt := (hwf.ptr parent a (GoMap.mem_of_get?_eq_some ha)).1
      refine (hwf.modify_data (f := fun r => { r with deps := r.deps + 1 }) a (fun _ => rfl)
        fun _ => rfl).schedule fun b hb => ?_
      rw [length_modify]
      rcases List.mem_append.1 hb with hb | hb
      · exact hreq b hb
      · rw [List.mem_singleton.1 hb]
        exact hlt
  · cases h
    exact hwf.schedule hreq

theorem WF.addSubTrie {ε : Type} {db : Hash → Option (List UInt8)} {s s' : Sync} (hwf : s.WF)
    {root : Hash} {depth : ℕ} {parent : Hash} {cb : Bool}
    (h : s.addSubTrie (ε := ε) db root depth parent cb = .ok s') : s'.WF := by
  unfold Sync.addSubTrie at h
  dsimp only at h
  split_ifs at h
  · cases h; exact hwf
  · cases h; exact hwf
  · cases h; exact hwf
  · exact hwf.link (by simp) h

theorem WF.addRawEntry {ε : Type} {db : Hash → Option (List UInt8)}
    {keccak : List UInt8 → List UInt8} {s s' : Sync} (hwf : s.WF) {hash : Hash} {depth : ℕ}
    {parent : Hash} (h : s.addRawEntry (ε := ε) db keccak hash depth parent = .ok s') : s'.WF := by
  unfold Sync.addRawEntry at h
  split_ifs at h
  · cases h; exact hwf
  · cases h; exact hwf
  · cases h; exact hwf
  · exact hwf.link (by simp) h

theorem WF.store {s : Sync} (hwf : s.WF) (r : Request) : (s.store r).WF where
  keys := GoMap.keys_nodup_delete hwf.keys r.hash
  ptr h q hq := hwf.ptr h q (List.mem_of_mem_filter hq)
  parents := hwf.parents
  queue := hwf.queue

theorem WF.commit {s s' : Sync} (hwf : s.WF) {fuel : ℕ} {p : ℕ}
    (h : s.commit fuel p = some s') : s'.WF := by
  induction fuel generalizing s p s' with
  | zero => cases h
  | succ fuel ih =>
    refine foldlM_option_inv (P := fun _ x => x.WF) (fun a _ x y hx hy => ?_) _ _ _
      (hwf.store _) h
    simp only [Sync.release] at hy
    split_ifs at hy
    · exact ih (hx.modify_data (f := fun r => { r with deps := r.deps - 1 }) a (fun _ => rfl)
        fun _ => rfl) hy
    · cases hy
      exact hx.modify_data a (fun _ => rfl) fun _ => rfl

theorem WF.commitReq {ε : Type} {s : Sync} (hwf : s.WF) (p : ℕ) :
    (s.commitReq (ε := ε) p).1.WF := by
  unfold Sync.commitReq
  split
  · exact hwf.commit ‹_›
  · exact hwf

/-! ## Children -/

section Children
variable {ε : Type} (db : Hash → Option (List UInt8)) (callback : List UInt8 → Hash → Except ε Unit)

theorem notifyLeaf_error {req : Request} {child : Node} {err : SyncErr ε}
    (h : notifyLeaf callback req child = .error err) : ∃ e, err = .callback e := by
  unfold notifyLeaf at h
  split at h
  · rcases hc : callback _ _ with e | u <;> rw [hc] at h <;> cases h
    exact ⟨e, rfl⟩
  · cases h

theorem notifyLeaf_ok (hcb : ∀ v h, callback v h = .ok ()) (req : Request) (child : Node) :
    notifyLeaf callback req child = .ok () := by
  unfold notifyLeaf
  split
  · rw [hcb]
    rfl
  · rfl

/-- The loop of `children`: the requests of the children it went through, or an error of the
leaf callback. -/
theorem foldlM_childStep {s : Sync} {p : ℕ} {req : Request} :
    ∀ (cs : List (Node × ℕ)) (acc : List Request),
      (∀ rs, cs.foldlM (s.childStep db callback p req) acc = .ok rs →
        rs = acc ++ cs.flatMap (s.childRequest db p req)) ∧
      (∀ err, cs.foldlM (s.childStep db callback p req) acc = .error err → ∃ e, err = .callback e)
  | [], acc => by
    refine ⟨fun rs h => ?_, fun err h => ?_⟩
    · cases h
      simp
    · cases h
  | c :: cs, acc => by
    rw [List.foldlM_cons]
    rcases hc : s.childStep db callback p req acc c with e | acc'
    · refine ⟨fun rs h => ?_, fun err h => ?_⟩
      · cases h
      · cases h
        unfold Sync.childStep at hc
        rcases hn : notifyLeaf callback req c.1 with e' | u <;> rw [hn] at hc <;> cases hc
        exact notifyLeaf_error callback hn
    · obtain ⟨hok, herr⟩ := foldlM_childStep cs acc'
      obtain ⟨u, -, hu⟩ := except_bind_eq_ok.1 hc
      cases hu
      refine ⟨fun rs h => ?_, herr⟩
      rw [hok rs h, List.flatMap_cons, List.append_assoc]

theorem foldlM_childStep_of_ok (hcb : ∀ v h, callback v h = .ok ()) {s : Sync} {p : ℕ}
    {req : Request} : ∀ (cs : List (Node × ℕ)) (acc : List Request),
      cs.foldlM (s.childStep db callback p req) acc = .ok (acc ++ cs.flatMap (s.childRequest db p req))
  | [], acc => by simp; rfl
  | c :: cs, acc => by
    have hc : s.childStep db callback p req acc c = .ok (acc ++ s.childRequest db p req c) := by
      simp only [Sync.childStep, notifyLeaf_ok callback hcb]
      rfl
    rw [List.foldlM_cons, hc, except_ok_bind, foldlM_childStep_of_ok hcb cs, List.flatMap_cons,
      List.append_assoc]

theorem children_ok {s : Sync} {p : ℕ} {node : Node} {rs : List Request}
    (h : s.children db callback p node = .ok rs) :
    ∃ cs, childrenOf (s.get p) node = some cs ∧ rs = cs.flatMap (s.childRequest db p (s.get p)) := by
  unfold Sync.children at h
  split at h
  · cases h
  · rename_i cs hcs
    exact ⟨cs, hcs, by simpa using (foldlM_childStep db callback cs []).1 rs h⟩

theorem children_of_ok (hcb : ∀ v h, callback v h = .ok ()) {s : Sync} {p : ℕ} {node : Node}
    {cs : List (Node × ℕ)} (hcs : childrenOf (s.get p) node = some cs) :
    s.children db callback p node = .ok (cs.flatMap (s.childRequest db p (s.get p))) := by
  unfold Sync.children
  rw [hcs]
  simpa using foldlM_childStep_of_ok db callback hcb cs []

/-- A request for a child is for a hash that neither the membatch nor the database has, with the
requesting node for its only parent. -/
theorem mem_childRequest {s : Sync} {p : ℕ} {req : Request} {child : Node × ℕ} {r : Request}
    (h : r ∈ s.childRequest db p req child) :
    ∃ c, child.1 = .hashNode c ∧ s.batch.contains (bytesToHash c) = false ∧ db c = none ∧
      r = ⟨bytesToHash c, none, false, [p], child.2, 0, req.callback⟩ := by
  unfold Sync.childRequest at h
  split at h
  · rename_i c hc
    dsimp only at h
    split_ifs at h with hb hd
    · cases h
    · cases h
    · exact ⟨c, hc, by simpa using hb, by simpa using hd, List.mem_singleton.1 h⟩
  · cases h

/-- A hash child is in the membatch, in the database, or requested. -/
theorem childRequest_cover (s : Sync) (p : ℕ) (req : Request) {child : Node × ℕ} {c : List UInt8}
    (hc : child.1 = .hashNode c) :
    s.batch.contains (bytesToHash c) ∨ (db c).isSome ∨
      ⟨bytesToHash c, none, false, [p], child.2, 0, req.callback⟩ ∈ s.childRequest db p req child := by
  unfold Sync.childRequest
  rw [hc]
  dsimp only
  split_ifs with hb hd
  · exact .inl hb
  · exact .inr (.inl hd)
  · exact .inr (.inr List.mem_cons_self)

/-! ## One item of `Process` -/

/-- The request at `p` with its node delivered. -/
def deliver (s : Sync) (p : ℕ) (data : List UInt8) : Sync :=
  s.modify p fun r => { r with data := some data }

/-- The request at `p` waiting for `n` children more. -/
def addDeps (s : Sync) (p n : ℕ) : Sync := s.modify p fun r => { r with deps := r.deps + n }

/-- What one item of `Process` can do: fail with nothing changed, commit a raw entry, or decode
a node, fail in the callback, and then commit the node or schedule its children. -/
theorem processItem_cases (s : Sync) (item : SyncResult) :
    ((s.processItem db callback item).1 = s ∧ ∃ err, (s.processItem db callback item).2 = .error err ∧
        (err = .notRequested ∨ err = .alreadyProcessed ∨ ∃ e, err = .node e)) ∨
    ∃ p, s.requests.get? item.hash = some p ∧ (s.get p).data = none ∧
      (((s.get p).raw = true ∧ s.processItem db callback item = (s.deliver p item.data).commitReq p) ∨
       ((s.get p).raw = false ∧ ∃ node, decodeNode item.data.length item.data = .ok node ∧
         ((∃ err, (s.deliver p item.data).children db callback p node = .error err ∧
             s.processItem db callback item = (s.deliver p item.data, .error err)) ∨
          ∃ rs, (s.deliver p item.data).children db callback p node = .ok rs ∧
            ((rs.length = 0 ∧ ((s.deliver p item.data).get p).deps = 0 ∧
                s.processItem db callback item = (s.deliver p item.data).commitReq p) ∨
             (¬(rs.length = 0 ∧ ((s.deliver p item.data).get p).deps = 0) ∧
                s.processItem db callback item =
                  (rs.foldl schedule ((s.deliver p item.data).addDeps p rs.length), .ok false)))))) := by
  unfold Sync.processItem
  split
  · exact .inl ⟨rfl, _, rfl, .inl rfl⟩
  · rename_i p hp
    split_ifs with hd hr
    · exact .inl ⟨rfl, _, rfl, .inr (.inl rfl)⟩
    · exact .inr ⟨p, hp, by simpa using hd, .inl ⟨hr, rfl⟩⟩
    · split
      · exact .inl ⟨rfl, _, rfl, .inr (.inr ⟨_, rfl⟩)⟩
      · rename_i node hnode
        refine .inr ⟨p, hp, by simpa using hd, .inr ⟨by simpa using hr, node, hnode, ?_⟩⟩
        dsimp only
        split
        · rename_i err herr
          exact .inl ⟨err, herr, rfl⟩
        · rename_i rs hrs
          refine .inr ⟨rs, hrs, ?_⟩
          split_ifs with hc
          · exact .inl ⟨hc.1, hc.2, rfl⟩
          · exact .inr ⟨hc, rfl⟩

theorem WF.deliver {s : Sync} (hwf : s.WF) (p : ℕ) (data : List UInt8) : (s.deliver p data).WF :=
  hwf.modify_data p (fun _ => rfl) fun _ => rfl

theorem WF.addDeps {s : Sync} (hwf : s.WF) (p n : ℕ) : (s.addDeps p n).WF :=
  hwf.modify_data p (fun _ => rfl) fun _ => rfl

theorem WF.processItem {s : Sync} (hwf : s.WF) (item : SyncResult) :
    (s.processItem db callback item).1.WF := by
  rcases processItem_cases db callback s item with ⟨h, -⟩ | ⟨p, hp, -, hcases⟩
  · rw [h]
    exact hwf
  · have hlt := (hwf.ptr _ p (GoMap.mem_of_get?_eq_some hp)).1
    have hdel := hwf.deliver p item.data
    rcases hcases with ⟨-, h⟩ | ⟨-, node, -, ⟨err, -, h⟩ | ⟨rs, hrs, ⟨-, -, h⟩ | ⟨-, h⟩⟩⟩ <;>
      rw [h]
    · exact hdel.commitReq p
    · exact hdel
    · exact hdel.commitReq p
    · -- the children are scheduled with the delivered node for their parent
      obtain ⟨cs, -, rfl⟩ := children_ok db callback hrs
      refine (hdel.addDeps p _).foldl_schedule fun r hr a ha => ?_
      obtain ⟨child, -, hr⟩ := List.mem_flatMap.1 hr
      obtain ⟨c, -, -, -, rfl⟩ := mem_childRequest db hr
      rw [List.mem_singleton.1 ha]
      simpa [Sync.addDeps, Sync.deliver] using hlt

theorem WF.processLoop {s : Sync} (hwf : s.WF) (c : Bool) (i : ℕ) (results : List SyncResult) :
    (s.processLoop db callback c i results).1.WF := by
  induction results generalizing s c i with
  | nil => exact hwf
  | cons item results ih =>
    have h1 := hwf.processItem db callback item
    rcases hpi : s.processItem db callback item with ⟨s', _ | c'⟩ <;> rw [hpi] at h1 <;>
      simp only [Sync.processLoop, hpi]
    · exact h1
    · exact ih h1 _ _

end Children

theorem WF.commitBatch {σ δ : Type} {s : Sync} (hwf : s.WF) (put : σ → Hash → List UInt8 → Except δ σ)
    (w : σ) : (s.commitBatch put w).1.1.WF := by
  unfold Sync.commitBatch
  split
  · exact hwf
  · exact ⟨hwf.keys, hwf.ptr, hwf.parents, hwf.queue⟩

/-! ## `Missing` -/

theorem missing_fst (s : Sync) (max : ℕ) : (s.missing max).1 = (missingLoop max [] s.queue).1 := rfl

theorem missing_snd (s : Sync) (max : ℕ) :
    (s.missing max).2 = { s with queue := (missingLoop max [] s.queue).2 } := rfl

/-- The loop of `Missing` pops the queue deepest first: it takes `max` items, or all of them for
`max = 0`, none shallower than one it leaves, and leaves a heap. -/
theorem missingLoop_spec (max : ℕ) (acc : List Hash) (q : List PrqueItem)
    (hq : Heap.IsHeap PrqueItem.less q) :
    ∃ items, (missingLoop max acc q).1 = acc ++ items.map PrqueItem.value ∧
      (items ++ (missingLoop max acc q).2).Perm q ∧
      items.Pairwise (fun a b => b.priority ≤ a.priority) ∧
      (∀ x ∈ items, ∀ y ∈ (missingLoop max acc q).2, y.priority ≤ x.priority) ∧
      Heap.IsHeap PrqueItem.less (missingLoop max acc q).2 ∧
      items.length = if max = 0 then q.length else min (max - acc.length) q.length := by
  fun_induction missingLoop max acc q with
  | case1 acc q hp =>
    have hq0 : q.length = 0 := by
      by_contra hne
      obtain ⟨_, hpop, -⟩ := Heap.IsHeap.pop PrqueItem.less_eq_decide hq (by omega)
      rw [hp] at hpop
      cases hpop
    refine ⟨[], by simp, by simp, by simp, by simp, hq, ?_⟩
    simp [hq0]
  | case2 acc q item rest hp hcond ih =>
    have hne : 0 < q.length := by
      have := Heap.length_of_pop hp
      omega
    obtain ⟨rest', hpop, hrest, hperm⟩ := Heap.IsHeap.pop PrqueItem.less_eq_decide hq hne
    rw [hp] at hpop
    obtain ⟨rfl, rfl⟩ := Prod.mk.inj (Option.some_injective _ hpop)
    obtain ⟨items, hval, hperm', hsorted, hbelow, hheap, hlen⟩ := ih hrest
    have hroot : ∀ y ∈ rest, y.priority ≤ q[0].priority := fun y hy =>
      OrderDual.toDual_le_toDual.1 (Heap.IsHeap.root_least PrqueItem.less_eq_decide hq hne
        (hperm.subset (List.mem_cons_of_mem _ hy)))
    have hlen' := Heap.length_of_pop hp
    refine ⟨q[0] :: items, ?_, ?_, ?_, ?_, hheap, ?_⟩
    · simp [hval]
    · exact (List.Perm.cons _ hperm').trans hperm
    · refine List.Pairwise.cons (fun x hx => hroot x ?_) hsorted
      exact hperm'.subset (List.mem_append_left _ hx)
    · intro x hx y hy
      rcases List.mem_cons.1 hx with rfl | hx
      · exact hroot y (hperm'.subset (List.mem_append_right _ hy))
      · exact hbelow x hx y hy
    · rw [List.length_cons, hlen, List.length_append, List.length_singleton]
      split_ifs <;> omega
  | case3 acc q item rest hp hcond =>
    refine ⟨[], by simp, by simp, by simp, by simp, hq, ?_⟩
    simp only [List.length_nil]
    split_ifs <;> omega

theorem WF.missing {s : Sync} (hwf : s.WF) (max : ℕ) : (s.missing max).2.WF := by
  obtain ⟨-, -, -, -, -, hheap, -⟩ := missingLoop_spec max [] s.queue hwf.queue
  rw [missing_snd]
  exact ⟨hwf.keys, hwf.ptr, hwf.parents, hheap⟩

/-- `Missing` hands out the queued hashes deepest first: `max` of them, or all for `max = 0`, in
order of depth, none shallower than one it leaves queued, and the queue keeps the rest as a
heap. -/
theorem missing_deepest_first {s : Sync} (hq : Heap.IsHeap PrqueItem.less s.queue) (max : ℕ) :
    ∃ items, (s.missing max).1 = items.map PrqueItem.value ∧
      (items ++ (s.missing max).2.queue).Perm s.queue ∧
      items.Pairwise (fun a b => b.priority ≤ a.priority) ∧
      (∀ x ∈ items, ∀ y ∈ (s.missing max).2.queue, y.priority ≤ x.priority) ∧
      Heap.IsHeap PrqueItem.less (s.missing max).2.queue ∧
      items.length = if max = 0 then s.queue.length else min max s.queue.length := by
  obtain ⟨items, hval, hperm, hsorted, hbelow, hheap, hlen⟩ := missingLoop_spec max [] s.queue hq
  rw [missing_fst, missing_snd]
  exact ⟨items, by simpa using hval, hperm, hsorted, hbelow, hheap, by simpa using hlen⟩

theorem missing_deepest_first_two :
    Heap.IsHeap PrqueItem.less { Sync.empty with queue := [⟨[1], 3⟩, ⟨[2], 1⟩] }.queue ∧
      ∃ items, ({ Sync.empty with queue := [⟨[1], 3⟩, ⟨[2], 1⟩] }.missing 1).1 =
          items.map PrqueItem.value ∧
        (items ++ ({ Sync.empty with queue := [⟨[1], 3⟩, ⟨[2], 1⟩] }.missing 1).2.queue).Perm
          [⟨[1], 3⟩, ⟨[2], 1⟩] ∧
        items.Pairwise (fun a b => b.priority ≤ a.priority) ∧
        (∀ x ∈ items, ∀ y ∈ ({ Sync.empty with queue := [⟨[1], 3⟩, ⟨[2], 1⟩] }.missing 1).2.queue,
          y.priority ≤ x.priority) ∧
        Heap.IsHeap PrqueItem.less
          ({ Sync.empty with queue := [⟨[1], 3⟩, ⟨[2], 1⟩] }.missing 1).2.queue ∧
        items.length = if 1 = 0 then 2 else min 1 2 :=
  ⟨by decide, missing_deepest_first (by decide) 1⟩

/-! ## The bound of `commit` -/

/-- The requests waiting for a child: what the recursion of `commit` spends. -/
def waiting (s : Sync) : ℕ := s.reqs.countP fun r => decide (0 < r.deps)

/-- With more fuel than requests waiting, `commit` runs to its end: a nested call is on a parent
that just stopped waiting. -/
theorem commit_some : ∀ (fuel : ℕ) {s : Sync}, s.WF → s.waiting < fuel → ∀ p,
    ∃ s', s.commit fuel p = some s' ∧ s'.WF ∧ s'.waiting ≤ s.waiting ∧
      s'.reqs.length = s.reqs.length
  | 0, _, _, hw, _ => absurd hw (Nat.not_lt_zero _)
  | fuel + 1, s, hwf, hw, p => by
    let P : List ℕ → Sync → Prop := fun l x =>
      x.WF ∧ x.waiting ≤ s.waiting ∧ x.reqs.length = s.reqs.length ∧ ∀ a ∈ l, a < s.reqs.length
    have hstep : ∀ a l x, P (a :: l) x → ∃ y, release (commit fuel) x a = some y ∧ P l y := by
      rintro a l x ⟨hx, hxw, hxl, hl⟩
      have ha : a < x.reqs.length := hxl ▸ hl a List.mem_cons_self
      have hx' : (x.modify a fun r => { r with deps := r.deps - 1 }).WF :=
        hx.modify_data a (fun _ => rfl) fun _ => rfl
      have hw' : (x.modify a fun r => { r with deps := r.deps - 1 }).waiting ≤ x.waiting :=
        countP_modify_le _ _ fun r hr => by simp at hr ⊢; omega
      have hrest : ∀ b ∈ l, b < s.reqs.length := fun b hb => hl b (List.mem_cons_of_mem a hb)
      simp only [Sync.release]
      split_ifs with h0
      · -- the parent stopped waiting: the potential drops by one before the nested call
        rw [get_modify_self ha] at h0
        have hlost : (x.modify a fun r => { r with deps := r.deps - 1 }).waiting + 1 = x.waiting :=
          countP_modify_of_lost ha default (by simp [get] at h0 ⊢; omega)
            (by simp [get] at h0 ⊢; omega)
        obtain ⟨z, hz, hzwf, hzw, hzl⟩ := commit_some fuel hx' (by omega) a
        exact ⟨z, hz, hzwf, by omega, by simp [hzl, hxl], hrest⟩
      · exact ⟨_, rfl, hx', by omega, by simp [hxl], hrest⟩
    obtain ⟨y, hy, hPy⟩ := foldlM_option_of_step hstep (s.get p).parents (s.store (s.get p))
      ⟨hwf.store _, le_rfl, rfl, fun a ha => hwf.parents p a ha⟩
    exact ⟨y, hy, hPy.1, hPy.2.1, hPy.2.2.1⟩

theorem commit_isSome {s : Sync} (hwf : s.WF) (p : ℕ) : (s.commit s.commitFuel p).isSome := by
  have hw : s.waiting < s.commitFuel := by
    have := List.countP_le_length (p := fun r => decide (0 < r.deps)) (l := s.reqs)
    unfold waiting commitFuel
    omega
  obtain ⟨s', h, -⟩ := commit_some s.commitFuel hwf hw p
  rw [h]
  rfl

theorem commitReq_of_wf {ε : Type} {s : Sync} (hwf : s.WF) (p : ℕ) :
    ∃ s', s.commit s.commitFuel p = some s' ∧ s.commitReq (ε := ε) p = (s', .ok true) := by
  obtain ⟨s', h⟩ := Option.isSome_iff_exists.1 (commit_isSome hwf p)
  exact ⟨s', h, by simp [Sync.commitReq, h]⟩

/-! ## How `Process` fails -/

section Errors
variable {ε : Type} (db : Hash → Option (List UInt8)) (callback : List UInt8 → Hash → Except ε Unit)

theorem get_deliver_self {s : Sync} {p : ℕ} (hp : p < s.reqs.length) (data : List UInt8) :
    (s.deliver p data).get p = { s.get p with data := some data } :=
  get_modify_self hp _

end Errors

end Sync

/-! ## Over a run -/

namespace SyncSys
variable {ε : Type} (keccak : List UInt8 → List UInt8) (callback : List UInt8 → Hash → Except ε Unit)

theorem step_wf {t t' : SyncSys} (ht : t.sync.WF) {e : SyncEvent}
    (h : t.step keccak callback e = some t') : t'.sync.WF := by
  cases e with
  | addSubTrie root depth parent cb =>
    rcases ha : t.sync.addSubTrie (ε := ε) t.disk.get? root depth parent cb with err | s
    · simp [step, ha, Except.toOption] at h
    · simp only [step, ha, Except.toOption, Option.map_some, Option.some.injEq] at h
      subst h
      exact ht.addSubTrie ha
  | addRawEntry hash depth parent =>
    rcases ha : t.sync.addRawEntry (ε := ε) t.disk.get? keccak hash depth parent with err | s
    · simp [step, ha, Except.toOption] at h
    · simp only [step, ha, Except.toOption, Option.map_some, Option.some.injEq] at h
      subst h
      exact ht.addRawEntry ha
  | missing max =>
    simp only [step, Option.some.injEq] at h
    subst h
    exact ht.missing max
  | process results =>
    simp only [step, Option.some.injEq] at h
    subst h
    exact ht.processLoop _ _ _ _ _
  | commit failing =>
    simp only [step, Option.some.injEq] at h
    subst h
    exact ht.commitBatch _ _

/-- Every state a run reaches is well formed, whatever the calls. -/
theorem run_wf : ∀ (evs : List SyncEvent) {t t' : SyncSys}, t.sync.WF →
    t.run keccak callback evs = some t' → t'.sync.WF
  | [], _, _, ht, h => by
    cases h
    exact ht
  | e :: evs, t, t', ht, h => by
    obtain ⟨t₁, h₁, h₂⟩ := Option.bind_eq_some_iff.1 h
    exact run_wf evs (step_wf keccak callback ht h₁) h₂

theorem run_wf_sampleSync :
    (init []).sync.WF ∧ (init []).run id acceptLeaf sampleSyncEvents = some sampleSyncFinal ∧
      sampleSyncFinal.sync.WF :=
  ⟨Sync.empty_wf, run_sampleSync,
    run_wf id acceptLeaf sampleSyncEvents (t := init []) Sync.empty_wf run_sampleSync⟩

end SyncSys

end Srcd.Trie
