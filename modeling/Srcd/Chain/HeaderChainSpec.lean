import Srcd.Chain.HeaderChain
import Mathlib

/-! # The header chain keeps its canonical index

Over the model of `HeaderChain`, the parent links of the stored headers give each header its
ancestry and its total difficulty. `HeaderChain.Inv` is what every run keeps: the database holds
the headers written, each with its total difficulty, the head is one of maximal total difficulty,
and the canonical entries are the head's ancestry. Each of the two loops of `WriteHeader` has one
lemma that says what it leaves, given fuel (`deleteCanonicalFrom_eq`, `overwriteStale_eq`);
`HeaderChain.Inv.writeHeader` is the step, `HeaderChain.Inv.writeHeaders` the run, and
`writeHeaders_canonicalIndex` what it gives the readers of the chain from the genesis on.
-/

namespace Srcd.Chain
set_option autoImplicit false

section
variable {H : Type} [DecidableEq H] [Inhabited H]

/-! ## Ancestry and total difficulty -/

namespace ChainDb
variable (db : ChainDb H)

/-- The parent of a header, under the number below it. -/
def parent (h : Header H) : Option (Header H) :=
  if h.number = 0 then none else db.readHeader h.parentHash (h.number - 1)

/-- The header `k` parent links above `h`. -/
def up : ℕ → Header H → Option (Header H)
  | 0, h => some h
  | k + 1, h => (db.parent h).bind (up k)

/-- The ancestor of `h` at height `n`. -/
def ancestorAt (h : Header H) (n : ℕ) : Option (Header H) :=
  if n ≤ h.number then db.up (h.number - n) h else none

/-- The sum of the difficulties of `h` and of its first `k` ancestors. -/
def totalDifficulty : ℕ → Header H → ℕ
  | 0, h => h.difficulty
  | k + 1, h => h.difficulty + ((db.parent h).map (totalDifficulty k)).getD 0

/-- The sum of the difficulties on the path from `h` to the genesis. -/
def tdOf (h : Header H) : ℕ := db.totalDifficulty h.number h

end ChainDb

/-- What the chain database holds: the headers of `written`, each under its own number and hash,
each but the genesis with its parent under the number below, and no zero hash. -/
structure ChainDb.WellFormed (db : ChainDb H) (genesis : Header H) (written : List (Header H)) :
    Prop where
  mem : ∀ h ∈ written, db.headers h.number h.hash = some h
  only : ∀ n x h, db.headers n x = some h → h ∈ written ∧ h.number = n ∧ h.hash = x
  nonzero : ∀ h ∈ written, h.hash ≠ default
  parent : ∀ h ∈ written, 0 < h.number → (db.parent h).isSome
  genesis_mem : genesis ∈ written ∧ genesis.number = 0
  genesis_unique : ∀ h ∈ written, h.number = 0 → h = genesis

/-- The invariant of the header chain: the database is well formed, holds the total difficulty
of every header, the head is a written header of maximal total difficulty, and the canonical
hashes are those of the head's ancestors, up to the head and no further. -/
structure HeaderChain.Inv (hc : HeaderChain H) (genesis : Header H) (written : List (Header H)) :
    Prop where
  wf : hc.chainDb.WellFormed genesis written
  td : ∀ n x, hc.chainDb.td n x = (hc.chainDb.headers n x).map hc.chainDb.tdOf
  head : hc.currentHeader ∈ written
  head_max : ∀ h ∈ written, hc.chainDb.tdOf h ≤ hc.chainDb.tdOf hc.currentHeader
  canonical : ∀ n, hc.chainDb.canonical n = (hc.chainDb.ancestorAt hc.currentHeader n).map Header.hash

/-- A header that can be written over the headers of `written`: its parent is one of them, under
the number below, and no other header has its number and hash, which is not zero. -/
structure Writable (written : List (Header H)) (header : Header H) : Prop where
  nonzero : header.hash ≠ default
  parent : ∃ p ∈ written, p.hash = header.parentHash ∧ p.number + 1 = header.number
  fresh : ∀ h ∈ written, h.number = header.number → h.hash = header.hash → h = header

/-- Each header of the list, with its coin, can be written over `written` and the headers before
it. -/
def ValidWrites : List (Header H) → List (Header H × Bool) → Prop
  | _, [] => True
  | written, (x, _) :: rest => Writable written x ∧ ValidWrites (x :: written) rest

/-- What the header chain offers its readers, in the words of its read functions: the head is a
written header of maximal total difficulty, `ReadCanonicalHash` gives the hashes of its
ancestors up to it and the zero hash above, and `ReadTd` the total difficulty of every written
header, the sum of the difficulties on its path to the genesis. -/
structure HeaderChain.CanonicalIndex (hc : HeaderChain H) (written : List (Header H)) : Prop where
  head_mem : hc.currentHeader ∈ written
  head_max : ∀ h ∈ written, hc.chainDb.tdOf h ≤ hc.chainDb.tdOf hc.currentHeader
  canonical_le : ∀ n ≤ hc.currentHeader.number, ∃ a,
    hc.chainDb.ancestorAt hc.currentHeader n = some a ∧ hc.chainDb.readCanonicalHash n = a.hash
  canonical_gt : ∀ n, hc.currentHeader.number < n → hc.chainDb.readCanonicalHash n = default
  td : ∀ h ∈ written, hc.chainDb.readTd h.hash h.number = some (hc.chainDb.tdOf h)

end

section
variable {H : Type}

namespace ChainDb
variable (db : ChainDb H)

/-! ## Ancestry depends on the headers only -/

variable {db} {db' : ChainDb H}

theorem parent_congr (h : db.headers = db'.headers) : db.parent = db'.parent := by
  funext x
  simp only [parent, readHeader, h]

theorem up_congr (h : db.headers = db'.headers) : db.up = db'.up := by
  funext k
  induction k with
  | zero => rfl
  | succ k ih =>
    funext x
    simp only [up, parent_congr h, ih]

theorem ancestorAt_congr (h : db.headers = db'.headers) : db.ancestorAt = db'.ancestorAt := by
  funext x n
  simp only [ancestorAt, up_congr h]

theorem tdOf_congr (h : db.headers = db'.headers) : db.tdOf = db'.tdOf := by
  have htd : ∀ k, db.totalDifficulty k = db'.totalDifficulty k := by
    intro k
    induction k with
    | zero => rfl
    | succ k ih =>
      funext x
      simp only [totalDifficulty, parent_congr h, ih]
  funext x
  simp only [tdOf, htd]

/-- A database that holds every header `db` holds. -/
def Extends (db' db : ChainDb H) : Prop := ∀ n x y, db.headers n x = some y → db'.headers n x = some y

theorem parent_of_extends (hext : db'.Extends db) {h p : Header H} (hp : db.parent h = some p) :
    db'.parent h = some p := by
  unfold parent readHeader at hp ⊢
  split at hp
  · cases hp
  · rw [if_neg ‹_›]
    exact hext _ _ _ hp

theorem up_of_extends (hext : db'.Extends db) :
    ∀ (k : ℕ) (h a : Header H), db.up k h = some a → db'.up k h = some a := by
  intro k
  induction k with
  | zero => exact fun _ _ ha => ha
  | succ k ih =>
    intro h a ha
    obtain ⟨p, hp, hup⟩ := Option.bind_eq_some_iff.mp ha
    simp only [up, parent_of_extends hext hp, Option.bind_some]
    exact ih p a hup

theorem ancestorAt_self (h : Header H) : db.ancestorAt h h.number = some h := by
  simp [ancestorAt, up]

theorem parent_eq_readHeader {h : Header H} (hpos : 0 < h.number) :
    db.parent h = db.readHeader h.parentHash (h.number - 1) := by
  rw [parent, if_neg (by omega)]

theorem le_of_ancestorAt {h a : Header H} {n : ℕ} (ha : db.ancestorAt h n = some a) :
    n ≤ h.number := by
  unfold ancestorAt at ha
  split at ha
  · assumption
  · cases ha

theorem ancestorAt_of_lt {h : Header H} {n : ℕ} (hn : h.number < n) : db.ancestorAt h n = none := by
  simp only [ancestorAt, ite_eq_right_iff]
  omega

theorem extends_writeHeader [DecidableEq H] {x : Header H}
    (hfresh : ∀ y, db.headers x.number x.hash = some y → y = x) : (db.writeHeader x).Extends db := by
  intro n k y hy
  simp only [writeHeader]
  split
  · next hkey =>
    obtain ⟨rfl, rfl⟩ := hkey
    rw [hfresh y hy]
  · exact hy

end ChainDb

theorem ChainDb.eq_with_canonical {db : ChainDb H} {f : ℕ → Option H}
    (h : ∀ n, db.canonical n = f n) : db = { db with canonical := f } := by
  obtain ⟨headers, td, canonical, head⟩ := db
  simp only [ChainDb.mk.injEq, true_and, and_true]
  exact funext h

theorem ChainDb.up_add (db : ChainDb H) :
    ∀ (j k : ℕ) (h : Header H), db.up (j + k) h = (db.up j h).bind (db.up k) := by
  intro j
  induction j with
  | zero => intro k h; simp [ChainDb.up]
  | succ j ih =>
    intro k h
    rw [show j + 1 + k = (j + k) + 1 by omega]
    simp only [ChainDb.up, Option.bind_assoc]
    congr 1
    funext p
    exact ih k p

/-! ## Ancestry in a well-formed database -/

variable [Inhabited H]

namespace ChainDb.WellFormed
variable {db : ChainDb H} {genesis : Header H} {written : List (Header H)}

theorem parent_mem (hwf : db.WellFormed genesis written) {h p : Header H}
    (hp : db.parent h = some p) : p ∈ written ∧ p.number + 1 = h.number ∧ p.hash = h.parentHash := by
  unfold ChainDb.parent ChainDb.readHeader at hp
  split at hp
  · cases hp
  · obtain ⟨hmem, hnum, hhash⟩ := hwf.only _ _ _ hp
    exact ⟨hmem, by omega, hhash⟩

theorem exists_parent (hwf : db.WellFormed genesis written) {h : Header H} (hh : h ∈ written)
    (hpos : 0 < h.number) : ∃ p, db.parent h = some p :=
  Option.isSome_iff_exists.mp (hwf.parent h hh hpos)

theorem up_mem (hwf : db.WellFormed genesis written) :
    ∀ (k : ℕ) (h a : Header H), h ∈ written → db.up k h = some a → a ∈ written ∧ a.number + k = h.number := by
  intro k
  induction k with
  | zero =>
    intro h a hh ha
    cases ha
    exact ⟨hh, rfl⟩
  | succ k ih =>
    intro h a hh ha
    obtain ⟨p, hp, hup⟩ := Option.bind_eq_some_iff.mp ha
    obtain ⟨hpm, hpn, -⟩ := hwf.parent_mem hp
    obtain ⟨ham, han⟩ := ih p a hpm hup
    exact ⟨ham, by omega⟩

theorem up_isSome (hwf : db.WellFormed genesis written) :
    ∀ (k : ℕ) (h : Header H), h ∈ written → k ≤ h.number → (db.up k h).isSome := by
  intro k
  induction k with
  | zero => intro h _ _; rfl
  | succ k ih =>
    intro h hh hk
    obtain ⟨p, hp⟩ := hwf.exists_parent hh (by omega)
    obtain ⟨hpm, hpn, -⟩ := hwf.parent_mem hp
    simp only [ChainDb.up, hp, Option.bind_some]
    exact ih p hpm (by omega)

theorem of_headers_eq (hwf : db.WellFormed genesis written) {db' : ChainDb H}
    (h : db.headers = db'.headers) : db'.WellFormed genesis written where
  mem := h ▸ hwf.mem
  only := h ▸ hwf.only
  nonzero := hwf.nonzero
  parent := ChainDb.parent_congr h ▸ hwf.parent
  genesis_mem := hwf.genesis_mem
  genesis_unique := hwf.genesis_unique

/-- Number and hash are the key of a written header. -/
theorem eq_of_key (hwf : db.WellFormed genesis written) {a b : Header H} (ha : a ∈ written)
    (hb : b ∈ written) (hn : a.number = b.number) (hh : a.hash = b.hash) : a = b := by
  have hab := hwf.mem a ha
  rw [hn, hh, hwf.mem b hb] at hab
  exact (Option.some.inj hab).symm

theorem ancestorAt_mem (hwf : db.WellFormed genesis written) {h a : Header H} {n : ℕ}
    (hh : h ∈ written) (ha : db.ancestorAt h n = some a) : a ∈ written ∧ a.number = n := by
  unfold ChainDb.ancestorAt at ha
  split at ha
  · obtain ⟨ham, han⟩ := hwf.up_mem _ h a hh ha
    exact ⟨ham, by omega⟩
  · cases ha

theorem exists_ancestorAt (hwf : db.WellFormed genesis written) {h : Header H} {n : ℕ}
    (hh : h ∈ written) (hn : n ≤ h.number) : ∃ a, db.ancestorAt h n = some a := by
  unfold ChainDb.ancestorAt
  rw [if_pos hn]
  exact Option.isSome_iff_exists.mp (hwf.up_isSome _ h hh (by omega))

theorem isSome_ancestorAt (hwf : db.WellFormed genesis written) {h : Header H} (hh : h ∈ written)
    (n : ℕ) : (db.ancestorAt h n).isSome ↔ n ≤ h.number := by
  constructor
  · intro hs
    obtain ⟨a, ha⟩ := Option.isSome_iff_exists.mp hs
    exact db.le_of_ancestorAt ha
  · intro hn
    obtain ⟨a, ha⟩ := hwf.exists_ancestorAt hh hn
    simp [ha]

/-- The ancestors of an ancestor are ancestors. -/
theorem ancestorAt_ancestorAt (hwf : db.WellFormed genesis written) {h a : Header H} {j k : ℕ}
    (hh : h ∈ written) (ha : db.ancestorAt h j = some a) (hkj : k ≤ j) :
    db.ancestorAt h k = db.ancestorAt a k := by
  obtain ⟨-, han⟩ := hwf.ancestorAt_mem hh ha
  unfold ChainDb.ancestorAt at ha ⊢
  split at ha
  · rw [if_pos (by omega), if_pos (by omega),
      show h.number - k = (h.number - j) + (a.number - k) by omega, ChainDb.up_add, ha,
      Option.bind_some]
  · cases ha

theorem ancestorAt_parent (hwf : db.WellFormed genesis written) {h p : Header H} {k : ℕ}
    (hh : h ∈ written) (hp : db.parent h = some p) (hk : k < h.number) :
    db.ancestorAt h k = db.ancestorAt p k := by
  have hup : db.ancestorAt h (h.number - 1) = some p := by
    rw [ChainDb.ancestorAt, if_pos (by omega), show h.number - (h.number - 1) = 1 by omega]
    simp [ChainDb.up, hp]
  exact hwf.ancestorAt_ancestorAt hh hup (by omega)

/-- The ancestor at height zero is the genesis. -/
theorem ancestorAt_zero (hwf : db.WellFormed genesis written) {h : Header H} (hh : h ∈ written) :
    db.ancestorAt h 0 = some genesis := by
  obtain ⟨a, ha⟩ := hwf.exists_ancestorAt hh (Nat.zero_le _)
  obtain ⟨ham, han⟩ := hwf.ancestorAt_mem hh ha
  rw [ha, hwf.genesis_unique a ham han]

theorem tdOf_parent (hwf : db.WellFormed genesis written) {h p : Header H}
    (hp : db.parent h = some p) : db.tdOf h = h.difficulty + db.tdOf p := by
  obtain ⟨-, hn, -⟩ := hwf.parent_mem hp
  rw [ChainDb.tdOf, ← hn, ChainDb.totalDifficulty, hp]
  rfl

section Extends
variable {db' : ChainDb H} (hwf : db.WellFormed genesis written) (hext : db'.Extends db)
include hwf hext

/-- A database that holds more headers gives the written ones the same total difficulty. -/
theorem tdOf_of_extends {h : Header H} (hh : h ∈ written) : db'.tdOf h = db.tdOf h := by
  have key : ∀ (k : ℕ) (h : Header H), h ∈ written → k ≤ h.number →
      db'.totalDifficulty k h = db.totalDifficulty k h := by
    intro k
    induction k with
    | zero => intro h _ _; rfl
    | succ k ih =>
      intro h hh hk
      obtain ⟨p, hp⟩ := hwf.exists_parent hh (by omega)
      obtain ⟨hpm, hpn, -⟩ := hwf.parent_mem hp
      simp only [ChainDb.totalDifficulty, hp, ChainDb.parent_of_extends hext hp, Option.map_some,
        Option.getD_some, ih p hpm (by omega)]
  exact key h.number h hh (Nat.le_refl _)

theorem ancestorAt_of_extends {h : Header H} (hh : h ∈ written) (n : ℕ) :
    db'.ancestorAt h n = db.ancestorAt h n := by
  by_cases hn : n ≤ h.number
  · obtain ⟨a, ha⟩ := hwf.exists_ancestorAt hh hn
    rw [ha]
    unfold ChainDb.ancestorAt at ha ⊢
    rw [if_pos hn] at ha ⊢
    exact ChainDb.up_of_extends hext _ _ _ ha
  · rw [db.ancestorAt_of_lt (by omega), db'.ancestorAt_of_lt (by omega)]

end Extends

theorem extends_writeHeader [DecidableEq H] (hwf : db.WellFormed genesis written) {x : Header H}
    (hx : Writable written x) : (db.writeHeader x).Extends db :=
  db.extends_writeHeader fun y hy => by
    obtain ⟨hym, hyn, hyh⟩ := hwf.only _ _ _ hy
    exact hx.fresh y hym hyn hyh

theorem parent_writeHeader [DecidableEq H] (hwf : db.WellFormed genesis written) {x p : Header H}
    (hx : Writable written x) (hpm : p ∈ written) (hph : p.hash = x.parentHash)
    (hpn : p.number + 1 = x.number) : (db.writeHeader x).parent x = some p := by
  rw [ChainDb.parent, if_neg (by omega), ChainDb.readHeader, ← hph,
    show x.number - 1 = p.number by omega]
  exact hwf.extends_writeHeader hx _ _ _ (hwf.mem p hpm)

/-- Writing a writable header keeps the database well formed. -/
theorem writeHeader [DecidableEq H] (hwf : db.WellFormed genesis written) {x : Header H}
    (hx : Writable written x) : (db.writeHeader x).WellFormed genesis (x :: written) := by
  have hext := hwf.extends_writeHeader hx
  obtain ⟨p, hpm, hph, hpn⟩ := hx.parent
  constructor
  · intro h hh
    rcases List.mem_cons.mp hh with rfl | hh
    · simp [ChainDb.writeHeader]
    · exact hext _ _ _ (hwf.mem h hh)
  · intro n k h hh
    simp only [ChainDb.writeHeader] at hh
    split at hh
    · next hkey =>
      cases hh
      exact ⟨List.mem_cons_self, hkey.1.symm, hkey.2.symm⟩
    · obtain ⟨hm, hn, hk⟩ := hwf.only _ _ _ hh
      exact ⟨List.mem_cons_of_mem _ hm, hn, hk⟩
  · intro h hh
    rcases List.mem_cons.mp hh with rfl | hh
    · exact hx.nonzero
    · exact hwf.nonzero h hh
  · intro h hh hpos
    rcases List.mem_cons.mp hh with rfl | hh
    · simp [hwf.parent_writeHeader hx hpm hph hpn]
    · obtain ⟨q, hq⟩ := hwf.exists_parent hh hpos
      simp [ChainDb.parent_of_extends hext hq]
  · exact ⟨List.mem_cons_of_mem _ hwf.genesis_mem.1, hwf.genesis_mem.2⟩
  · intro h hh h0
    rcases List.mem_cons.mp hh with rfl | hh
    · omega
    · exact hwf.genesis_unique h hh h0

end ChainDb.WellFormed

/-! ## The two loops of `WriteHeader` -/

/-- The canonical entries of `db` at and below any height where they meet the ancestry of `a` are
those of that ancestry. -/
def ChainDb.Agrees (db : ChainDb H) (a : Header H) : Prop :=
  ∀ k b, db.ancestorAt a k = some b → db.readCanonicalHash k = b.hash →
    ∀ i ≤ k, db.canonical i = (db.ancestorAt a i).map Header.hash

/-- After the deletion from height `m` up, the canonical entries of a database that held a
written head's ancestry agree with the ancestry of any written `p` below `m`: where they meet it
they have met a common ancestor. -/
theorem ChainDb.WellFormed.agrees_of_canonical {genesis : Header H} {written : List (Header H)}
    {db : ChainDb H} (hwf : db.WellFormed genesis written) {head p : Header H} (hhead : head ∈ written)
    (hcanon : ∀ n, db.canonical n = (db.ancestorAt head n).map Header.hash) (hp : p ∈ written)
    {m : ℕ} (hpm : p.number < m) :
    ({ db with canonical := fun n => if m ≤ n then none else db.canonical n } : ChainDb H).Agrees p := by
  intro k b hb hkb i hik
  have hanc : ({ db with canonical := fun n => if m ≤ n then none else db.canonical n } :
      ChainDb H).ancestorAt = db.ancestorAt := ChainDb.ancestorAt_congr rfl
  rw [hanc] at hb ⊢
  have hk : k < m := by
    have := db.le_of_ancestorAt hb
    omega
  obtain ⟨hbm, hbn⟩ := hwf.ancestorAt_mem hp hb
  have hkb' : ((db.ancestorAt head k).map Header.hash).getD default = b.hash := by
    simpa [ChainDb.readCanonicalHash, if_neg (show ¬ m ≤ k by omega), hcanon] using hkb
  obtain ⟨c, hc⟩ : ∃ c, db.ancestorAt head k = some c := by
    cases hck : db.ancestorAt head k with
    | none =>
      rw [hck] at hkb'
      exact absurd hkb'.symm (hwf.nonzero b hbm)
    | some c => exact ⟨c, rfl⟩
  obtain ⟨hcm, hcn⟩ := hwf.ancestorAt_mem hhead hc
  rw [hc] at hkb'
  have hcb : c = b := hwf.eq_of_key hcm hbm (hcn.trans hbn.symm) hkb'
  subst hcb
  simp only [if_neg (show ¬ m ≤ i by omega), hcanon,
    hwf.ancestorAt_ancestorAt hhead hc hik, hwf.ancestorAt_ancestorAt hp hb hik]

variable [DecidableEq H]

/-- Where the canonical entries from `i` on are exactly those up to `top`, none of them zero, the
deletion loop clears them, given a round for each and one to find the end. -/
theorem deleteCanonicalFrom_eq (top : ℕ) :
    ∀ (fuel : ℕ) (db : ChainDb H) (i : ℕ), (∀ n x, db.canonical n = some x → x ≠ default) →
      (∀ n, i ≤ n → ((db.canonical n).isSome ↔ n ≤ top)) → top + 2 ≤ fuel + i → 0 < fuel →
      deleteCanonicalFrom fuel db i =
        .ok { db with canonical := fun n => if i ≤ n then none else db.canonical n } := by
  intro fuel
  induction fuel with
  | zero => intro _ _ _ _ _ h; omega
  | succ fuel ih =>
    intro db i hnz hrange hfuel _
    rw [deleteCanonicalFrom]
    by_cases hi : i ≤ top
    · -- an entry at `i`: it is deleted and the loop goes on
      obtain ⟨x, hx⟩ := Option.isSome_iff_exists.mp ((hrange i (Nat.le_refl _)).mpr hi)
      have hread : db.readCanonicalHash i ≠ default := by
        simpa [ChainDb.readCanonicalHash, hx] using hnz i x hx
      have hnz' : ∀ n x, (db.deleteCanonicalHash i).canonical n = some x → x ≠ default := by
        intro n x hx
        by_cases hn : n = i
        · simp [hn] at hx
        · exact hnz n x (by simpa [Function.update_of_ne hn] using hx)
      have hrange' : ∀ n, i + 1 ≤ n → (((db.deleteCanonicalHash i).canonical n).isSome ↔ n ≤ top) := by
        intro n hn
        simpa [Function.update_of_ne (show n ≠ i by omega)] using hrange n (by omega)
      rw [if_neg hread, ih _ _ hnz' hrange' (by omega) (by omega)]
      congr 2
      funext n
      simp only [ChainDb.canonical_deleteCanonicalHash, Function.update_apply]
      split_ifs <;> first | rfl | omega
    · -- no entry at `i`, and so none above: the loop ends
      have hnone : ∀ n, i ≤ n → db.canonical n = none := fun n hn =>
        Option.not_isSome_iff_eq_none.mp (by rw [hrange n hn]; omega)
      rw [if_pos (by simp [ChainDb.readCanonicalHash, hnone i (Nat.le_refl _)])]
      congr 1
      apply ChainDb.eq_with_canonical
      intro n
      split
      · exact hnone n ‹_›
      · rfl

/-- From a written header `a` whose ancestry the canonical entries meet below it (at the genesis
at the latest), the rewriting loop makes them that ancestry up to `a`, given a round for each
height it walks. -/
theorem overwriteStale_eq {genesis : Header H} {written : List (Header H)} :
    ∀ (fuel : ℕ) (db : ChainDb H) (a : Header H), db.WellFormed genesis written →
      db.canonical 0 = some genesis.hash → a ∈ written → a.number < fuel → db.Agrees a →
      overwriteStale fuel db a.hash a.number (some a) =
        .ok { db with canonical := fun n =>
          if n ≤ a.number then (db.ancestorAt a n).map Header.hash else db.canonical n } := by
  intro fuel
  induction fuel with
  | zero => intro _ _ _ _ _ h; omega
  | succ fuel ih =>
    intro db a hwf h0 ha hfuel hagree
    rw [overwriteStale]
    by_cases hmatch : db.readCanonicalHash a.number = a.hash
    · -- the entry at `a` is `a`'s: the loop ends, and the entries below are its ancestry
      rw [if_pos hmatch]
      congr 1
      apply ChainDb.eq_with_canonical
      intro n
      split
      · exact hagree a.number a (db.ancestorAt_self a) hmatch n ‹_›
      · rfl
    · rw [if_neg hmatch]
      have hpos : 0 < a.number := by
        refine Nat.pos_of_ne_zero fun hz => hmatch ?_
        rw [hwf.genesis_unique a ha hz, hwf.genesis_mem.2]
        simp [ChainDb.readCanonicalHash, h0]
      obtain ⟨p, hp⟩ := hwf.exists_parent ha hpos
      obtain ⟨hpm, hpn, hph⟩ := hwf.parent_mem hp
      have hpred : pred64 a.number = p.number := by
        rw [pred64, if_neg (by omega)]
        omega
      have hread : db.readHeader p.hash p.number = some p := by
        rwa [hph, show p.number = a.number - 1 by omega, ← db.parent_eq_readHeader hpos]
      let db' := db.writeCanonicalHash a.hash a.number
      have hanc : db'.ancestorAt = db.ancestorAt := ChainDb.ancestorAt_congr rfl
      have hbelow : ∀ n, n < a.number → db'.canonical n = db.canonical n := fun n hn =>
        Function.update_of_ne (by omega) _ _
      have hagree' : db'.Agrees p := by
        intro k b hb hkb i hik
        have hk : k < a.number := by
          have := ChainDb.le_of_ancestorAt (hanc ▸ hb)
          omega
        rw [hanc, ← hwf.ancestorAt_parent ha hp hk] at hb
        have hkb' : db.readCanonicalHash k = b.hash := by
          simpa [ChainDb.readCanonicalHash, hbelow k hk] using hkb
        rw [hbelow i (by omega), hagree k b hb hkb' i hik, hanc,
          hwf.ancestorAt_parent ha hp (by omega)]
      simp only [hpred, ← hph, ChainDb.readHeader_writeCanonicalHash, hread]
      rw [ih db' p (hwf.of_headers_eq rfl) (by rw [hbelow 0 hpos]; exact h0) hpm (by omega) hagree']
      congr 2
      funext n
      rw [hanc]
      by_cases hn : n ≤ p.number
      · rw [if_pos hn, if_pos (by omega), hwf.ancestorAt_parent ha hp (by omega)]
      · rw [if_neg hn]
        by_cases hna : n = a.number
        · subst hna
          simp [db', db.ancestorAt_self]
        · rw [if_neg (by omega)]
          exact Function.update_of_ne hna _ _

/-! ## One `WriteHeader` -/

section Stored
variable {genesis : Header H} {written : List (Header H)} {db : ChainDb H} {x p : Header H}
  (hwf : db.WellFormed genesis written) (hx : Writable written x) (hpm : p ∈ written)
  (hph : p.hash = x.parentHash) (hpn : p.number + 1 = x.number)
include hwf hx

/-! What `WriteHeader` has stored before it compares total difficulties: the header, and its total
difficulty as its own difficulty and its parent's total difficulty. -/

theorem wellFormed_stored (td : ℕ) :
    ((db.writeTd x.hash x.number td).writeHeader x).WellFormed genesis (x :: written) :=
  (hwf.of_headers_eq (db.headers_writeTd x.hash x.number td).symm).writeHeader hx

theorem extends_stored (td : ℕ) : ((db.writeTd x.hash x.number td).writeHeader x).Extends db :=
  (hwf.of_headers_eq (db.headers_writeTd x.hash x.number td).symm).extends_writeHeader hx

include hpm hph hpn

theorem tdOf_stored_self (td : ℕ) :
    ((db.writeTd x.hash x.number td).writeHeader x).tdOf x = x.difficulty + db.tdOf p := by
  have hwf1 := wellFormed_stored hwf hx td
  rw [hwf1.tdOf_parent ((hwf.of_headers_eq (db.headers_writeTd x.hash x.number td).symm).parent_writeHeader
      hx hpm hph hpn),
    hwf.tdOf_of_extends (extends_stored hwf hx td) hpm]

/-- Where `db` holds the total difficulty of each of its headers, so does the database with the
header and the total difficulty `WriteHeader` computes for it. -/
theorem td_stored (htd : ∀ n k, db.td n k = (db.headers n k).map db.tdOf) :
    let db1 := (db.writeTd x.hash x.number (x.difficulty + db.tdOf p)).writeHeader x
    ∀ n k, db1.td n k = (db1.headers n k).map db1.tdOf := by
  intro db1 n k
  simp only [db1, ChainDb.td_writeHeader, ChainDb.td_writeTd_apply,
    ChainDb.headers_writeHeader_apply, ChainDb.headers_writeTd]
  split
  · rw [Option.map_some, tdOf_stored_self hwf hx hpm hph hpn]
  · rw [htd n k]
    cases hy : db.headers n k with
    | none => rfl
    | some y =>
      rw [Option.map_some, Option.map_some,
        hwf.tdOf_of_extends (extends_stored hwf hx _) (hwf.only _ _ _ hy).1]

end Stored

theorem pred64_succ (n : ℕ) : pred64 (n + 1) = n := by
  simp [pred64]

namespace HeaderChain.Inv
variable {genesis : Header H} {written : List (Header H)}

omit [DecidableEq H] in
theorem getTd_of_mem {hc : HeaderChain H} (hinv : hc.Inv genesis written) {h : Header H}
    (hh : h ∈ written) : hc.getTd h.hash h.number = some (hc.chainDb.tdOf h) := by
  rw [HeaderChain.getTd, ChainDb.readTd, hinv.td, hinv.wf.mem h hh, Option.map_some]

omit [DecidableEq H] in
/-- The invariant of a chain over a database `db'` that differs from a well-formed `db1` in its
canonical entries and head hash only. -/
theorem of_stored {db1 db' : ChainDb H} {head : Header H} (hwf1 : db1.WellFormed genesis written)
    (htd1 : ∀ n k, db1.td n k = (db1.headers n k).map db1.tdOf) (hheaders : db'.headers = db1.headers)
    (htd : db'.td = db1.td) (hhead : head ∈ written) (hmax : ∀ h ∈ written, db1.tdOf h ≤ db1.tdOf head)
    (hcanon : ∀ n, db'.canonical n = (db1.ancestorAt head n).map Header.hash) :
    (⟨db', head⟩ : HeaderChain H).Inv genesis written where
  wf := hwf1.of_headers_eq hheaders.symm
  td := by
    rw [htd, hheaders, ChainDb.tdOf_congr hheaders]
    exact htd1
  head := hhead
  head_max := by
    rw [ChainDb.tdOf_congr hheaders]
    exact hmax
  canonical := by
    rw [ChainDb.ancestorAt_congr hheaders]
    exact hcanon

/-- One `WriteHeader` of a writable header keeps the invariant, with the header added to the
written ones, given fuel for the heights of the head and of the header. -/
theorem writeHeader {hc : HeaderChain H} (hinv : hc.Inv genesis written) {x : Header H}
    (hx : Writable written x) {fuel : ℕ} (hfuel : ∀ h ∈ written, h.number ≤ fuel)
    (hxf : x.number ≤ fuel) (coin : Bool) :
    ∃ st hc', hc.writeHeader fuel x coin = .ok (st, hc') ∧ hc'.Inv genesis (x :: written) := by
  obtain ⟨p, hpm, hph, hpn⟩ := hx.parent
  have hwf := hinv.wf
  have hpred : pred64 x.number = p.number := by rw [← hpn, pred64_succ]
  have hptd : hc.getTd x.parentHash (pred64 x.number) = some (hc.chainDb.tdOf p) := by
    rw [hpred, ← hph]
    exact hinv.getTd_of_mem hpm
  rw [HeaderChain.writeHeader]
  simp only [hptd, hinv.getTd_of_mem hinv.head]
  set db1 := (hc.chainDb.writeTd x.hash x.number (x.difficulty + hc.chainDb.tdOf p)).writeHeader x
    with hdb1
  have hwf1 : db1.WellFormed genesis (x :: written) := wellFormed_stored hwf hx _
  have hext1 : db1.Extends hc.chainDb := extends_stored hwf hx _
  have htd1 := td_stored hwf hx hpm hph hpn hinv.td
  have hself : db1.tdOf x = x.difficulty + hc.chainDb.tdOf p := tdOf_stored_self hwf hx hpm hph hpn _
  have hold : ∀ h ∈ written, db1.tdOf h = hc.chainDb.tdOf h := fun h hh =>
    hwf.tdOf_of_extends hext1 hh
  have hcanon1 : ∀ n, db1.canonical n = (db1.ancestorAt hc.currentHeader n).map Header.hash :=
    fun n => by rw [hwf.ancestorAt_of_extends hext1 hinv.head]; exact hinv.canonical n
  split_ifs with hwin
  · -- the header has the greater total difficulty (or wins the tie): it becomes the head
    have hnz : ∀ n k, db1.canonical n = some k → k ≠ default := by
      intro n k hk
      rw [hcanon1] at hk
      obtain ⟨a, ha, rfl⟩ := Option.map_eq_some_iff.mp hk
      exact hwf1.nonzero a (hwf1.ancestorAt_mem (List.mem_cons_of_mem _ hinv.head) ha).1
    have hrange : ∀ n, x.number + 1 ≤ n → ((db1.canonical n).isSome ↔ n ≤ hc.currentHeader.number) :=
      fun n _ => by
        rw [hcanon1, Option.isSome_map, hwf1.isSome_ancestorAt (List.mem_cons_of_mem _ hinv.head)]
    have hhf := hfuel _ hinv.head
    rw [deleteCanonicalFrom_eq hc.currentHeader.number fuel db1 (x.number + 1) hnz hrange (by omega)
      (by omega)]
    simp only [bind, Except.bind]
    set db2 : ChainDb H := { db1 with canonical := fun n =>
      if x.number + 1 ≤ n then none else db1.canonical n } with hdb2
    have hrd : db2.readHeader p.hash p.number = some p := hwf1.mem p (List.mem_cons_of_mem _ hpm)
    have h0 : db2.canonical 0 = some genesis.hash := by
      simp only [hdb2, if_neg (show ¬ x.number + 1 ≤ 0 by omega), hcanon1,
        hwf1.ancestorAt_zero (List.mem_cons_of_mem _ hinv.head), Option.map_some]
    have hagree : db2.Agrees p :=
      hwf1.agrees_of_canonical (List.mem_cons_of_mem _ hinv.head) hcanon1
        (List.mem_cons_of_mem _ hpm) (show p.number < x.number + 1 by omega)
    rw [hpred, ← hph, hrd, overwriteStale_eq fuel db2 p (hwf1.of_headers_eq rfl) h0
      (List.mem_cons_of_mem _ hpm) (by omega) hagree]
    have hpx : db1.parent x = some p :=
      (hwf.of_headers_eq (hc.chainDb.headers_writeTd _ _ _).symm).parent_writeHeader hx hpm hph hpn
    have hanc2 : db2.ancestorAt = db1.ancestorAt := ChainDb.ancestorAt_congr rfl
    refine ⟨_, _, rfl, of_stored hwf1 htd1 rfl rfl List.mem_cons_self ?_ ?_⟩
    · intro h hh
      rcases List.mem_cons.mp hh with rfl | hh
      · exact Nat.le_refl _
      · rw [hold h hh, hself]
        have := hinv.head_max h hh
        omega
    · -- the head's ancestry: rewritten below it, the header at its height, nothing above
      intro n
      simp only [ChainDb.canonical_writeHeadHeaderHash, ChainDb.canonical_writeCanonicalHash]
      by_cases hn : n = x.number
      · subst hn
        simp [db1.ancestorAt_self]
      · rw [Function.update_of_ne hn, hanc2]
        by_cases hnp : n ≤ p.number
        · simp only [if_pos hnp]
          rw [hwf1.ancestorAt_parent List.mem_cons_self hpx (by omega)]
        · simp only [if_neg hnp, hdb2, if_pos (show x.number + 1 ≤ n by omega),
            db1.ancestorAt_of_lt (show x.number < n by omega), Option.map_none]
  · -- a side chain: the head and the canonical entries stay
    refine ⟨_, _, rfl, of_stored hwf1 htd1 rfl rfl (List.mem_cons_of_mem _ hinv.head) ?_ hcanon1⟩
    intro h hh
    rw [hold _ hinv.head]
    rcases List.mem_cons.mp hh with rfl | hh
    · omega
    · rw [hold h hh]
      exact hinv.head_max h hh

omit [DecidableEq H] in
theorem canonicalIndex {hc : HeaderChain H} (hinv : hc.Inv genesis written) :
    hc.CanonicalIndex written where
  head_mem := hinv.head
  head_max := hinv.head_max
  canonical_le n hn := by
    obtain ⟨a, ha⟩ := hinv.wf.exists_ancestorAt hinv.head hn
    exact ⟨a, ha, by simp [ChainDb.readCanonicalHash, hinv.canonical n, ha]⟩
  canonical_gt n hn := by
    simp [ChainDb.readCanonicalHash, hinv.canonical n, hc.chainDb.ancestorAt_of_lt hn]
  td h hh := hinv.getTd_of_mem hh

/-- The invariant holds of every run of `WriteHeader` calls on writable headers with enough fuel,
with the headers written added to the written ones. -/
theorem writeHeaders {fuel : ℕ} :
    ∀ (writes : List (Header H × Bool)) (hc : HeaderChain H) (written : List (Header H)),
      hc.Inv genesis written → ValidWrites written writes → (∀ h ∈ written, h.number ≤ fuel) →
      (∀ w ∈ writes, w.1.number ≤ fuel) →
      ∃ hc', Srcd.Chain.writeHeaders fuel hc writes = .ok hc' ∧
        hc'.Inv genesis (writes.reverse.map Prod.fst ++ written) := by
  intro writes
  induction writes with
  | nil => intro hc written hinv _ _ _; exact ⟨hc, rfl, hinv⟩
  | cons w rest ih =>
    obtain ⟨x, coin⟩ := w
    intro hc written hinv hvalid hfuel hwrites
    obtain ⟨hx, hrest⟩ := hvalid
    have hxf := hwrites (x, coin) List.mem_cons_self
    obtain ⟨st, hc1, hstep, hinv1⟩ := hinv.writeHeader hx hfuel hxf coin
    have hfuel1 : ∀ h ∈ x :: written, h.number ≤ fuel := by
      intro h hh
      rcases List.mem_cons.mp hh with rfl | hh
      · exact hxf
      · exact hfuel h hh
    obtain ⟨hc', hrun, hinv'⟩ :=
      ih hc1 (x :: written) hinv1 hrest hfuel1 fun w hw => hwrites w (List.mem_cons_of_mem _ hw)
    refine ⟨hc', ?_, ?_⟩
    · simp only [Srcd.Chain.writeHeaders, hstep, bind, Except.bind, hrun]
    · simpa using hinv'

end HeaderChain.Inv

/-- The chain of the genesis alone keeps the invariant. -/
theorem genesisChain_inv {genesis : Header H} (hg : genesis.number = 0) (hgh : genesis.hash ≠ default) :
    (genesisChain genesis).Inv genesis [genesis] := by
  set db := (genesisChain genesis).chainDb with hdb
  have hheaders : ∀ n k, db.headers n k =
      if n = genesis.number ∧ k = genesis.hash then some genesis else none := fun _ _ => rfl
  have hwf : db.WellFormed genesis [genesis] := by
    constructor
    · simp [hheaders]
    · intro n k h hh
      rw [hheaders] at hh
      split at hh
      · next hkey =>
        cases hh
        exact ⟨List.mem_singleton_self _, hkey.1.symm, hkey.2.symm⟩
      · cases hh
    · simpa using hgh
    · simp [hg]
    · exact ⟨List.mem_singleton_self _, hg⟩
    · simp
  have htd0 : db.tdOf genesis = genesis.difficulty := by
    rw [ChainDb.tdOf, hg]
    rfl
  refine ⟨hwf, ?_, List.mem_singleton_self _, fun h hh => ?_, ?_⟩
  · intro n k
    show (if n = genesis.number ∧ k = genesis.hash then some genesis.difficulty else none) = _
    rw [hheaders]
    split
    · rw [Option.map_some, htd0]
    · rfl
  · rw [List.mem_singleton.mp hh]
    exact Nat.le_refl _
  · intro n
    show (if n = genesis.number then some genesis.hash else none) = (db.ancestorAt genesis n).map _
    rcases Nat.eq_zero_or_pos n with rfl | hn
    · rw [hwf.ancestorAt_zero (List.mem_singleton_self _), if_pos hg.symm, Option.map_some]
    · rw [db.ancestorAt_of_lt (by omega), if_neg (by omega), Option.map_none]

/-- From the genesis alone, a run of `WriteHeader` calls on headers each written after its
parent, with fuel for their heights, returns, and leaves the head a written header of maximal
total difficulty, the canonical hashes those of its ancestors up to it and zero above it, and the
total difficulty of every written header stored as the sum of the difficulties on its path. -/
theorem writeHeaders_canonicalIndex (genesis : Header H) (writes : List (Header H × Bool))
    (fuel : ℕ) (hg : genesis.number = 0) (hgh : genesis.hash ≠ default)
    (hvalid : ValidWrites [genesis] writes) (hfuel : ∀ w ∈ writes, w.1.number ≤ fuel) :
    ∃ hc, writeHeaders fuel (genesisChain genesis) writes = .ok hc ∧
      hc.CanonicalIndex (genesis :: writes.map Prod.fst) := by
  obtain ⟨hc, hrun, hinv⟩ := HeaderChain.Inv.writeHeaders writes (genesisChain genesis) [genesis]
    (genesisChain_inv hg hgh) hvalid (by simp [hg]) hfuel
  have hmem : ∀ h, h ∈ genesis :: writes.map Prod.fst → h ∈ writes.reverse.map Prod.fst ++ [genesis] := by
    intro h hh
    simpa [or_comm] using hh
  have hidx := hinv.canonicalIndex
  refine ⟨hc, hrun, ⟨?_, fun h hh => hidx.head_max h (hmem h hh), hidx.canonical_le,
    hidx.canonical_gt, fun h hh => hidx.td h (hmem h hh)⟩⟩
  simpa [or_comm] using hidx.head_mem

/-- A fork: `A1`, `A2`, then a heavier sibling `B1` of `A1`, which takes the head. -/
theorem writeHeaders_canonicalIndex_fork :
    ValidWrites [⟨1, 0, 0, 1⟩] [(⟨2, 1, 1, 1⟩, false), (⟨3, 2, 2, 1⟩, false), (⟨4, 1, 1, 5⟩, false)] ∧
    ∃ hc, writeHeaders 2 (genesisChain (⟨1, 0, 0, 1⟩ : Header ℕ))
        [(⟨2, 1, 1, 1⟩, false), (⟨3, 2, 2, 1⟩, false), (⟨4, 1, 1, 5⟩, false)] = .ok hc ∧
      hc.CanonicalIndex [⟨1, 0, 0, 1⟩, ⟨2, 1, 1, 1⟩, ⟨3, 2, 2, 1⟩, ⟨4, 1, 1, 5⟩] :=
  have hvalid : ValidWrites [(⟨1, 0, 0, 1⟩ : Header ℕ)]
      [(⟨2, 1, 1, 1⟩, false), (⟨3, 2, 2, 1⟩, false), (⟨4, 1, 1, 5⟩, false)] :=
    ⟨⟨by decide, by decide, by decide⟩, ⟨by decide, by decide, by decide⟩,
      ⟨by decide, by decide, by decide⟩, trivial⟩
  ⟨hvalid, writeHeaders_canonicalIndex _ _ 2 rfl (by decide) hvalid (by decide)⟩

end

section
variable {H : Type} [Inhabited H]

/-- The canonical index is linked: the header stored under the canonical hash of `n + 1` has the
canonical hash of `n` as its parent hash. -/
def ChainDb.CanonicalLinked (db : ChainDb H) : Prop :=
  ∀ n h, db.headers (n + 1) (db.readCanonicalHash (n + 1)) = some h →
    h.parentHash = db.readCanonicalHash n

end

end Srcd.Chain
