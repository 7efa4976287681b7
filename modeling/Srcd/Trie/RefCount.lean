import Srcd.Trie.Database

/-! # Reference counts that wrap

The counts of `Database` are `uint16`s. `Reference(child, {})` may be repeated for a root, and
each call adds one to the child's `parents` and to the meta-root's count for it
(`reference_root_iterate`). After `2 ^ 16` such calls both counts are back where they were, the
meta-root's count for a new root at zero; one `Dereference` then finds the root's `parents` at
one, deletes it, and with it a node another live root still references
(`dereference_wrapped_root_drops_live_child`).
-/

namespace Srcd.Trie
set_option autoImplicit false

namespace Database
variable {db : Database}

theorem modify_of_lookup {h : Hash} {n : CachedNode} (hn : db.nodes.lookup h = some n)
    (f : CachedNode → CachedNode) :
    db.modify h f = .ok { db with nodes := db.nodes.insert h (f n) } := by
  simp only [modify, hn]

/-- A root reference to a cached node: one more parent for it, one more count for it in the
meta-root, and the rest of the database as it was. -/
theorem reference_root {child : Hash} {c m : CachedNode} (hne : child ≠ zeroHash)
    (hc : db.nodes.lookup child = some c) (hm : db.nodes.lookup zeroHash = some m) :
    db.reference child zeroHash = .ok { db with nodes :=
      (((db.nodes.insert zeroHash { m with children := some (m.children.getD ∅) }).insert child
        { c with parents := c.parents + 1 }).insert zeroHash
          { m with children := some ((m.children.getD ∅).insert child
            (((m.children.getD ∅).lookup child).getD 0 + 1)) }) } := by
  have h₁ : (db.nodes.insert zeroHash { m with children := some (m.children.getD ∅) }).lookup
      child = some c := by
    rw [AList.lookup_insert_ne hne, hc]
  have h₂ : ((db.nodes.insert zeroHash { m with children := some (m.children.getD ∅) }).insert child
      { c with parents := c.parents + 1 }).lookup zeroHash =
      some { m with children := some (m.children.getD ∅) } := by
    rw [AList.lookup_insert_ne hne.symm, AList.lookup_insert]
  unfold reference
  rw [hc, Option.isNone_some, if_neg Bool.false_ne_true, hm]
  simp only [ne_eq, not_true_eq_false, and_false, ↓reduceIte]
  rw [modify_of_lookup hm]
  simp only [bind, Except.bind]
  rw [modify_of_lookup h₁]
  simp only
  rw [modify_of_lookup h₂]
  rfl

/-- Dropping a reference the parent does not count leaves it as it is. -/
theorem dropChild_of_count_zero {child : Hash} {p : CachedNode} {cs : AList fun _ : Hash => UInt16}
    (hcs : p.children = some cs) (h0 : (cs.lookup child).getD 0 = 0) : dropChild child p = p := by
  simp only [dropChild, hcs, h0]
  rfl

/-- A dereference that takes the last parent of the oldest node, which has no children: the node
leaves the flush-list and the cache. -/
theorem dereference_last_parent (fuel : ℕ) {child parent : Hash} {p n : CachedNode}
    (hne : child ≠ parent) (hp : db.nodes.lookup parent = some p) (hdrop : dropChild child p = p)
    (hn : db.nodes.lookup child = some n) (hone : n.parents = 1) (hold : child = db.oldest)
    (hleaf : n.childs = []) :
    dereference (fuel + 1) db child parent = .ok { db with
      nodes := ((db.nodes.insert parent p).insert child { n with parents := 0 }).erase child,
      oldest := n.flushNext,
      nodesSize := db.nodesSize - (hashLength + n.size.toNat) } := by
  have hn' : (db.nodes.insert parent p).lookup child = some n := by
    rw [AList.lookup_insert_ne hne, hn]
  have hleaf' : ({ n with parents := 0 } : CachedNode).childs = [] := hleaf
  rw [dereference, modify_of_lookup hp, hdrop]
  simp only [bind, Except.bind, hn', hone, show (1 : UInt16) - 1 = 0 from rfl, ↓reduceIte]
  rw [if_pos hold]
  simp only [pure, Except.pure, hleaf', List.foldlM_nil]

end Database

/-- What `j` root references to `child` leave over `db₀`, where `child` held `c` and the
meta-root `m`: `child` has `j` more parents, the meta-root counts `j` more references to it, and
nothing else has changed. -/
structure RootRefs (db₀ db : Database) (child : Hash) (c m : CachedNode) (j : ℕ) : Prop where
  child_entry : db.nodes.lookup child = some { c with parents := c.parents + UInt16.ofNat j }
  meta_entry : ∃ cs, db.nodes.lookup zeroHash = some { m with children := some cs } ∧
    (cs.lookup child).getD 0 = ((m.children.getD ∅).lookup child).getD 0 + UInt16.ofNat j ∧
    ∀ k, k ≠ child → cs.lookup k = (m.children.getD ∅).lookup k
  others : ∀ k, k ≠ child → k ≠ zeroHash → db.nodes.lookup k = db₀.nodes.lookup k
  oldest : db.oldest = db₀.oldest
  newest : db.newest = db₀.newest

namespace RootRefs
variable {db₀ db : Database} {child : Hash} {c m : CachedNode}

theorem zero (hc : db₀.nodes.lookup child = some c)
    (hm : db₀.nodes.lookup zeroHash = some m) (hcs : m.children.isSome) :
    RootRefs db₀ db₀ child c m 0 := by
  obtain ⟨cs, hcs⟩ := Option.isSome_iff_exists.mp hcs
  refine ⟨by simpa using hc, ⟨cs, ?_, by simp [hcs], fun k _ => by simp [hcs]⟩,
    fun _ _ _ => rfl, rfl, rfl⟩
  rw [hm, ← hcs]

/-- One more root reference. -/
theorem step (hne : child ≠ zeroHash) {j : ℕ} (h : RootRefs db₀ db child c m j) :
    ∃ db', db.reference child zeroHash = .ok db' ∧ RootRefs db₀ db' child c m (j + 1) := by
  obtain ⟨cs, hmeta, hcount, hkeep⟩ := h.meta_entry
  refine ⟨_, Database.reference_root hne h.child_entry hmeta, ⟨?_, ?_, ?_, h.oldest, h.newest⟩⟩
  · rw [AList.lookup_insert_ne hne, AList.lookup_insert, UInt16.ofNat_add, UInt16.add_assoc]
    rfl
  · refine ⟨cs.insert child ((cs.lookup child).getD 0 + 1), AList.lookup_insert _, ?_, ?_⟩
    · rw [AList.lookup_insert, Option.getD_some, hcount, UInt16.ofNat_add, UInt16.add_assoc]
      rfl
    · intro k hk
      rw [AList.lookup_insert_ne hk, hkeep k hk]
  · intro k hkc hkz
    rw [AList.lookup_insert_ne hkz, AList.lookup_insert_ne hkc, AList.lookup_insert_ne hkz,
      h.others k hkc hkz]

end RootRefs

/-- `j` root references in a row, by induction on `j`. -/
theorem reference_root_iterate (fuel : ℕ) {db₀ : Database} {child : Hash} {c m : CachedNode}
    (hne : child ≠ zeroHash) :
    ∀ (j : ℕ) (db : Database) (i : ℕ), RootRefs db₀ db child c m i →
      ∃ db', (List.replicate j (DbOp.reference child zeroHash)).foldlM (DbOp.apply fuel) db =
        .ok db' ∧ RootRefs db₀ db' child c m (i + j) := by
  intro j
  induction j with
  | zero => exact fun db i h => ⟨db, rfl, h⟩
  | succ j ih =>
    intro db i h
    obtain ⟨db₁, h₁, hr₁⟩ := h.step hne
    obtain ⟨db₂, h₂, hr₂⟩ := ih db₁ (i + 1) hr₁
    refine ⟨db₂, ?_, by rwa [Nat.add_right_comm, Nat.add_assoc] at hr₂⟩
    rw [List.replicate_succ, List.foldlM_cons]
    exact (congrArg (· >>= _) h₁).trans h₂

/-- The blob `C` under the blob `R`, `R` referenced from the meta-root once and `C` `2 ^ 16` times,
then `C` dereferenced once. -/
def wrapOps : List DbOp :=
  [.insertBlob (List.replicate 32 1) [1], .insertBlob (List.replicate 32 2) [2],
    .reference (List.replicate 32 1) (List.replicate 32 2),
    .reference (List.replicate 32 2) zeroHash] ++
  List.replicate (2 ^ 16) (.reference (List.replicate 32 1) zeroHash) ++
  [.dereference (List.replicate 32 1)]

/-- After `wrapOps` the meta-root still holds `R`, `R` still lists `C` among its children, and `C`
is gone from the cache. -/
theorem dereference_wrapped_root_drops_live_child (fuel : ℕ) :
    ∃ db, runDb (fuel + 1) wrapOps = .ok db ∧
      (∃ m cs, db.nodes.lookup zeroHash = some m ∧ m.children = some cs ∧
        cs.lookup (List.replicate 32 2) = some 1) ∧
      (∃ r, db.nodes.lookup (List.replicate 32 2) = some r ∧ List.replicate 32 1 ∈ r.childs) ∧
      db.nodes.lookup (List.replicate 32 1) = none := by
  have hne : List.replicate 32 (1 : UInt8) ≠ zeroHash := by decide
  have hRC : List.replicate 32 (2 : UInt8) ≠ List.replicate 32 1 := by decide
  have hRz : List.replicate 32 (2 : UInt8) ≠ zeroHash := by decide
  obtain ⟨db₄, h₄, ⟨c, hc, hc1, hleaf⟩, ⟨m, hm, cs₀, hcs₀, hC₀, hR₀⟩, ⟨r, hr, hmem⟩, hold⟩ :
      ∃ db, ([.insertBlob (List.replicate 32 1) [1], .insertBlob (List.replicate 32 2) [2],
          .reference (List.replicate 32 1) (List.replicate 32 2),
          .reference (List.replicate 32 2) zeroHash] : List DbOp).foldlM (DbOp.apply (fuel + 1))
          Database.new = .ok db ∧
        (∃ c, db.nodes.lookup (List.replicate 32 1) = some c ∧ c.parents = 1 ∧ c.childs = []) ∧
        (∃ m, db.nodes.lookup zeroHash = some m ∧ ∃ cs, m.children = some cs ∧
          cs.lookup (List.replicate 32 1) = none ∧ cs.lookup (List.replicate 32 2) = some 1) ∧
        (∃ r, db.nodes.lookup (List.replicate 32 2) = some r ∧ List.replicate 32 1 ∈ r.childs) ∧
        db.oldest = List.replicate 32 1 :=
    ⟨_, rfl, ⟨_, rfl, rfl, rfl⟩, ⟨_, rfl, _, rfl, rfl, rfl⟩, ⟨_, rfl, by decide⟩, rfl⟩
  obtain ⟨db', hmid, hrefs⟩ := reference_root_iterate (fuel + 1) hne (2 ^ 16) db₄ 0
    (RootRefs.zero hc hm (by rw [hcs₀]; rfl))
  obtain ⟨cs, hmeta, hcount, hkeep⟩ := hrefs.meta_entry
  have hwrap : UInt16.ofNat (0 + 2 ^ 16) = 0 := by decide
  have hderef := Database.dereference_last_parent fuel hne hmeta
    (Database.dropChild_of_count_zero rfl (by rw [hcount, hcs₀, Option.getD_some, hC₀, hwrap]; rfl))
    hrefs.child_entry (by rw [hc1, hwrap]; rfl) (by rw [hrefs.oldest, hold]) hleaf
  have hrun : runDb (fuel + 1) wrapOps =
      Database.dereference (fuel + 1) db' (List.replicate 32 1) zeroHash := by
    rw [runDb, wrapOps, List.foldlM_append, List.foldlM_append, h₄]
    simp only [bind, Except.bind]
    rw [hmid]
    simp only [List.foldlM_cons, List.foldlM_nil, DbOp.apply, bind_pure]
  rw [hderef] at hrun
  refine ⟨_, hrun, ⟨{ m with children := some cs }, cs, ?_, rfl, ?_⟩, ⟨r, ?_, hmem⟩, AList.lookup_erase _ _⟩
  · rw [AList.lookup_erase_ne hne.symm, AList.lookup_insert_ne hne.symm, AList.lookup_insert]
  · rw [hkeep _ hRC, hcs₀, Option.getD_some, hR₀]
  · rw [AList.lookup_erase_ne hRC, AList.lookup_insert_ne hRC, AList.lookup_insert_ne hRz,
      hrefs.others _ hRC hRz, hr]

end Srcd.Trie
