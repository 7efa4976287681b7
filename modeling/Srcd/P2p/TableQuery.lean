import Srcd.P2p.Table
import Srcd.Library.Nearest
import Mathlib

/-! # Reading the discovery table (`p2p/discover/table.go`)

`closest` pushes every entry of the table into a `nodesByDistance` list, which `push` keeps in
order of XOR distance to a target and at most `nresults` long. `ReadRandomNodes` shuffles the
non-empty buckets and fills a buffer from their heads in turn. The draws of `rand.Intn` that the
shuffle makes are an argument, so a statement covers every shuffle; a buffer slot is `none` for a
nil pointer.
-/

namespace Srcd.P2p
open Srcd.Library
set_option autoImplicit false

/-- `distcmp`: `1` if `a` is farther from `target` than `b`, `-1` if closer, `0` if as far. -/
def distcmp : List UInt8 → List UInt8 → List UInt8 → ℤ
  | t :: target, x :: a, y :: b =>
    if x ^^^ t > y ^^^ t then 1 else if x ^^^ t < y ^^^ t then -1 else distcmp target a b
  | _, _, _ => 0

/-- The XOR distance of a hash from `target`, byte by byte, compared lexicographically. -/
def xorDist (target a : List UInt8) : List ℕ := List.zipWith (fun x t => (x ^^^ t).toNat) a target

structure NodesByDistance (I : Type) where
  entries : List (Node I)
  target : List UInt8

section
variable {I : Type}

/-- The distance of a node's hash from `target`. -/
def distKey (target : List UInt8) (n : Node I) : List ℕ := xorDist target n.sha

namespace NodesByDistance

/-- The predicate `push` searches with: `h.entries[i]` is farther from the target than `n`.
`sort.Search` only asks it below `len(h.entries)`. -/
def farther (h : NodesByDistance I) (n : Node I) (i : ℕ) : Bool :=
  decide (0 < distcmp h.target (h.entries.getD i n).sha n.sha)

/-- `nodesByDistance.push`. -/
def push (h : NodesByDistance I) (n : Node I) (maxElems : ℕ) : NodesByDistance I :=
  let ix := search h.entries.length (h.farther n)
  let entries := if h.entries.length < maxElems then h.entries ++ [n] else h.entries
  if ix = entries.length then { h with entries := entries }
  else
    -- `copy(h.entries[ix+1:], h.entries[ix:])` and `h.entries[ix] = n`: the entries from `ix` on
    -- slide down one slot, over the one just appended
    { h with entries := (entries.take ix ++ n :: entries.drop ix).take entries.length }

end NodesByDistance

/-- The entries of all buckets, in the order `closest` visits them. -/
def Table.entries (tab : Table I) : List (Node I) := tab.buckets.flatMap Bucket.entries

/-- `Table.closest`. -/
def Table.closest (tab : Table I) (target : List UInt8) (nresults : ℕ) : NodesByDistance I :=
  tab.buckets.foldl (fun close b => b.entries.foldl (fun close n => close.push n nresults) close)
    ⟨[], target⟩

/-- The shuffle of `ReadRandomNodes`: for `i` from `len(buckets) - 1` down to `1`, exchange
`buckets[i]` and `buckets[j]`, with `j` the draw of `rand.Intn(len(buckets))` at `i`. -/
def shuffle {α : Type} (draws : ℕ → ℕ) : ℕ → List α → List α
  | 0, l => l
  | i + 1, l => shuffle draws i (l.swap (i + 1) (draws (i + 1) % l.length))

/-- The loop of `ReadRandomNodes` at `buf[i]`, `fuel` rounds before `i` reaches `len(buf)`: the `i`
it stops at, and the buffer. -/
def readLoop : ℕ → List (List (Node I)) → ℕ → ℕ → List (Option (Node I)) →
    ℕ × List (Option (Node I))
  | 0, _, i, _, buf => (i, buf)
  | fuel + 1, buckets, i, j, buf =>
    match buckets.getD j [] with
    -- every bucket in the list has an entry: `b[0]` does not panic
    | [] => (i, buf)
    | e :: rest =>
      let buf := buf.set i (some e)
      let buckets := buckets.set j rest
      -- `len(b) == 1`: the bucket is used up and leaves the list
      let buckets := if rest.length = 0 then buckets.eraseIdx j else buckets
      if buckets.length = 0 then (i, buf)
      else readLoop fuel buckets (i + 1) ((j + 1) % buckets.length) buf

/-- `Table.ReadRandomNodes`: the count it returns, and the buffer. -/
def Table.readRandomNodes (tab : Table I) (draws : ℕ → ℕ) (buf : List (Option (Node I))) :
    ℕ × List (Option (Node I)) :=
  if !tab.initDone then (0, buf)
  else
    let buckets := (tab.buckets.filter fun b => 0 < b.entries.length).map Bucket.entries
    if buckets.length = 0 then (0, buf)
    else
      let buckets := shuffle draws (buckets.length - 1) buckets
      let r := readLoop buf.length buckets 0 0 buf
      (r.1 + 1, r.2)

end

/-! ## Distance -/

theorem distcmp_pos_iff {target a b : List UInt8} (ha : a.length = target.length)
    (hb : b.length = target.length) : 0 < distcmp target a b ↔ xorDist target b < xorDist target a := by
  induction target generalizing a b with
  | nil =>
    rw [List.length_eq_zero_iff.mp ha, List.length_eq_zero_iff.mp hb]
    simp [distcmp, xorDist]
  | cons t target ih =>
    obtain ⟨x, a, rfl⟩ := List.exists_cons_of_length_eq_add_one ha
    obtain ⟨y, b, rfl⟩ := List.exists_cons_of_length_eq_add_one hb
    simp only [List.length_cons, Nat.add_right_cancel_iff] at ha hb
    have hrest := ih ha hb
    simp only [xorDist] at hrest
    simp only [distcmp, xorDist, List.zipWith_cons_cons, List.cons_lt_cons_iff, gt_iff_lt]
    generalize x ^^^ t = da, y ^^^ t = db
    rcases Nat.lt_trichotomy db.toNat da.toNat with hgt | heq | hlt
    · simp only [UInt8.lt_iff_toNat_lt.mpr hgt, if_true]
      exact iff_of_true Int.one_pos (Or.inl hgt)
    · obtain rfl : db = da := UInt8.toNat_inj.mp heq
      have hn : ¬ db < db := fun h => Nat.lt_irrefl _ (UInt8.lt_iff_toNat_lt.mp h)
      simp only [hn, lt_irrefl, if_false, false_or, true_and]
      exact hrest
    · have hn : ¬ db < da := fun h => Nat.lt_asymm hlt (UInt8.lt_iff_toNat_lt.mp h)
      simp only [hn, UInt8.lt_iff_toNat_lt.mpr hlt, if_false, if_true]
      refine iff_of_false (by decide) ?_
      rintro (h | ⟨h, -⟩) <;> omega

/-! ## `closest` -/

section
variable {I : Type}

namespace NodesByDistance

@[simp] theorem target_push (h : NodesByDistance I) (n : Node I) (k : ℕ) :
    (h.push n k).target = h.target := by
  unfold push
  dsimp only
  split <;> split <;> rfl

/-- What `push` leaves: the entries with `n` put at the searched index, cut back to the length
after the append. -/
theorem entries_push (h : NodesByDistance I) (n : Node I) (k : ℕ)
    (hix : search h.entries.length (h.farther n) ≤ h.entries.length) :
    (h.push n k).entries =
      (h.entries.take (search h.entries.length (h.farther n)) ++
          n :: h.entries.drop (search h.entries.length (h.farther n))).take
        (if h.entries.length < k then h.entries.length + 1 else h.entries.length) := by
  unfold push
  dsimp only
  generalize search h.entries.length (h.farther n) = ix at hix ⊢
  by_cases hroom : h.entries.length < k
  · -- the node was appended, so the search index is inside the list
    have hne : ix ≠ h.entries.length + 1 := by omega
    have hA : (h.entries.take ix ++ n :: h.entries.drop ix).length = h.entries.length + 1 := by
      simp only [List.length_append, List.length_take, List.length_cons, List.length_drop]
      omega
    simp only [hroom, if_true, List.length_append, List.length_singleton, hne, if_false,
      List.take_append_of_le_length hix, List.drop_append_of_le_length hix]
    rw [show h.entries.take ix ++ n :: (h.entries.drop ix ++ [n]) =
        (h.entries.take ix ++ n :: h.entries.drop ix) ++ [n] by simp,
      List.take_append_of_le_length hA.ge]
  · simp only [hroom, if_false]
    split
    · rename_i hend
      subst hend
      simp
    · rfl

/-- `push` keeps the `k` nearest nodes of all that were pushed. -/
theorem push_kLeast {h : NodesByDistance I} {L : List (Node I)} {n : Node I} {k : ℕ}
    (hL : KLeast (distKey h.target) k L h.entries)
    (hlen : ∀ e ∈ h.entries, e.sha.length = h.target.length)
    (hn : n.sha.length = h.target.length) :
    KLeast (distKey h.target) k (L ++ [n]) (h.push n k).entries := by
  set E := h.entries with hE
  have hsorted := List.pairwise_iff_getElem.mp hL.sorted
  have hfar : ∀ i (hi : i < E.length), h.farther n i = decide (distKey h.target n < distKey h.target E[i]) := by
    intro i hi
    simp only [farther, ← hE, List.getD_eq_getElem?_getD, List.getElem?_eq_getElem hi,
      Option.getD_some, distKey]
    exact decide_eq_decide.mpr (distcmp_pos_iff (hlen _ (List.getElem_mem hi)) hn)
  have hmono : ∀ a b, a ≤ b → b < E.length → h.farther n a = true → h.farther n b = true := by
    intro a b hab hb ha
    rw [hfar a (by omega)] at ha
    rw [hfar b hb, decide_eq_true_eq]
    rcases Nat.lt_or_eq_of_le hab with hab | rfl
    · exact lt_of_lt_of_le (of_decide_eq_true ha) (hsorted a b (by omega) hb hab)
    · exact of_decide_eq_true ha
  obtain ⟨hix, hbelow, hat⟩ := search_spec hmono
  set ix := search E.length (h.farther n)
  have hlo : ∀ x ∈ E.take ix, distKey h.target x ≤ distKey h.target n := by
    intro x hx
    obtain ⟨m, hm, rfl⟩ := List.mem_take_iff_getElem.mp hx
    have hf := hbelow m (by omega)
    rw [hfar m (by omega), decide_eq_false_iff_not] at hf
    exact le_of_not_gt hf
  have hhi : ∀ y ∈ E.drop ix, distKey h.target n < distKey h.target y := by
    intro y hy
    obtain ⟨m, hm, rfl⟩ := List.mem_drop_iff_getElem.mp hy
    have hf := hat (by omega)
    rw [hfar ix (by omega), decide_eq_true_eq] at hf
    rcases Nat.eq_zero_or_pos m with rfl | hm0
    · exact hf
    · exact lt_of_lt_of_le hf (hsorted ix (ix + m) (by omega) (by omega) (by omega))
  obtain ⟨hS, hperm⟩ := pairwise_insert_of_bounds hL.sorted hlo hhi
  have hcut : (if E.length < k then E.length + 1 else E.length) = min k (E.length + 1) := by
    have := hL.length_eq
    split <;> omega
  rw [entries_push h n k hix, hcut]
  exact hL.insert hS hperm

end NodesByDistance

/-- A run of pushes from any list of the `k` nearest keeps the `k` nearest of all nodes pushed. -/
theorem foldl_push_kLeast (k : ℕ) :
    ∀ (nodes : List (Node I)) (h : NodesByDistance I) (L : List (Node I)),
      KLeast (distKey h.target) k L h.entries →
      (∀ e ∈ L ++ nodes, e.sha.length = h.target.length) →
      KLeast (distKey h.target) k (L ++ nodes) (nodes.foldl (fun h n => h.push n k) h).entries
  | [], h, L, hL, _ => by simpa using hL
  | n :: nodes, h, L, hL, hlen => by
    have hstep := h.push_kLeast hL (fun e he => hlen e (List.mem_append_left _ (hL.subset e he)))
      (hlen n (by simp))
    have := foldl_push_kLeast k nodes (h.push n k) (L ++ [n])
      (by rw [NodesByDistance.target_push]; exact hstep)
      (by rw [NodesByDistance.target_push]; simpa using hlen)
    simpa using this

theorem closest_eq_foldl (tab : Table I) (target : List UInt8) (k : ℕ) :
    tab.closest target k = tab.entries.foldl (fun h n => h.push n k) ⟨[], target⟩ := by
  rw [Table.closest, Table.entries, List.foldl_flatMap]

theorem closest_entries_nearest (target : List UInt8) (k : ℕ) :
    (∀ nodes : List (Node I), (∀ n ∈ nodes, n.sha.length = target.length) →
      KLeast (distKey target) k nodes
        (nodes.foldl (fun h n => h.push n k) (⟨[], target⟩ : NodesByDistance I)).entries) ∧
    ∀ tab : Table I, (∀ n ∈ tab.entries, n.sha.length = target.length) →
      KLeast (distKey target) k tab.entries (tab.closest target k).entries := by
  have hpush : ∀ nodes : List (Node I), (∀ n ∈ nodes, n.sha.length = target.length) →
      KLeast (distKey target) k nodes
        (nodes.foldl (fun h n => h.push n k) (⟨[], target⟩ : NodesByDistance I)).entries :=
    fun nodes hlen => by
      simpa using foldl_push_kLeast k nodes ⟨[], target⟩ [] (kLeast_nil _ k) (by simpa using hlen)
  exact ⟨hpush, fun tab hlen => by rw [closest_eq_foldl]; exact hpush _ hlen⟩

end

/-- An initialised table with two nodes in its bucket `0`. -/
def sampleReadTable : Table ℕ := { ((Table.empty sampleSelf).add sampleA).add sampleB with initDone := true }

theorem closest_sampleReadTable :
    KLeast (distKey sampleSelf.sha) 1 [sampleA, sampleB]
        ([sampleA, sampleB].foldl (fun h n => h.push n 1)
          (⟨[], sampleSelf.sha⟩ : NodesByDistance ℕ)).entries ∧
      KLeast (distKey sampleSelf.sha) 1 sampleReadTable.entries
        (sampleReadTable.closest sampleSelf.sha 1).entries :=
  ⟨(closest_entries_nearest sampleSelf.sha 1).1 [sampleA, sampleB] (by decide),
    (closest_entries_nearest sampleSelf.sha 1).2 sampleReadTable (by decide)⟩

/-! ## `ReadRandomNodes` -/

section
variable {α : Type}

theorem shuffle_perm (draws : ℕ → ℕ) : ∀ (i : ℕ) (l : List α), (shuffle draws i l).Perm l
  | 0, _ => List.Perm.refl _
  | i + 1, l => (shuffle_perm draws i _).trans (List.swap_perm l _ _)

/-- Taking the head of bucket `j`, and dropping the bucket if that was its last entry, leaves the
other entries. -/
theorem perm_flatten_next {B : List (List α)} {j : ℕ} {e : α} {rest : List α}
    (hj : B.getD j [] = e :: rest) :
    (e :: (if rest.length = 0 then (B.set j rest).eraseIdx j else B.set j rest).flatten).Perm
      B.flatten := by
  have hjlt : j < B.length := by
    by_contra hge
    rw [List.getD_eq_getElem?_getD, List.getElem?_eq_none (by omega), Option.getD_none] at hj
    exact List.cons_ne_nil _ _ hj.symm
  have hBj : B[j]?.getD rest = e :: rest := by
    rw [List.getElem?_eq_getElem hjlt, Option.getD_some]
    rw [List.getD_eq_getElem?_getD, List.getElem?_eq_getElem hjlt, Option.getD_some] at hj
    exact hj
  have hset : (e :: (B.set j rest).flatten).Perm B.flatten := by
    have := (List.getD_set_perm_cons B j rest).flatten
    rw [hBj, List.flatten_cons, List.flatten_cons, List.cons_append] at this
    exact (List.perm_append_left_iff rest).mp (List.perm_middle.trans this)
  split
  · rename_i hnil
    rw [List.length_eq_zero_iff.mp hnil] at hset ⊢
    have herase := (List.set_perm_cons_eraseIdx (by simpa using hjlt) ([] : List α)).flatten
    rw [List.flatten_cons, List.nil_append] at herase
    rw [List.eraseIdx_set_eq]
    exact (herase.symm.cons e).trans hset
  · exact hset

theorem ne_nil_of_mem_next {B : List (List α)} {j : ℕ} {rest : List α} (hne : ∀ b ∈ B, b ≠ [])
    (b : List α) (hb : b ∈ (if rest.length = 0 then (B.set j rest).eraseIdx j else B.set j rest)) :
    b ≠ [] := by
  split at hb
  · rename_i hnil
    rw [List.length_eq_zero_iff.mp hnil, List.eraseIdx_set_eq] at hb
    exact hne b (List.mem_of_mem_eraseIdx hb)
  · rename_i hrest
    rcases List.mem_or_eq_of_mem_set hb with hb | rfl
    · exact hne b hb
    · exact fun h => hrest (by rw [h]; rfl)

end

section
variable {I : Type}

theorem length_flatten_pos {α : Type} {B : List (List α)} {j : ℕ} (hne : ∀ b ∈ B, b ≠ []) (hj : j < B.length) :
    0 < B.flatten.length := by
  have hmem : B[j] ∈ B := List.getElem_mem hj
  have hsub := List.sublist_flatten_of_mem hmem
  exact lt_of_lt_of_le (List.length_pos_iff.mpr (hne _ hmem)) hsub.length_le

/-- The loop stops after writing every entry, or when the buffer is full: in the first case at the
index of the last entry written, in the second at `len(buf)`. -/
theorem readLoop_fst : ∀ (fuel : ℕ) (B : List (List (Node I))) (i j : ℕ) (buf : List (Option (Node I))),
    (∀ b ∈ B, b ≠ []) → j < B.length →
    (readLoop fuel B i j buf).1 =
      if B.flatten.length ≤ fuel then i + B.flatten.length - 1 else i + fuel
  | 0, B, i, j, buf, hne, hj => by
    have := length_flatten_pos hne hj
    simp only [readLoop]
    split <;> omega
  | fuel + 1, B, i, j, buf, hne, hj => by
    obtain ⟨e, rest, hb⟩ : ∃ e rest, B.getD j [] = e :: rest := List.exists_cons_of_ne_nil (by
      rw [List.getD_eq_getElem?_getD, List.getElem?_eq_getElem hj, Option.getD_some]
      exact hne _ (List.getElem_mem hj))
    have htotal := (perm_flatten_next hb).length_eq
    have hne' : ∀ b ∈ (if rest.length = 0 then (B.set j rest).eraseIdx j else B.set j rest),
        b ≠ [] := ne_nil_of_mem_next hne
    simp only [List.length_cons] at htotal
    simp only [readLoop, hb]
    generalize (if rest.length = 0 then (B.set j rest).eraseIdx j else B.set j rest) = B'
      at htotal hne'
    split
    · -- the last entry was written: the loop breaks at `i`
      rename_i hempty
      rw [List.length_eq_zero_iff.mp hempty, List.flatten_nil, List.length_nil] at htotal
      split <;> omega
    · rename_i hmore
      have hpos := length_flatten_pos hne' (Nat.mod_lt (j + 1) (Nat.pos_of_ne_zero hmore))
      rw [readLoop_fst fuel _ (i + 1) _ _ hne' (Nat.mod_lt (j + 1) (Nat.pos_of_ne_zero hmore))]
      split <;> split <;> omega

theorem flatten_nonempty_buckets (buckets : List (Bucket I)) :
    ((buckets.filter fun b => 0 < b.entries.length).map Bucket.entries).flatten =
      buckets.flatMap Bucket.entries := by
  induction buckets with
  | nil => rfl
  | cons b buckets ih =>
    by_cases hb : 0 < b.entries.length
    · simp [hb, ih]
    · have : b.entries = [] := List.length_eq_zero_iff.mp (by omega)
      simp [this, ih]

/-- What `ReadRandomNodes` returns: the number of entries when the buffer holds them all, and one
more than the buffer's length when it does not. -/
theorem readRandomNodes_count (tab : Table I) (draws : ℕ → ℕ) (buf : List (Option (Node I)))
    (hinit : tab.initDone = true) :
    (tab.readRandomNodes draws buf).1 =
      if tab.entries.length ≤ buf.length then tab.entries.length else buf.length + 1 := by
  have hflat := flatten_nonempty_buckets tab.buckets
  set B := (tab.buckets.filter fun b => 0 < b.entries.length).map Bucket.entries with hB
  have hne : ∀ b ∈ B, b ≠ [] := by
    intro b hb
    obtain ⟨c, hc, rfl⟩ := List.mem_map.mp hb
    exact List.ne_nil_of_length_pos (by simpa using (List.mem_filter.mp hc).2)
  simp only [Table.readRandomNodes, hinit, Bool.not_true, Bool.false_eq_true, if_false, ← hB]
  split
  · rename_i hzero
    rw [List.length_eq_zero_iff.mp hzero] at hflat
    simp [Table.entries, ← hflat]
  · rename_i hsome
    have hperm := shuffle_perm draws (B.length - 1) B
    have hlen : (shuffle draws (B.length - 1) B).flatten.length = tab.entries.length := by
      rw [hperm.flatten.length_eq, hflat]; rfl
    rw [readLoop_fst _ _ 0 0 buf (fun b hb => hne b (hperm.subset hb))
      (by rw [hperm.length_eq]; omega), hlen]
    have := length_flatten_pos hne (j := 0) (by omega)
    rw [hflat] at this
    change 0 < tab.entries.length at this
    split <;> omega

/-- With a buffer of one slot and two entries in the table, `ReadRandomNodes` reports two nodes
read. -/
theorem readRandomNodes_overcounts :
    sampleReadTable.entries.length = 2 ∧
      (sampleReadTable.readRandomNodes (fun _ => 0) [none]).1 = 2 := by
  have hlen : sampleReadTable.entries.length = 2 := by decide
  refine ⟨hlen, ?_⟩
  rw [readRandomNodes_count sampleReadTable _ _ (by decide), hlen]
  rfl

end

end Srcd.P2p
