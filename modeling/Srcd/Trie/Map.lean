import Srcd.Library.FiniteMap
import Srcd.Library.Simulation
import Srcd.Trie.Insert
import Srcd.Trie.Delete

/-! # The trie is a finite map

A trie changed by `TryUpdate` and `TryDelete` calls implements the map from byte keys to
values that the same calls write (`trie_simulates_map`): every call on a trie of the form
`Trie.Wf` succeeds, keeps the form and makes the map's write, whatever the database and the
fuel. After any sequence of calls from the empty trie, `TryGet` returns what the last call on
the key wrote (`tryGet_after_ops`).
-/

namespace Srcd.Trie
open Srcd.Library
set_option autoImplicit false
set_option linter.dupNamespace false

/-- A call that changes a trie. -/
inductive Op where
  /-- `TryUpdate(key, value)` -/
  | update (key value : List UInt8)
  /-- `TryDelete(key)` -/
  | delete (key : List UInt8)
  deriving DecidableEq, Repr

/-- The write a call makes to the map: `TryUpdate` with an empty value deletes. -/
def Op.toMapOp : Op → MapOp (List UInt8) (List UInt8)
  | .update k v => if v.length ≠ 0 then .put k v else .erase k
  | .delete k => .erase k

section
variable (nodeOf : List UInt8 → Option Node)

def Trie.apply (fuel : ℕ) (t : Trie) : Op → Except TrieErr Trie
  | .update k v => t.tryUpdate nodeOf fuel k v
  | .delete k => t.tryDelete nodeOf fuel k

/-- A sequence of calls on one trie, up to the first error. -/
def runOps (fuel : ℕ) (t : Trie) (ops : List Op) : Except TrieErr Trie :=
  ops.foldlM (Trie.apply nodeOf fuel) t

end

/-- The value a trie holds under each byte key. -/
def Trie.contents (t : Trie) (k : List UInt8) : Option (List UInt8) :=
  t.root.get (keybytesToHex k)

/-- The form of the tries the calls build: canonical, with values only under the hex keys of
byte strings. -/
structure Trie.Wf (t : Trie) : Prop where
  canon : t.root.Canon
  outside : ∀ hk, Terminated hk → (∀ b, keybytesToHex b ≠ hk) → t.root.get hk = none

theorem wf_empty : (Trie.mk .nil).Wf := ⟨trivial, fun _ _ _ => rfl⟩

/-- A canonical root that rebinds one byte key keeps the form and rebinds the contents. -/
theorem Trie.Wf.rebind {t t' : Trie} {k : List UInt8} {x : Option (List UInt8)} (hwf : t.Wf)
    (hc : t'.root.Canon) (h : Rebind t.root (keybytesToHex k) x t'.root) :
    t'.Wf ∧ t'.contents = Function.update t.contents k x := by
  refine ⟨⟨hc, fun hk hterm hout => ?_⟩, funext fun k' => ?_⟩
  · rw [h hk hterm, if_neg (fun e => hout k e.symm), hwf.outside hk hterm hout]
  · rw [Trie.contents, h _ (keybytesToHex_terminated k')]
    by_cases hk : k' = k
    · subst hk
      simp
    · rw [if_neg (fun e => hk (keybytesToHex_injective e)), Function.update_of_ne hk]
      rfl

section
variable (nodeOf : List UInt8 → Option Node)

theorem insert_canon (fuel : ℕ) {n : Node} (hc : n.Canon) (pfx key : List Nibble)
    (value : List UInt8) (hkey : Terminated key) :
    ∃ d nn, insert nodeOf fuel n pfx key value = .ok (d, nn) ∧ InsertPost n key value d nn := by
  cases fuel <;> exact insertWith_canon nodeOf _ n hc pfx key value hkey

theorem delete_canon (fuel : ℕ) {n : Node} (hc : n.Canon) (pfx key : List Nibble)
    (hkey : Terminated key) :
    ∃ d nn, delete nodeOf fuel n pfx key = .ok (d, nn) ∧ DeletePost n key d nn := by
  cases fuel <;> exact deleteWith_canon nodeOf _ n hc pfx key hkey

/-- Each call on a trie of the form succeeds, keeps the form and makes its write to the
contents. -/
theorem trie_simulates_map (fuel : ℕ) :
    Simulates (Trie.apply nodeOf fuel) (fun m op => MapOp.apply m op.toMapOp) Trie.contents
      Trie.Wf := by
  intro t op hwf
  cases op with
  | update k v =>
    by_cases hv : v.length ≠ 0
    · obtain ⟨d, nn, hins, post⟩ :=
        insert_canon nodeOf fuel hwf.canon [] (keybytesToHex k) v (keybytesToHex_terminated k)
      obtain ⟨hwf', hcontents⟩ : (Trie.mk nn).Wf ∧ _ := Trie.Wf.rebind hwf post.canon post.get
      refine ⟨⟨nn⟩, ?_, hwf', ?_⟩
      · simp only [Trie.apply, Trie.tryUpdate, if_pos hv, hins, except_ok_bind]
        rfl
      · rw [hcontents]
        simp [Op.toMapOp, hv, MapOp.apply, MapOp.key, MapOp.written]
    · obtain ⟨d, nn, hdel, post⟩ :=
        delete_canon nodeOf fuel hwf.canon [] (keybytesToHex k) (keybytesToHex_terminated k)
      obtain ⟨hwf', hcontents⟩ : (Trie.mk nn).Wf ∧ _ := Trie.Wf.rebind hwf post.canon post.get
      refine ⟨⟨nn⟩, ?_, hwf', ?_⟩
      · simp only [Trie.apply, Trie.tryUpdate, if_neg hv, hdel, except_ok_bind]
        rfl
      · rw [hcontents]
        simp [Op.toMapOp, hv, MapOp.apply, MapOp.key, MapOp.written]
  | delete k =>
    obtain ⟨d, nn, hdel, post⟩ :=
      delete_canon nodeOf fuel hwf.canon [] (keybytesToHex k) (keybytesToHex_terminated k)
    obtain ⟨hwf', hcontents⟩ : (Trie.mk nn).Wf ∧ _ := Trie.Wf.rebind hwf post.canon post.get
    refine ⟨⟨nn⟩, ?_, hwf', ?_⟩
    · simp only [Trie.apply, Trie.tryDelete, hdel, except_ok_bind]
      rfl
    · rw [hcontents]
      rfl

/-- `TryGet` on a canonical trie reads the contents and leaves the trie as it was. -/
theorem tryGetKey_canon (fuel : ℕ) {t : Trie} (hc : t.root.Canon) (k : List UInt8) :
    t.tryGetKey nodeOf fuel k = (.ok (t.contents k), t) := by
  have h : tryGet nodeOf fuel t.root (keybytesToHex k) 0 =
      .ok (t.root.get (keybytesToHex k), t.root, false) := by
    cases fuel <;>
      exact tryGetWith_canon nodeOf _ t.root hc (keybytesToHex k) 0 (keybytesToHex_terminated k)
  simp only [Trie.tryGetKey, h]
  rfl

/-- Any sequence of calls from the empty trie builds a trie of the form, whose contents are
what the calls wrote. -/
theorem runOps_wf (fuel : ℕ) (ops : List Op) :
    ∃ t, runOps nodeOf fuel ⟨.nil⟩ ops = .ok t ∧ t.Wf ∧
      t.contents = MapOp.lastWrite (fun _ => none) (ops.map Op.toMapOp) := by
  obtain ⟨t, hrun, hwf, habs⟩ := (trie_simulates_map nodeOf fuel).run ops ⟨.nil⟩ wf_empty
  refine ⟨t, hrun, hwf, funext fun k => ?_⟩
  rw [habs, ← MapOp.foldl_apply, List.foldl_map]
  rfl

theorem tryGet_after_ops (fuel fuel' : ℕ) (ops : List Op) :
    ∃ t, runOps nodeOf fuel ⟨.nil⟩ ops = .ok t ∧
      ∀ k, t.tryGetKey nodeOf fuel' k =
        (.ok (MapOp.lastWrite (fun _ => none) (ops.map Op.toMapOp) k), t) := by
  obtain ⟨t, hrun, hwf, hcontents⟩ := runOps_wf nodeOf fuel ops
  refine ⟨t, hrun, fun k => ?_⟩
  rw [tryGetKey_canon nodeOf fuel' hwf.canon, hcontents]

end

end Srcd.Trie
