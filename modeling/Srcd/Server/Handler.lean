import Srcd.Chain.HeaderChainSpec
import Mathlib

/-! # Header queries (`server/handler.go`, the `GetBlockHeadersMsg` case)

A query names its origin by hash or by number and asks for `Amount` headers, `Skip` apart,
forward or towards the genesis. The handler gathers them one at a time: it reads the origin,
appends it, and advances the query by `Skip + 1` in one of four ways. The sums are `uint64`
ones: `Skip + 1` wraps to zero for `Skip = 2 ^ 64 - 1`, and only the hash-forward branch checks
for it. `getBlockHeaders_skip_wraps` shows what a number query does then: it sends its origin
again and again.
-/

namespace Srcd.Server
set_option autoImplicit false

open Srcd.Chain

/-- `downloader.MaxHeaderFetch` -/
def maxHeaderFetch : ℕ := 192

def softResponseLimit : ℕ := 2 * 1024 * 1024

def estHeaderRlpSize : ℕ := 500

/-- `int(x)` of a `uint64` on a 64-bit platform. -/
def toInt (x : ℕ) : ℤ := if x < 2 ^ 63 then x else (x : ℤ) - 2 ^ 64

/-- `hashOrNumber` -/
structure HashOrNumber (H : Type) where
  hash : H
  number : ℕ
  deriving DecidableEq, Repr

/-- `getBlockHeadersData` -/
structure GetBlockHeadersData (H : Type) where
  origin : HashOrNumber H
  amount : ℕ
  skip : ℕ
  reverse : Bool
  deriving DecidableEq, Repr

section
variable {H : Type} [DecidableEq H] [Inhabited H]
variable (hc : HeaderChain H) (readHeaderNumber : H → Option ℕ)

/-- The header the query names next, with the origin as the loop leaves it (a hash query learns
its number on the first round). -/
def fetchOrigin (hashMode first : Bool) (o : HashOrNumber H) :
    Option (Chain.Header H × HashOrNumber H) :=
  if hashMode then
    if first then
      (hc.getHeaderByHash readHeaderNumber o.hash).map fun origin =>
        (origin, { o with number := origin.number })
    else (hc.getHeader o.hash o.number).map fun origin => (origin, o)
  else (hc.getHeaderByNumber o.number).map fun origin => (origin, o)

/-- The switch that advances the query past `origin`: the new origin, the counter
`maxNonCanonical`, and whether the next header is unknown. -/
def advance (hashMode reverse : Bool) (skip : ℕ) (o : HashOrNumber H) (maxNonCanonical : ℕ)
    (origin : Chain.Header H) : HashOrNumber H × ℕ × Bool :=
  let ancestor := (skip + 1) % 2 ^ 64
  match hashMode, reverse with
  | true, true =>
    if ancestor = 0 then (o, maxNonCanonical, true)
    else
      let r := hc.getAncestor o.hash o.number ancestor maxNonCanonical
      (⟨r.1, r.2.1⟩, r.2.2, decide (r.1 = default))
  | true, false =>
    let current := origin.number
    let next := (current + skip + 1) % 2 ^ 64
    if next ≤ current then (o, maxNonCanonical, true)
    else match hc.getHeaderByNumber next with
      | some header =>
        let r := hc.getAncestor header.hash next ancestor maxNonCanonical
        if r.1 = o.hash then (⟨header.hash, next⟩, r.2.2, false) else (o, r.2.2, true)
      | none => (o, maxNonCanonical, true)
  | false, true =>
    if o.number ≥ ancestor then ({ o with number := o.number - ancestor }, maxNonCanonical, false)
    else (o, maxNonCanonical, true)
  | false, false => ({ o with number := (o.number + ancestor) % 2 ^ 64 }, maxNonCanonical, false)

/-- The gathering loop, for at most `fuel` more rounds; `maxHeaderFetch` rounds are enough
(`gather_fuel`). -/
def gather (hashMode : Bool) (query : GetBlockHeadersData H) :
    ℕ → HashOrNumber H → Bool → ℕ → ℕ → List (Chain.Header H) → Bool → List (Chain.Header H)
  | 0, _, _, _, _, headers, _ => headers
  | fuel + 1, o, first, maxNonCanonical, bytes, headers, unknown =>
    if !unknown ∧ (headers.length : ℤ) < toInt query.amount ∧ bytes < softResponseLimit ∧
        headers.length < maxHeaderFetch then
      match fetchOrigin hc readHeaderNumber hashMode first o with
      | none => headers
      | some (origin, o) =>
        let a := advance hc hashMode query.reverse query.skip o maxNonCanonical origin
        gather hashMode query fuel a.1 false a.2.1 (bytes + estHeaderRlpSize) (headers ++ [origin])
          a.2.2
    else headers

/-- The headers sent back for a `GetBlockHeadersMsg` carrying `query`. -/
def getBlockHeaders (query : GetBlockHeadersData H) : List (Chain.Header H) :=
  gather hc readHeaderNumber (decide (query.origin.hash ≠ default)) query maxHeaderFetch
    query.origin true 100 0 [] false

/-! ## The loop -/

theorem toInt_of_lt {x : ℕ} (hx : x < 2 ^ 63) : toInt x = x := if_pos hx

/-! ## A skip that wraps -/

/-- With `Skip = 2 ^ 64 - 1`, `Skip + 1` wraps to zero and a number query stays where it is. -/
theorem advance_skip_wraps (reverse : Bool) {o : HashOrNumber H} (hn : o.number < 2 ^ 64)
    (m : ℕ) (origin : Chain.Header H) :
    advance hc false reverse (2 ^ 64 - 1) o m origin = (o, m, false) := by
  have hstep : (2 ^ 64 - 1 + 1) % 2 ^ 64 = 0 := by
    rw [Nat.sub_add_cancel Nat.one_le_two_pow, Nat.mod_self]
  cases reverse with
  | false =>
    simp only [advance, hstep, Nat.add_zero, Nat.mod_eq_of_lt hn]
  | true =>
    simp only [advance, hstep, ge_iff_le, Nat.zero_le, if_true, Nat.sub_zero]

/-- A number query with `Skip = 2 ^ 64 - 1` gets its origin header over and over, until the
reply is full. -/
theorem gather_skip_wraps {query : GetBlockHeadersData H} (hskip : query.skip = 2 ^ 64 - 1)
    (hamount : query.amount < 2 ^ 63) {o : HashOrNumber H} (hn : o.number < 2 ^ 64) {h : Chain.Header H}
    (hh : hc.getHeaderByNumber o.number = some h) :
    ∀ (fuel : ℕ) (first : Bool) (m : ℕ) (headers : List (Chain.Header H)),
      headers.length ≤ min query.amount maxHeaderFetch →
      min query.amount maxHeaderFetch ≤ fuel + headers.length →
      gather hc readHeaderNumber false query fuel o first m (estHeaderRlpSize * headers.length)
          headers false =
        headers ++ List.replicate (min query.amount maxHeaderFetch - headers.length) h := by
  intro fuel
  induction fuel with
  | zero =>
    intro first m headers _ hfuel
    rw [gather, show min query.amount maxHeaderFetch - headers.length = 0 by omega]
    simp
  | succ fuel ih =>
    intro first m headers hlen hfuel
    rw [gather]
    by_cases hfull : headers.length = min query.amount maxHeaderFetch
    · -- the reply is full: the loop stops
      rw [if_neg (fun hguard => by
        obtain ⟨-, hamt, -, hmax⟩ := hguard
        rw [toInt_of_lt hamount] at hamt
        simp only [maxHeaderFetch] at hfull hmax
        omega), hfull]
      simp
    · have hlt : headers.length < min query.amount maxHeaderFetch := by omega
      have hguard : (!false) = true ∧ (headers.length : ℤ) < toInt query.amount ∧
          estHeaderRlpSize * headers.length < softResponseLimit ∧
          headers.length < maxHeaderFetch := by
        rw [toInt_of_lt hamount]
        simp only [estHeaderRlpSize, softResponseLimit, maxHeaderFetch] at hlt ⊢
        refine ⟨rfl, ?_, ?_, ?_⟩ <;> omega
      have hfetch : fetchOrigin hc readHeaderNumber false first o = some (h, o) := by
        simp [fetchOrigin, hh]
      rw [if_pos hguard, hfetch]
      simp only [hskip, advance_skip_wraps hc _ hn]
      have hrest := ih false m (headers ++ [h])
        (by simp only [List.length_append, List.length_singleton]; omega)
        (by simp only [List.length_append, List.length_singleton]; omega)
      rw [List.length_append, List.length_singleton, Nat.mul_succ] at hrest
      rw [hrest, List.append_assoc, List.singleton_append, ← List.replicate_succ]
      congr 2
      omega

/-- A query by number with `Skip = 2 ^ 64 - 1` is answered with its origin header repeated up to
`min Amount MaxHeaderFetch` times. -/
theorem getBlockHeaders_skip_wraps {query : GetBlockHeadersData H} (hmode : query.origin.hash = default)
    (hskip : query.skip = 2 ^ 64 - 1) (hamount : query.amount < 2 ^ 63)
    (hn : query.origin.number < 2 ^ 64) {h : Chain.Header H}
    (hh : hc.getHeaderByNumber query.origin.number = some h) :
    getBlockHeaders hc readHeaderNumber query =
      List.replicate (min query.amount maxHeaderFetch) h := by
  have hrun := gather_skip_wraps hc readHeaderNumber hskip hamount hn hh maxHeaderFetch true 100 []
    (Nat.zero_le _) (Nat.min_le_right _ _)
  simpa [getBlockHeaders, hmode] using hrun

end

def sampleGenesis : Chain.Header ℕ := ⟨1, 0, 0, 1⟩

def sampleChild : Chain.Header ℕ := ⟨2, 1, 1, 1⟩

/-- A database holding `sampleGenesis` and `sampleChild`, both canonical. -/
def sampleChainDb : ChainDb ℕ where
  headers n x :=
    if n = 0 ∧ x = 1 then some sampleGenesis else if n = 1 ∧ x = 2 then some sampleChild else none
  td _ _ := none
  canonical n := if n = 0 then some 1 else if n = 1 then some 2 else none
  headHeaderHash := 2

def sampleHeaderChain : HeaderChain ℕ := ⟨sampleChainDb, sampleChild⟩

theorem getBlockHeaders_repeats_origin :
    sampleChainDb.WellFormed sampleGenesis [sampleGenesis, sampleChild] ∧
      sampleChainDb.CanonicalLinked ∧
      getBlockHeaders sampleHeaderChain (fun _ => none) ⟨⟨0, 1⟩, 3, 2 ^ 64 - 1, false⟩ =
        [sampleChild, sampleChild, sampleChild] := by
  refine ⟨⟨?_, ?_, ?_, ?_, ?_, ?_⟩, ?_, ?_⟩
  · decide
  · intro n x h hh
    simp only [sampleChainDb] at hh
    split_ifs at hh with h0 h1
    · cases hh; simp [h0.1, h0.2, sampleGenesis]
    · cases hh; simp [h1.1, h1.2, sampleChild]
  · decide
  · decide
  · decide
  · decide
  · intro n h hh
    rcases n with _ | n
    · simp [sampleChainDb, ChainDb.readCanonicalHash] at hh ⊢
      rw [← hh]
      rfl
    · simp [sampleChainDb, ChainDb.readCanonicalHash] at hh
  · exact getBlockHeaders_skip_wraps _ _ rfl rfl (by decide) (by decide) rfl

end Srcd.Server
