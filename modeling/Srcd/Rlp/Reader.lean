import Srcd.Rlp.StreamSpec
import Srcd.Rlp.RawSpec

/-! # Reading encoded items from a stream

The stream methods run on an input that starts with the encoding of an item, at toplevel or
inside open lists. `Room s n` says that the input limit and the innermost list have room for
`n` more bytes; `Ready s b` that `s` is about to read `b`; `Skipped s t n` that `t` is `s` with
`n` bytes read, up to the scratch fields. Each method that reads an item leaves the stream ready
for what follows it (`Ready.skip`), so that a decoder is run item by item.
-/

namespace Srcd.Rlp
open Srcd.Library
set_option autoImplicit false

/-- The open lists after `n` more bytes of the innermost one have been read. -/
def bumpTop : List Listpos → ℕ → List Listpos
  | tos :: rest, n => { tos with pos := tos.pos + n } :: rest
  | [], _ => []

/-- The stream after `willRead n` and a read of `n` bytes from the reader. -/
def Stream.skip (s : Stream) (n : ℕ) : Stream :=
  { s with kind := none, r := s.r.drop n, remaining := s.remaining - n,
           stack := bumpTop s.stack n }

/-- Room for `n` more bytes, in the input limit and in the innermost list. -/
structure Room (s : Stream) (n : ℕ) : Prop where
  limited : s.limited = true
  remaining : n ≤ s.remaining
  top : ∀ tos ∈ s.stack.head?, n ≤ tos.size - tos.pos

/-- `t` is `s` after `n` bytes of input were read and nothing is cached; the scratch fields
(`byteval`, `size`, `kinderr`) are free. -/
structure Skipped (s t : Stream) (n : ℕ) : Prop where
  r : t.r = s.r.drop n
  remaining : t.remaining = s.remaining - n
  limited : t.limited = s.limited
  kind : t.kind = none
  stack : t.stack = bumpTop s.stack n

/-- `s` is about to read `b`: nothing is cached, `b` comes next and there is room for it. -/
structure Ready (s : Stream) (b : List UInt8) : Prop where
  kind : s.kind = none
  ahead : b <+: s.r
  room : Room s b.length

/-! ## Bookkeeping -/

/-- A new stream on `b` is about to read all of it. -/
theorem ready_newStream (b : List UInt8) : Ready (newStream b) b :=
  ⟨rfl, List.prefix_refl b, ⟨rfl, Nat.le_refl _, by simp [newStream]⟩⟩

theorem bumpTop_bumpTop (stack : List Listpos) (a b : ℕ) :
    bumpTop (bumpTop stack a) b = bumpTop stack (a + b) := by
  cases stack with
  | nil => rfl
  | cons tos rest => simp [bumpTop, Nat.add_assoc]

theorem Room.mono {s : Stream} {n m : ℕ} (h : Room s n) (hm : m ≤ n) : Room s m :=
  ⟨h.limited, hm.trans h.remaining, fun tos htos => hm.trans (h.top tos htos)⟩

/-- What is left of the room after `n` of its bytes are read. -/
theorem Room.skip {s : Stream} {n m : ℕ} (h : Room s (n + m)) : Room (s.skip n) m := by
  refine ⟨h.limited, by simp only [Stream.skip]; have := h.remaining; omega, ?_⟩
  intro tos htos
  cases hst : s.stack with
  | nil => simp [Stream.skip, hst, bumpTop] at htos
  | cons top rest =>
    simp only [Stream.skip, hst, bumpTop, List.head?_cons, Option.mem_def,
      Option.some.injEq] at htos
    subst htos
    have := h.top top (by simp [hst])
    simp only
    omega

theorem Room.congr {s t : Stream} {n : ℕ} (hl : t.limited = s.limited)
    (hr : t.remaining = s.remaining) (hst : t.stack = s.stack) (h : Room s n) : Room t n :=
  ⟨hl.trans h.limited, hr ▸ h.remaining, hst ▸ h.top⟩

/-- A size that fits in the room passes the check `Kind` makes on it. -/
theorem sizeErr_of_room {s : Stream} {n : ℕ} (h : Room s n) : sizeErr s n = none := by
  unfold sizeErr
  split
  · rw [if_neg]
    exact fun hbig => absurd hbig.2 (Nat.not_lt.mpr h.remaining)
  · rename_i tos rest hst
    rw [if_neg]
    exact Nat.not_lt.mpr (h.top tos (by simp [hst]))

/-- A stream that has read `a` bytes of `s`'s input, whatever it cached, then reads `b` more. -/
theorem Skipped.skip_of {s u : Stream} {a : ℕ} (hr : u.r = s.r.drop a)
    (hrem : u.remaining = s.remaining - a) (hl : u.limited = s.limited)
    (hst : u.stack = bumpTop s.stack a) (b : ℕ) : Skipped s (u.skip b) (a + b) := by
  refine ⟨?_, ?_, hl, rfl, ?_⟩
  · simp only [Stream.skip, hr, List.drop_drop]
  · simp only [Stream.skip, hrem, Nat.sub_sub]
  · simp only [Stream.skip, hst, bumpTop_bumpTop]

theorem Skipped.trans {s t u : Stream} {a b : ℕ} (h₁ : Skipped s t a) (h₂ : Skipped t u b) :
    Skipped s u (a + b) := by
  refine ⟨?_, ?_, h₂.limited.trans h₁.limited, h₂.kind, ?_⟩
  · rw [h₂.r, h₁.r, List.drop_drop]
  · rw [h₂.remaining, h₁.remaining, Nat.sub_sub]
  · rw [h₂.stack, h₁.stack, bumpTop_bumpTop]

/-- After reading `a`, a stream that was about to read `a ++ b` is about to read `b`. -/
theorem Ready.skip {s t : Stream} {a b : List UInt8} (hs : Ready s (a ++ b))
    (ht : Skipped s t a.length) : Ready t b := by
  obtain ⟨rest, hrest⟩ := hs.ahead
  have hroom : Room (s.skip a.length) b.length := Room.skip (by simpa using hs.room)
  refine ⟨ht.kind, ⟨rest, ?_⟩, ⟨ht.limited.trans hs.room.limited, ?_, ?_⟩⟩
  · rw [ht.r, ← hrest, List.append_assoc, List.drop_left]
  · rw [ht.remaining]
    exact hroom.remaining
  · rw [ht.stack]
    exact hroom.top

theorem Ready.left {s : Stream} {a b : List UInt8} (hs : Ready s (a ++ b)) : Ready s a :=
  ⟨hs.kind, (List.prefix_append a b).trans hs.ahead, hs.room.mono (by simp)⟩

/-- The innermost list of `s` ends after `n` more bytes. -/
def EndsAfter (s : Stream) (n : ℕ) : Prop :=
  ∃ tos rest, s.stack = tos :: rest ∧ tos.pos + n = tos.size

theorem Skipped.endsAfter {s t : Stream} {a b : ℕ} (ht : Skipped s t a)
    (hs : EndsAfter s (a + b)) : EndsAfter t b := by
  obtain ⟨tos, rest, hst, hend⟩ := hs
  refine ⟨{ tos with pos := tos.pos + a }, rest, by rw [ht.stack, hst, bumpTop], ?_⟩
  simp only
  omega

/-! ## Reading bytes -/

section Bytes
variable {s : Stream}

theorem exec_willRead {n : ℕ} (h : Room s n) :
    exec (willRead n) s =
      (.ok (), { s with kind := none, stack := bumpTop s.stack n, remaining := s.remaining - n }) := by
  obtain ⟨r, remaining, limited, kind, size, byteval, kinderr, stack⟩ := s
  obtain ⟨hl, hrem, htop⟩ := h
  simp only at hl hrem htop
  subst hl
  simp only [willRead]
  rw [exec_bind_of_ok (exec_modify _ _), exec_bind_of_ok (exec_get _)]
  cases stack with
  | nil =>
    dsimp only
    rw [exec_bind_of_ok (exec_get _)]
    simp [Nat.not_lt.mpr hrem, bumpTop]
  | cons tos rest =>
    have hn : ¬ n > tos.size - tos.pos := Nat.not_lt.mpr (htop tos rfl)
    dsimp only
    rw [if_neg hn, exec_bind_of_ok (exec_set _ _), exec_bind_of_ok (exec_get _)]
    simp [Nat.not_lt.mpr hrem, bumpTop]

theorem exec_readByte {b : UInt8} {rest : List UInt8} (h : Room s 1) (hr : s.r = b :: rest) :
    exec readByte s = (.ok b, s.skip 1) := by
  simp only [readByte]
  rw [exec_bind_of_ok (exec_willRead h), exec_bind_of_ok (exec_get _)]
  simp only [hr]
  simp only [Stream.skip, hr]
  rfl

theorem exec_readFull {n : ℕ} (h : Room s n) (hn : n ≤ s.r.length) :
    exec (readFull n) s = (.ok (s.r.take n), s.skip n) := by
  simp only [readFull]
  rw [exec_bind_of_ok (exec_willRead h), exec_bind_of_ok (exec_get _)]
  simp only [hn, if_true]
  rfl

/-- A size or an integer in its minimal big-endian form reads back. -/
theorem exec_readUint_bigEndian_at {v : ℕ} {rest : List UInt8} (hv : 0 < v)
    (h : Room s (bigEndian v).length) (hr : s.r = bigEndian v ++ rest) :
    exec (readUint (bigEndian v).length) s = (.ok v, s.skip (bigEndian v).length) := by
  by_cases hsmall : v < 256
  · -- one byte
    have hbe := bigEndian_of_lt hv hsmall
    rw [hbe] at h hr ⊢
    simp only [List.length_singleton, readUint]
    rw [exec_bind_of_ok (exec_readByte h hr)]
    simp [Nat.mod_eq_of_lt hsmall]
  · -- two bytes or more, the first of them not zero
    have hlen : ¬ (bigEndian v).length ≤ 1 := by
      rw [length_bigEndian_le_iff]
      omega
    obtain ⟨k, hk⟩ : ∃ k, (bigEndian v).length = k + 2 := ⟨(bigEndian v).length - 2, by omega⟩
    have htake : s.r.take (k + 2) = bigEndian v := by simp [hr, ← hk]
    obtain ⟨b, bs, hbs⟩ := List.exists_cons_of_ne_nil (bigEndian_ne_nil hv)
    rw [hk] at h ⊢
    simp only [readUint]
    rw [exec_bind_of_ok (exec_readFull h (by simp [hr]; omega)), htake, hbs, List.headD_cons,
      if_neg (bigEndian_head_ne_zero hbs), ← hbs, ofBigEndian_bigEndian]
    rfl

end Bytes

theorem Stream.skip_skip (s : Stream) (a b : ℕ) : (s.skip a).skip b = s.skip (a + b) := by
  simp [Stream.skip, List.drop_drop, Nat.sub_sub, bumpTop_bumpTop]

theorem Stream.skipped_skip (s : Stream) (n : ℕ) : Skipped s (s.skip n) n :=
  ⟨rfl, rfl, rfl, rfl, rfl⟩

/-! ## Kinds -/

section Kinds
variable {s : Stream}

/-- A byte below `0x80` is a value of its own. -/
theorem exec_readKind_single {b : UInt8} {rest : List UInt8} (h : Room s 1) (hr : s.r = b :: rest)
    (hb : b < 0x80) : exec readKind s = (.ok (.byte, 0, none), { s.skip 1 with byteval := b }) := by
  simp only [readKind]
  rw [exec_bind_of_ok (exec_attempt_of_ok (exec_readByte h hr))]
  dsimp only
  rw [exec_bind_of_ok (exec_modify _ _), if_pos hb, exec_bind_of_ok (exec_modify _ _)]
  rfl

/-- The header of a string or a list with a payload of `n` bytes, in its short or its long form:
`readKind` reads it whole and finds no fault in it. -/
theorem exec_readKind_header {short long : UInt8} {k : Kind}
    (hk : (short = 0x80 ∧ long = 0xB7 ∧ k = .string) ∨ (short = 0xC0 ∧ long = 0xF7 ∧ k = .list))
    {n : ℕ} (hn : n < 2 ^ 64) {rest : List UInt8} (h : Room s (header short long n).length)
    (hr : s.r = header short long n ++ rest) :
    exec readKind s = (.ok (k, n, none), { s.skip (header short long n).length with byteval := 0 }) := by
  by_cases h56 : n < 56
  · -- one tag byte, `short + n`
    rw [header, if_pos h56] at h hr ⊢
    simp only [readKind]
    rw [exec_bind_of_ok (exec_attempt_of_ok (exec_readByte h hr))]
    dsimp only
    rw [exec_bind_of_ok (exec_modify _ _)]
    rcases hk with ⟨rfl, rfl, rfl⟩ | ⟨rfl, rfl, rfl⟩
    · have htag : ∀ n, n < 56 → ¬ (0x80 + UInt8.ofNat n : UInt8) < 0x80 ∧
          (0x80 + UInt8.ofNat n : UInt8) < 0xB8 ∧ ((0x80 + UInt8.ofNat n) - 0x80).toNat = n := by
        decide
      obtain ⟨h₁, h₂, hsub⟩ := htag n h56
      rw [if_neg h₁, if_pos h₂, hsub]
      rfl
    · have htag : ∀ n, n < 56 → ¬ (0xC0 + UInt8.ofNat n : UInt8) < 0x80 ∧
          ¬ (0xC0 + UInt8.ofNat n : UInt8) < 0xB8 ∧ ¬ (0xC0 + UInt8.ofNat n : UInt8) < 0xC0 ∧
          (0xC0 + UInt8.ofNat n : UInt8) < 0xF8 ∧ ((0xC0 + UInt8.ofNat n) - 0xC0).toNat = n := by
        decide
      obtain ⟨h₁, h₂, h₃, h₄, hsub⟩ := htag n h56
      rw [if_neg h₁, if_neg h₂, if_neg h₃, if_pos h₄, hsub]
      rfl
  · -- the tag `long + L`, then the `L` bytes of the size
    have hL : 1 ≤ (bigEndian n).length ∧ (bigEndian n).length ≤ 8 :=
      ⟨length_bigEndian_pos (by omega), (length_bigEndian_le_iff n 8).mpr (by simpa using hn)⟩
    rw [header, if_neg h56] at h hr ⊢
    rw [List.cons_append] at hr
    simp only [readKind]
    rw [exec_bind_of_ok (exec_attempt_of_ok (exec_readByte (h.mono (by simp)) hr))]
    dsimp only
    rw [exec_bind_of_ok (exec_modify _ _)]
    have hroom : Room { s.skip 1 with byteval := 0 } (bigEndian n).length := by
      have hskip : Room (s.skip 1) (bigEndian n).length := Room.skip (by simpa [Nat.add_comm] using h)
      exact ⟨hskip.limited, hskip.remaining, hskip.top⟩
    have hr' : ({ s.skip 1 with byteval := 0 } : Stream).r = bigEndian n ++ rest := by
      simp [Stream.skip, hr]
    have hread := exec_readUint_bigEndian_at (by omega) hroom hr'
    have hstate : ({ s.skip 1 with byteval := 0 } : Stream).skip (bigEndian n).length =
        { s.skip ((long + UInt8.ofNat (bigEndian n).length) :: bigEndian n).length with
          byteval := 0 } := by
      rw [List.length_cons, Nat.add_comm, ← Stream.skip_skip]
      rfl
    rcases hk with ⟨rfl, rfl, rfl⟩ | ⟨rfl, rfl, rfl⟩
    · have htag : ∀ L, 1 ≤ L → L ≤ 8 → ¬ (0xB7 + UInt8.ofNat L : UInt8) < 0x80 ∧
          ¬ (0xB7 + UInt8.ofNat L : UInt8) < 0xB8 ∧ (0xB7 + UInt8.ofNat L : UInt8) < 0xC0 ∧
          ((0xB7 + UInt8.ofNat L) - 0xB7).toNat = L := by
        decide
      obtain ⟨h₁, h₂, h₃, hsub⟩ := htag _ hL.1 hL.2
      rw [if_neg h₁, if_neg h₂, if_pos h₃, hsub, exec_bind_of_ok (exec_attempt_of_ok hread)]
      dsimp only
      rw [if_neg h56, hstate]
      rfl
    · have htag : ∀ L, 1 ≤ L → L ≤ 8 → ¬ (0xF7 + UInt8.ofNat L : UInt8) < 0x80 ∧
          ¬ (0xF7 + UInt8.ofNat L : UInt8) < 0xB8 ∧ ¬ (0xF7 + UInt8.ofNat L : UInt8) < 0xC0 ∧
          ¬ (0xF7 + UInt8.ofNat L : UInt8) < 0xF8 ∧ ((0xF7 + UInt8.ofNat L) - 0xF7).toNat = L := by
        decide
      obtain ⟨h₁, h₂, h₃, h₄, hsub⟩ := htag _ hL.1 hL.2
      rw [if_neg h₁, if_neg h₂, if_neg h₃, if_neg h₄, hsub,
        exec_bind_of_ok (exec_attempt_of_ok hread)]
      dsimp only
      rw [if_neg h56, hstate]
      rfl

/-- `Kind` with nothing cached, inside a list that is not at its end or at toplevel, reads the
kind and caches it. -/
theorem exec_kind_of_readKind (hk : s.kind = none)
    (htop : ∀ tos ∈ s.stack.head?, tos.pos ≠ tos.size) {k : Kind} {size : ℕ} {t : Stream}
    (hread : exec readKind { s with kinderr := none } = (.ok (k, size, none), t))
    (hsize : sizeErr t size = none) :
    exec kind s = (.ok (k, size), { t with kind := some k, size := size, kinderr := none }) := by
  obtain ⟨r, remaining, limited, kind', size', byteval, kinderr, stack⟩ := s
  simp only at hk htop
  subst hk
  cases stack with
  | nil =>
    simp only [kind]
    rw [exec_bind_of_ok (exec_get _), if_pos rfl, exec_bind_of_ok (exec_set _ _)]
    dsimp only
    rw [exec_bind_of_ok hread]
    dsimp only
    rw [exec_bind_of_ok (exec_get _), exec_bind_of_ok (exec_set _ _), exec_bind_of_ok (exec_get _)]
    simp [hsize]
  | cons tos rest =>
    simp only [kind]
    rw [exec_bind_of_ok (exec_get _), if_pos rfl, exec_bind_of_ok (exec_set _ _)]
    dsimp only
    rw [if_neg (htop tos rfl), exec_bind_of_ok hread]
    dsimp only
    rw [exec_bind_of_ok (exec_get _), exec_bind_of_ok (exec_set _ _), exec_bind_of_ok (exec_get _)]
    simp [hsize]

/-- At the end of the innermost list `Kind` reports `EOL`. -/
theorem exec_kind_eol {tos : Listpos} {rest : List Listpos} (hk : s.kind = none)
    (hs : s.stack = tos :: rest) (h : tos.pos = tos.size) :
    exec kind s = (.error .eol, { s with kinderr := none }) := by
  obtain ⟨r, remaining, limited, kind', size', byteval, kinderr, stack⟩ := s
  simp only at hk hs
  subst hk hs
  simp only [kind]
  rw [exec_bind_of_ok (exec_get _), if_pos rfl, exec_bind_of_ok (exec_set _ _)]
  dsimp only
  rw [if_pos h]
  rfl

/-- A stream about to read `b` is not at the end of its innermost list, if `b` is not empty. -/
theorem Ready.top_ne {b : List UInt8} (hs : Ready s b) (hb : b ≠ []) :
    ∀ tos ∈ s.stack.head?, tos.pos ≠ tos.size := by
  intro tos htos heq
  have := hs.room.top tos htos
  have := List.length_pos_iff.mpr hb
  omega

/-- A single byte below `0x80`. -/
theorem exec_kind_single {c : UInt8} (hs : Ready s [c]) (hc : c < 0x80) :
    exec kind s = (.ok (.byte, 0),
      { s.skip 1 with byteval := c, kind := some .byte, size := 0, kinderr := none }) := by
  obtain ⟨rest, hrest⟩ := hs.ahead
  have hread := exec_readKind_single (s := { s with kinderr := none })
    ⟨hs.room.limited, hs.room.remaining, hs.room.top⟩ hrest.symm hc
  exact (exec_kind_of_readKind hs.kind (hs.top_ne (by simp)) hread
    (sizeErr_of_room (Room.congr (s := s.skip 1) rfl rfl rfl (Room.skip (n := 1) (m := 0) hs.room)))).trans
    rfl

/-- The header of a string or a list whose payload `p` follows: `Kind` reads the header and
checks the payload's size against the room left. -/
theorem exec_kind_header {short long : UInt8} {k : Kind}
    (hk : (short = 0x80 ∧ long = 0xB7 ∧ k = .string) ∨ (short = 0xC0 ∧ long = 0xF7 ∧ k = .list))
    {p : List UInt8} (hp : p.length < 2 ^ 64) (hs : Ready s (header short long p.length ++ p)) :
    exec kind s = (.ok (k, p.length),
      { s.skip (header short long p.length).length with
        byteval := 0, kind := some k, size := p.length, kinderr := none }) := by
  obtain ⟨rest, hrest⟩ := hs.ahead
  have hroom := hs.room
  rw [List.length_append] at hroom
  have hread := exec_readKind_header (s := { s with kinderr := none }) hk hp
    ⟨hroom.limited, (Nat.le_add_right _ _).trans hroom.remaining,
      fun tos htos => (Nat.le_add_right _ _).trans (hroom.top tos htos)⟩
    (by rw [← hrest, List.append_assoc])
  have hleft : Room { s with kinderr := none } ((header short long p.length).length + p.length) :=
    Room.congr (s := s) rfl rfl rfl hroom
  exact (exec_kind_of_readKind hs.kind
    (hs.top_ne (by simp [List.append_eq_nil_iff, header_ne_nil])) hread
    (sizeErr_of_room (Room.congr (s := { s with kinderr := none }.skip (header short long p.length).length)
      rfl rfl rfl (Room.skip hleft)))).trans rfl

end Kinds

/-! ## Items -/

section Items
variable {s : Stream}

/-- The state `Kind` leaves after the header of a string or a list whose payload `p` follows. -/
theorem kindHeader_room {short long : UInt8} {k : Kind} {p : List UInt8}
    (hs : Ready s (header short long p.length ++ p)) :
    Room { s.skip (header short long p.length).length with
      byteval := 0, kind := some k, size := p.length, kinderr := none } p.length ∧
    ({ s.skip (header short long p.length).length with
      byteval := 0, kind := some k, size := p.length, kinderr := none } : Stream).r.take p.length = p := by
  obtain ⟨rest, hrest⟩ := hs.ahead
  have hroom := hs.room
  rw [List.length_append] at hroom
  refine ⟨Room.congr (s := s.skip (header short long p.length).length) rfl rfl rfl (Room.skip hroom), ?_⟩
  simp [Stream.skip, ← hrest]

/-- `Bytes` on the encoding of a string reads the string. -/
theorem exec_bytes_str {b : List UInt8} (hs : Ready s (Item.str b).encode) (hb : b.length < 2 ^ 64) :
    ∃ t, exec bytes s = (.ok b, t) ∧ Skipped s t (Item.str b).encode.length := by
  cases hsingle : isSingleByte b
  · -- a header, then the bytes
    have henc : (Item.str b).encode = header 0x80 0xB7 b.length ++ b := by simp [hsingle]
    rw [henc] at hs ⊢
    obtain ⟨hroom, htake⟩ := kindHeader_room (k := .string) hs
    have hfull := exec_readFull hroom (by have := congrArg List.length htake; simp at this; omega)
    rw [htake] at hfull
    have hcanon : ¬ (b.length = 1 ∧ b.headD 0 < 128) := by
      rintro ⟨h1, h2⟩
      obtain ⟨c, rfl⟩ := List.length_eq_one_iff.mp h1
      simp only [List.headD_cons] at h2
      simp [isSingleByte, h2] at hsingle
    refine ⟨?_, ?run, ?skipped⟩
    case run =>
      simp only [bytes]
      rw [exec_bind_of_ok (exec_kind_header (Or.inl ⟨rfl, rfl, rfl⟩) hb hs)]
      dsimp only
      rw [exec_bind_of_ok hfull, if_neg hcanon]
      rfl
    case skipped =>
      rw [List.length_append]
      exact Skipped.skip_of (u := { s.skip (header 0x80 0xB7 b.length).length with
        byteval := 0, kind := some .string, size := b.length, kinderr := none }) rfl rfl rfl rfl _
  · -- a single byte below `0x80`
    obtain ⟨c, rfl, hc⟩ := (isSingleByte_iff b).mp hsingle
    have henc : (Item.str [c]).encode = [c] := by simp [hsingle]
    rw [henc] at hs ⊢
    refine ⟨?_, ?run, ?skipped⟩
    case run =>
      simp only [bytes]
      rw [exec_bind_of_ok (exec_kind_single hs hc)]
      dsimp only
      rw [exec_bind_of_ok (exec_modify _ _), exec_bind_of_ok (exec_get _)]
      rfl
    case skipped => exact ⟨rfl, rfl, rfl, rfl, rfl⟩

/-- `uint 64` on the encoding of the minimal big-endian bytes of `v` reads `v`. -/
theorem exec_uint_str {v : ℕ} (hs : Ready s (Item.str (bigEndian v)).encode) (hv : v < 2 ^ 64) :
    ∃ t, exec (uint 64) s = (.ok v, t) ∧ Skipped s t (Item.str (bigEndian v)).encode.length := by
  rcases Nat.eq_zero_or_pos v with rfl | hpos
  · -- zero is the empty string `0x80`
    have henc : (Item.str (bigEndian 0)).encode = header 0x80 0xB7 ([] : List UInt8).length ++ [] := by
      decide
    rw [henc] at hs ⊢
    have hkind := exec_kind_header (Or.inl ⟨rfl, rfl, rfl⟩) (by simp) hs
    exact ⟨_, exec_uint_of_string 64 hkind (by decide) (exec_readUint_zero _) (by simp),
      ⟨rfl, rfl, rfl, rfl, rfl⟩⟩
  by_cases hsmall : v < 128
  · -- a single byte below `0x80` is its own encoding
    have hmod : (UInt8.ofNat v).toNat = v := by simp [Nat.mod_eq_of_lt (by omega : v < 256)]
    have hc : UInt8.ofNat v < 0x80 := by
      rw [UInt8.lt_iff_toNat_lt, hmod]
      exact hsmall
    have h0 : UInt8.ofNat v ≠ 0 := fun h => by
      have := congrArg UInt8.toNat h
      rw [hmod] at this
      simp at this
      omega
    have henc : (Item.str (bigEndian v)).encode = [UInt8.ofNat v] := by
      simp [bigEndian_of_lt hpos (by omega : v < 256), isSingleByte, hc]
    rw [henc] at hs ⊢
    have huint := exec_uint_of_byte 64 (exec_kind_single hs hc) h0
    dsimp only at huint
    rw [hmod] at huint
    exact ⟨_, huint, ⟨rfl, rfl, rfl, rfl, rfl⟩⟩
  · -- one to eight bytes after the header `0x80 + L`
    have hL8 : (bigEndian v).length ≤ 8 := (length_bigEndian_le_iff v 8).mpr (by simpa using hv)
    have hsingle : isSingleByte (bigEndian v) = false := by
      by_contra hne
      obtain ⟨b, hbe, hb⟩ := (isSingleByte_iff _).mp (Bool.not_eq_false _ ▸ hne)
      have hlt : v < 256 := (length_bigEndian_le_iff v 1).mp (by simp [hbe])
      rw [bigEndian_of_lt hpos hlt, List.cons.injEq] at hbe
      rw [← hbe.1, UInt8.lt_iff_toNat_lt] at hb
      simp [Nat.mod_eq_of_lt hlt] at hb
      omega
    have henc : (Item.str (bigEndian v)).encode =
        header 0x80 0xB7 (bigEndian v).length ++ bigEndian v := by
      simp [hsingle]
    rw [henc] at hs ⊢
    have hkind := exec_kind_header (Or.inl ⟨rfl, rfl, rfl⟩) (by omega) hs
    obtain ⟨hroom, htake⟩ := kindHeader_room (k := .string) hs
    obtain ⟨rest, hrest⟩ := hs.ahead
    have hread := exec_readUint_bigEndian_at hpos hroom
      (show _ = bigEndian v ++ rest by simp [Stream.skip, ← hrest])
    refine ⟨_, exec_uint_of_string 64 hkind hL8 hread (by omega), ?_⟩
    rw [List.length_append]
    exact Skipped.skip_of (u := { s.skip (header 0x80 0xB7 (bigEndian v).length).length with
      byteval := 0, kind := some .string, size := (bigEndian v).length, kinderr := none })
      rfl rfl rfl rfl _

/-- `Raw` on a header and its payload returns both: the header written again is the one read. -/
theorem exec_raw_header {short long : UInt8} {k : Kind}
    (hk : (short = 0x80 ∧ long = 0xB7 ∧ k = .string) ∨ (short = 0xC0 ∧ long = 0xF7 ∧ k = .list))
    {p : List UInt8} (hp : p.length < 2 ^ 64) (hs : Ready s (header short long p.length ++ p)) :
    ∃ t, exec raw s = (.ok (header short long p.length ++ p), t) ∧
      Skipped s t (header short long p.length ++ p).length := by
  obtain ⟨hroom, htake⟩ := kindHeader_room (k := k) hs
  have hfull := exec_readFull hroom (by have := congrArg List.length htake; simp at this; omega)
  rw [htake] at hfull
  refine ⟨?_, ?run, ?skipped⟩
  case run =>
    have hbyte : k ≠ .byte := by rcases hk with ⟨-, -, rfl⟩ | ⟨-, -, rfl⟩ <;> decide
    simp only [raw]
    rw [exec_bind_of_ok (exec_kind_header hk hp hs)]
    dsimp only
    rw [if_neg hbyte, exec_bind_of_ok hfull]
    obtain ⟨hshort, hlong, hks⟩ | ⟨hshort, hlong, hkl⟩ := hk
    · have hhead : puthead 0x80 0xB7 p.length = header short long p.length := by
        rw [hshort, hlong, puthead_eq_header _ _ hp]
      rw [if_pos hks, hhead]
      rfl
    · have hhead : puthead 0xC0 0xF7 p.length = header short long p.length := by
        rw [hshort, hlong, puthead_eq_header _ _ hp]
      rw [if_neg (by rw [hkl]; decide), hhead]
      rfl
  case skipped =>
    rw [List.length_append]
    exact Skipped.skip_of (u := { s.skip (header short long p.length).length with
      byteval := 0, kind := some k, size := p.length, kinderr := none }) rfl rfl rfl rfl _

/-- `Raw` on the encoding of an item returns that encoding. -/
theorem exec_raw_encode (x : Item) (hs : Ready s x.encode) (hx : x.payload.length < 2 ^ 64) :
    ∃ t, exec raw s = (.ok x.encode, t) ∧ Skipped s t x.encode.length := by
  cases x with
  | str b =>
    cases hsingle : isSingleByte b
    · have henc : (Item.str b).encode = header 0x80 0xB7 b.length ++ b := by simp [hsingle]
      rw [henc] at hs ⊢
      exact exec_raw_header (Or.inl ⟨rfl, rfl, rfl⟩) hx hs
    · -- a single byte, which `Kind` has consumed
      obtain ⟨c, rfl, hc⟩ := (isSingleByte_iff b).mp hsingle
      have henc : (Item.str [c]).encode = [c] := by simp [hsingle]
      rw [henc] at hs ⊢
      refine ⟨?_, ?run, ?skipped⟩
      case run =>
        simp only [raw]
        rw [exec_bind_of_ok (exec_kind_single hs hc)]
        dsimp only
        rw [if_pos rfl, exec_bind_of_ok (exec_modify _ _), exec_bind_of_ok (exec_get _)]
        rfl
      case skipped => exact ⟨rfl, rfl, rfl, rfl, rfl⟩
  | list xs =>
    rw [encode_list] at hs ⊢
    exact exec_raw_header (Or.inr ⟨rfl, rfl, rfl⟩) hx hs

/-- `List` on the header of a list whose payload `p` follows: the list is entered, with `p` next
and all of its room. -/
theorem exec_list_header {p : List UInt8} (hp : p.length < 2 ^ 64)
    (hs : Ready s (header 0xC0 0xF7 p.length ++ p)) :
    ∃ t, exec list s = (.ok p.length, t) ∧ Ready t p ∧ ∃ rest, t.stack = ⟨0, p.length⟩ :: rest := by
  obtain ⟨hroom, htake⟩ := kindHeader_room (k := .list) hs
  obtain ⟨rest, hrest⟩ := hs.ahead
  refine ⟨?_, ?run, ?ready, ?top⟩
  case run =>
    simp only [list]
    rw [exec_bind_of_ok (exec_kind_header (Or.inr ⟨rfl, rfl, rfl⟩) hp hs)]
    dsimp only
    rw [if_neg (by decide), exec_bind_of_ok (exec_modify _ _)]
    rfl
  case ready =>
    refine ⟨rfl, ⟨rest, ?_⟩, ⟨hroom.limited, hroom.remaining, ?_⟩⟩
    · simp [Stream.skip, ← hrest]
    · simp
  case top => exact ⟨_, rfl⟩

/-- At the end of the innermost list `Bytes` reports `EOL`. -/
theorem exec_bytes_eol {tos : Listpos} {rest : List Listpos} (hk : s.kind = none)
    (hs : s.stack = tos :: rest) (h : tos.pos = tos.size) :
    exec bytes s = (.error .eol, { s with kinderr := none }) := by
  simp only [bytes]
  rw [exec_bind_of_error (exec_kind_eol hk hs h)]

/-- `ListEnd` at the end of the innermost list leaves it. -/
theorem exec_listEnd_at {tos : Listpos} {rest : List Listpos} (hs : s.stack = tos :: rest)
    (h : tos.pos = tos.size) : ∃ t, exec listEnd s = (.ok (), t) := by
  obtain ⟨r, remaining, limited, kind', size', byteval, kinderr, stack⟩ := s
  simp only at hs
  subst hs
  simp only [listEnd]
  rw [exec_bind_of_ok (exec_get _)]
  dsimp only
  rw [if_neg (by simpa using h)]
  exact ⟨_, exec_bind_of_ok (exec_pure _ _) |>.trans (exec_set _ _)⟩

theorem exec_wrap_of_ok {α : Type} {m : StreamM α} {a : α} {t : Stream}
    (h : exec m s = (.ok a, t)) : exec (wrap m) s = (.ok a, t) :=
  exec_tryCatch_of_ok h

/-- `EOL` passes `wrapStreamError` unchanged. -/
theorem exec_wrap_eol {α : Type} {m : StreamM α} {t : Stream} (h : exec m s = (.error .eol, t)) :
    exec (wrap m) s = (.error .eol, t) := by
  rw [wrap, exec_tryCatch_of_error h]
  rfl

end Items

end Srcd.Rlp
