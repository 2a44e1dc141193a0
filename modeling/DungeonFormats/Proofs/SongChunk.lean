import Mathlib
import DungeonFormats.Sound.Song
import DungeonFormats.Proofs.PanicFreedom

/-!
# Song chunks and their padding

A song chunk is written as its 48 bytes, the tag and the fields in order, then its padding of
`0xFF` bytes, at most 16 of them (`write_eq`). The padding's length is stored nowhere: reading
counts the `0xFF` bytes after the fields, stopping at 16. So a chunk read back from its bytes
followed by more bytes `t` has as padding its own and the `0xFF` bytes that open `t`, up to 16
(`read_bytes_append`), and every chunk that is read is written again as exactly the bytes it was
read from (`rest_of_read`). `song_round_trip` puts the two directions together.
-/

namespace DungeonFormats

namespace Cursor

/-- Reading a word whose bytes are next. -/
theorem word_of_rest {c : Cursor} {o : ByteOrder} {w n : Nat} {r : List UInt8}
    (h : c.rest = o.encode w n ++ r) (hn : n < 256 ^ w) :
    ∃ d, c.word o w = .ok (n, d) ∧ d.data = c.data ∧ d.pos = c.pos + w ∧ d.rest = r := by
  have hlen : w ≤ c.size - c.pos := by
    have := congrArg List.length h
    simp only [List.length_append, ByteOrder.length_encode, length_rest] at this
    omega
  have htake : c.rest.take w = o.encode w n := by
    rw [h, List.take_left' (ByteOrder.length_encode o w n)]
  refine ⟨⟨c.data, c.pos + w, ?_⟩, word_eq_ok_iff.2 ⟨hlen, ?_, rfl, rfl⟩, rfl, rfl, ?_⟩
  · have := c.pos_le
    simp only [size] at hlen
    omega
  · rw [htake, ByteOrder.decode_encode, Nat.mod_eq_of_lt hn]
  · exact rest_of_advance h rfl (by simp [ByteOrder.length_encode])

/-- A word read is the bytes it was read from. -/
theorem rest_of_word {c d : Cursor} {o : ByteOrder} {w v : Nat} (h : c.word o w = .ok (v, d)) :
    c.rest = o.encode w v ++ d.rest ∧ v < 256 ^ w ∧ d.data = c.data ∧ d.pos = c.pos + w := by
  obtain ⟨hlen, rfl, hd, hp⟩ := word_eq_ok_iff.1 h
  have htake : (c.rest.take w).length = w := by
    simp only [List.length_take, length_rest]
    omega
  have hlt := ByteOrder.decode_lt o (c.rest.take w)
  rw [htake] at hlt
  have henc : o.encode w (o.decode (c.rest.take w)) = c.rest.take w := by
    have := ByteOrder.encode_decode o (c.rest.take w)
    rwa [htake] at this
  refine ⟨?_, hlt, hd, hp⟩
  rw [henc, rest, rest, hd, hp, ← List.drop_drop, List.take_append_drop]

theorem u32_of_rest {c : Cursor} {v : UInt32} {r : List UInt8}
    (h : c.rest = ByteOrder.little.encode 4 v.toNat ++ r) :
    ∃ d, c.u32 = .ok (v, d) ∧ d.data = c.data ∧ d.pos = c.pos + 4 ∧ d.rest = r := by
  obtain ⟨d, hd, hdata, hpos, hrest⟩ := word_of_rest h (Nat.lt_of_lt_of_eq v.toNat_lt (by decide))
  exact ⟨d, by simp [u32, hd, bind, Except.bind, pure, Except.pure], hdata, hpos, hrest⟩

theorem rest_of_u32 {c d : Cursor} {v : UInt32} (h : c.u32 = .ok (v, d)) :
    c.rest = ByteOrder.little.encode 4 v.toNat ++ d.rest ∧ d.data = c.data ∧ d.pos = c.pos + 4 := by
  obtain ⟨⟨n, d'⟩, hn, h⟩ := Except.bind_eq_ok_iff.1 h
  simp only [pure, Except.pure, Except.ok.injEq, Prod.mk.injEq] at h
  obtain ⟨rfl, rfl⟩ := h
  obtain ⟨hrest, hlt, hdata, hpos⟩ := rest_of_word hn
  have hv : n.toUInt32.toNat = n := UInt32.toNat_ofNat_of_lt' (Nat.lt_of_lt_of_eq hlt (by decide))
  rw [hv]
  exact ⟨hrest, hdata, hpos⟩

theorem u16_of_rest' {c : Cursor} {v : UInt16} {r : List UInt8}
    (h : c.rest = ByteOrder.little.encode 2 v.toNat ++ r) :
    ∃ d, c.u16 = .ok (v, d) ∧ d.data = c.data ∧ d.pos = c.pos + 2 ∧ d.rest = r := by
  obtain ⟨d, hd, hdata, hpos, hrest⟩ := u16_of_rest h v.toNat_lt
  exact ⟨d, by simpa using hd, hdata, hpos, hrest⟩

theorem u8_of_rest {c : Cursor} {x : UInt8} {r : List UInt8} (h : c.rest = x :: r) :
    ∃ d, c.u8 = .ok (x, d) ∧ d.data = c.data ∧ d.pos = c.pos + 1 ∧ d.rest = r := by
  have hx : ByteOrder.little.encode 1 x.toNat = [x] := by
    simp [ByteOrder.encode, lowFirst, Nat.mod_eq_of_lt x.toNat_lt]
  obtain ⟨d, hd, hdata, hpos, hrest⟩ :=
    word_of_rest (h.trans (by rw [hx]; rfl)) (Nat.lt_of_lt_of_eq x.toNat_lt (by decide))
  exact ⟨d, by simp [u8, hd, bind, Except.bind, pure, Except.pure], hdata, hpos, hrest⟩

theorem rest_of_u8 {c d : Cursor} {x : UInt8} (h : c.u8 = .ok (x, d)) :
    c.rest = x :: d.rest ∧ d.data = c.data ∧ d.pos = c.pos + 1 := by
  obtain ⟨⟨n, d'⟩, hn, h⟩ := Except.bind_eq_ok_iff.1 h
  simp only [pure, Except.pure, Except.ok.injEq, Prod.mk.injEq] at h
  obtain ⟨rfl, rfl⟩ := h
  obtain ⟨hrest, hlt, hdata, hpos⟩ := rest_of_word hn
  have hn : n.toUInt8.toNat = n := UInt8.toNat_ofNat_of_lt' (Nat.lt_of_lt_of_eq hlt (by decide))
  refine ⟨?_, hdata, hpos⟩
  rw [hrest]
  simp [ByteOrder.encode, lowFirst, Nat.mod_eq_of_lt (Nat.lt_of_lt_of_eq hlt (by decide) : n < 256)]

end Cursor

namespace Sound.Song

/-! ## Padding -/

/-- The padding reading counts before the bytes `r`: the `0xFF` bytes that open them, at most
16 of them. -/
def paddingBefore (r : List UInt8) : Nat :=
  ((r.take maxPadding).takeWhile (· == 0xFF)).length

theorem takeWhile_replicate_append (p : Nat) (t : List UInt8) :
    (List.replicate p (0xFF : UInt8) ++ t).takeWhile (· == 0xFF) =
      List.replicate p 0xFF ++ t.takeWhile (· == 0xFF) := by
  induction p with
  | zero => rfl
  | succ p ih => simp [List.replicate_succ, ih]

/-- Before `p` bytes `0xFF` and then `t`, the padding counted is those and the `0xFF` bytes that
open `t`, up to 16. -/
theorem paddingBefore_replicate_append (p : Nat) (t : List UInt8) :
    paddingBefore (List.replicate p 0xFF ++ t) = min 16 (p + (t.takeWhile (· == 0xFF)).length) := by
  rw [paddingBefore, ← List.take_takeWhile, takeWhile_replicate_append, List.length_take,
    List.length_append, List.length_replicate, maxPadding, Nat.min_comm]

theorem paddingBefore_le (r : List UInt8) : paddingBefore r ≤ maxPadding ∧ paddingBefore r ≤ r.length := by
  have h := (List.takeWhile_prefix (· == (0xFF : UInt8)) (l := r.take maxPadding)).length_le
  simp only [List.length_take] at h
  exact ⟨by unfold paddingBefore; omega, by unfold paddingBefore; omega⟩

/-- The bytes counted as padding are all `0xFF`. -/
theorem take_paddingBefore (r : List UInt8) :
    r.take (paddingBefore r) = List.replicate (paddingBefore r) 0xFF := by
  have hpre : (r.take maxPadding).takeWhile (· == 0xFF) <+: r :=
    (List.takeWhile_prefix _).trans (List.take_prefix _ _)
  rw [paddingBefore, ← List.prefix_iff_eq_take.1 hpre, List.eq_replicate_iff]
  refine ⟨rfl, fun x hx => ?_⟩
  simpa using List.mem_takeWhile_imp hx

/-! ## Writing -/

@[simp] theorem length_head (s : Song) : s.head.length = 48 := by
  simp [head, ChunkId.tag, ByteOrder.length_encode]

/-- A chunk with at most 16 bytes of padding is written as its bytes; more padding is refused
before anything is written. -/
theorem write_eq (s : Song) :
    s.write = if s.padding.toNat ≤ maxPadding then .ok s.bytes
      else .error (.paddingTooLong s.padding) := by
  unfold write
  split
  · rename_i hlt
    rw [if_neg (Nat.not_le_of_lt hlt)]
    rfl
  · rename_i hle
    have hle : s.padding.toNat ≤ maxPadding := Nat.le_of_not_lt hle
    have hslice : slice (List.replicate maxPadding (0xFF : UInt8)) 0 s.padding.toNat =
        .ok (List.replicate s.padding.toNat 0xFF) := by
      rw [slice_eq_ok (Nat.zero_le _) (by rw [List.length_replicate]; exact hle)]
      simp [List.take_replicate, Nat.min_eq_left hle]
    rw [if_pos hle, hslice]
    rfl

/-! ## Reading -/

/-- A chunk whose head is next reads as itself, with as padding what the bytes after the head
give, and the reader moves past the head and that padding. -/
theorem read_of_rest {c : Cursor} {s : Song} {r : List UInt8} (h : c.rest = s.head ++ r) :
    ∃ d, Song.read c = .ok ({ s with padding := (paddingBefore r).toUInt8 }, d) ∧
      d.data = c.data ∧ d.pos = c.pos + 48 + paddingBefore r := by
  simp only [head, ChunkId.tag, List.append_assoc, List.cons_append, List.nil_append] at h
  obtain ⟨c0, e0, d0, p0, r0⟩ := Cursor.word_of_rest h
    (Nat.lt_of_lt_of_eq ChunkId.song.value.toNat_lt (by decide))
  obtain ⟨c1, e1, d1, p1, r1⟩ := Cursor.u32_of_rest r0
  obtain ⟨c2, e2, d2, p2, r2⟩ := Cursor.u32_of_rest r1
  obtain ⟨c3, e3, d3, p3, r3⟩ := Cursor.u32_of_rest r2
  obtain ⟨c4, e4, d4, p4, r4⟩ := Cursor.u32_of_rest r3
  obtain ⟨c5, e5, d5, p5, r5⟩ := Cursor.u16_of_rest' r4
  obtain ⟨c6, e6, d6, p6, r6⟩ := Cursor.u8_of_rest r5
  obtain ⟨c7, e7, d7, p7, r7⟩ := Cursor.u8_of_rest r6
  obtain ⟨c8, e8, d8, p8, r8⟩ := Cursor.u32_of_rest r7
  obtain ⟨c9, e9, d9, p9, r9⟩ := Cursor.u32_of_rest r8
  obtain ⟨c10, e10, d10, p10, r10⟩ := Cursor.u32_of_rest r9
  obtain ⟨c11, e11, d11, p11, r11⟩ := Cursor.u32_of_rest r10
  obtain ⟨c12, e12, d12, p12, r12⟩ := Cursor.u16_of_rest' r11
  obtain ⟨c13, e13, d13, p13, r13⟩ := Cursor.u16_of_rest' r12
  obtain ⟨c14, e14, d14, p14, r14⟩ := Cursor.u32_of_rest r13
  -- the padding is cut from what follows the fields
  have hpad := paddingBefore_le r
  obtain ⟨c15, e15, d15, p15⟩ : ∃ d, c14.take (paddingBefore r) = .ok (r.take (paddingBefore r), d) ∧
      d.data = c14.data ∧ d.pos = c14.pos + paddingBefore r := by
    have hle : paddingBefore r ≤ c14.size - c14.pos := by
      rw [← Cursor.length_rest, r14]
      exact hpad.2
    refine ⟨⟨c14.data, c14.pos + paddingBefore r, ?_⟩, Cursor.take_eq_ok_iff.2 ⟨hle, by rw [r14], rfl, rfl⟩,
      rfl, rfl⟩
    have := c14.pos_le
    simp only [Cursor.size] at hle
    omega
  refine ⟨c15, ?_, by simp [d0, d1, d2, d3, d4, d5, d6, d7, d8, d9, d10, d11, d12, d13, d14, d15], ?_⟩
  · rw [paddingBefore] at e15
    simp [Song.read, e0, e1, e2, e3, e4, e5, e6, e7, e8, e9, e10, e11, e12, e13, e14, r14, e15,
      paddingBefore, Except.mapError, bind, Except.bind, pure, Except.pure]
  · omega

/-- A chunk read is the bytes it was read from: its head, then its padding of `0xFF` bytes, at
most 16 of them. -/
theorem rest_of_read {c d : Cursor} {s : Song} (h : Song.read c = .ok (s, d)) :
    c.rest = s.bytes ++ d.rest ∧ s.padding.toNat ≤ maxPadding ∧ d.data = c.data ∧
      d.pos = c.pos + s.size := by
  unfold Song.read at h
  obtain ⟨⟨label, c0⟩, e0, h⟩ := Except.bind_eq_ok_iff.1 h
  dsimp only at h
  split at h
  · cases h
  rename_i hlabel
  -- the fields, one read after another
  obtain ⟨⟨v1, c1⟩, e1, h⟩ := Except.bind_eq_ok_iff.1 (Except.mapError_eq_ok_iff.1 h)
  obtain ⟨⟨v2, c2⟩, e2, h⟩ := Except.bind_eq_ok_iff.1 h
  obtain ⟨⟨v3, c3⟩, e3, h⟩ := Except.bind_eq_ok_iff.1 h
  obtain ⟨⟨v4, c4⟩, e4, h⟩ := Except.bind_eq_ok_iff.1 h
  obtain ⟨⟨v5, c5⟩, e5, h⟩ := Except.bind_eq_ok_iff.1 h
  obtain ⟨⟨v6, c6⟩, e6, h⟩ := Except.bind_eq_ok_iff.1 h
  obtain ⟨⟨v7, c7⟩, e7, h⟩ := Except.bind_eq_ok_iff.1 h
  obtain ⟨⟨v8, c8⟩, e8, h⟩ := Except.bind_eq_ok_iff.1 h
  obtain ⟨⟨v9, c9⟩, e9, h⟩ := Except.bind_eq_ok_iff.1 h
  obtain ⟨⟨v10, c10⟩, e10, h⟩ := Except.bind_eq_ok_iff.1 h
  obtain ⟨⟨v11, c11⟩, e11, h⟩ := Except.bind_eq_ok_iff.1 h
  obtain ⟨⟨v12, c12⟩, e12, h⟩ := Except.bind_eq_ok_iff.1 h
  obtain ⟨⟨v13, c13⟩, e13, h⟩ := Except.bind_eq_ok_iff.1 h
  obtain ⟨⟨v14, c14⟩, e14, h⟩ := Except.bind_eq_ok_iff.1 h
  obtain ⟨⟨pad, c15⟩, e15, h⟩ := Except.bind_eq_ok_iff.1 h
  simp only [pure, Except.pure, Except.ok.injEq, Prod.mk.injEq] at h
  rw [← paddingBefore.eq_1] at h
  obtain ⟨rfl, rfl⟩ := h
  obtain ⟨r0, -, d0, p0⟩ := Cursor.rest_of_word (Except.mapError_eq_ok_iff.1 e0)
  obtain ⟨r1, d1, p1⟩ := Cursor.rest_of_u32 (c := c0) e1
  obtain ⟨r2, d2, p2⟩ := Cursor.rest_of_u32 (c := c1) e2
  obtain ⟨r3, d3, p3⟩ := Cursor.rest_of_u32 (c := c2) e3
  obtain ⟨r4, d4, p4⟩ := Cursor.rest_of_u32 (c := c3) e4
  obtain ⟨r5, d5, p5⟩ := Cursor.rest_of_u16 (c := c4) e5
  obtain ⟨r6, d6, p6⟩ := Cursor.rest_of_u8 (c := c5) e6
  obtain ⟨r7, d7, p7⟩ := Cursor.rest_of_u8 (c := c6) e7
  obtain ⟨r8, d8, p8⟩ := Cursor.rest_of_u32 (c := c7) e8
  obtain ⟨r9, d9, p9⟩ := Cursor.rest_of_u32 (c := c8) e9
  obtain ⟨r10, d10, p10⟩ := Cursor.rest_of_u32 (c := c9) e10
  obtain ⟨r11, d11, p11⟩ := Cursor.rest_of_u32 (c := c10) e11
  obtain ⟨r12, d12, p12⟩ := Cursor.rest_of_u16 (c := c11) e12
  obtain ⟨r13, d13, p13⟩ := Cursor.rest_of_u16 (c := c12) e13
  obtain ⟨r14, d14, p14⟩ := Cursor.rest_of_u32 (c := c13) e14
  -- the padding: the `0xFF` bytes cut from what follows the fields
  change c14.take (paddingBefore c14.rest) = _ at e15
  obtain ⟨-, rfl, d15, p15⟩ := Cursor.take_eq_ok_iff.1 e15
  have hpad := paddingBefore_le c14.rest
  have hpad8 : (paddingBefore c14.rest).toUInt8.toNat = paddingBefore c14.rest :=
    UInt8.toNat_ofNat_of_lt' (Nat.lt_of_le_of_lt hpad.1 (by decide))
  have htail : c14.rest = List.replicate (paddingBefore c14.rest) 0xFF ++ c15.rest := by
    have hdrop : c15.rest = c14.rest.drop (paddingBefore c14.rest) := by
      generalize paddingBefore c14.rest = n at p15 ⊢
      rw [Cursor.rest, Cursor.rest, d15, p15, List.drop_drop, Nat.add_comm]
    rw [hdrop, ← take_paddingBefore, List.take_append_drop]
  have hlabel : label = ChunkId.song.value.toNat := not_not.1 hlabel
  subst hlabel
  generalize paddingBefore c14.rest = n at hpad hpad8 htail p15 ⊢
  refine ⟨?_, by rw [hpad8]; exact hpad.1, by simp [d0, d1, d2, d3, d4, d5, d6, d7, d8, d9, d10, d11, d12,
    d13, d14, d15], by simp only [size, hpad8]; omega⟩
  rw [r0, r1, r2, r3, r4, r5, r6, r7, r8, r9, r10, r11, r12, r13, r14, htail]
  simp [bytes, head, ChunkId.tag, Script.word16, hpad8]

/-! ## The codec -/

/-- A chunk with at most 16 bytes of padding is written as its 48 bytes, the tag and the fields
in order, then its padding of `0xFF` bytes. Read back before any bytes `t`, it gives the chunk
with as padding its own and the `0xFF` bytes that open `t`, up to 16 in all, and leaves the
reader just after them. More padding is refused. And a chunk read from any bytes is written back
as exactly the bytes the reader went past. -/
theorem song_round_trip :
    (∀ (s : Song) (t : List UInt8), s.padding.toNat ≤ maxPadding →
      s.write = .ok (s.head ++ List.replicate s.padding.toNat 0xFF) ∧
      (s.head ++ List.replicate s.padding.toNat 0xFF).length = 48 + s.padding.toNat ∧
      ∃ d, Song.read (Cursor.start (s.head ++ List.replicate s.padding.toNat 0xFF ++ t)) =
          .ok ({ s with padding :=
            (min maxPadding (s.padding.toNat + (t.takeWhile (· == 0xFF)).length)).toUInt8 }, d) ∧
        d.pos = 48 + min maxPadding (s.padding.toNat + (t.takeWhile (· == 0xFF)).length)) ∧
    (∀ s : Song, maxPadding < s.padding.toNat → s.write = .error (.paddingTooLong s.padding)) ∧
    (∀ (b : List UInt8) (s : Song) (d : Cursor), Song.read (Cursor.start b) = .ok (s, d) →
      s.write = .ok (b.take d.pos)) := by
  refine ⟨fun s t hle => ?_, fun s hlt => ?_, fun b s d h => ?_⟩
  · have hrest : (Cursor.start (s.head ++ List.replicate s.padding.toNat 0xFF ++ t)).rest =
        s.head ++ (List.replicate s.padding.toNat 0xFF ++ t) := by
      simp [Cursor.start, Cursor.rest]
    obtain ⟨d, hread, -, hpos⟩ := read_of_rest hrest
    rw [paddingBefore_replicate_append] at hread hpos
    refine ⟨by rw [write_eq, if_pos hle]; rfl, by simp, d, hread, ?_⟩
    simpa [Cursor.start, maxPadding] using hpos
  · rw [write_eq, if_neg (Nat.not_le_of_lt hlt)]
  · obtain ⟨hrest, hle, -, hpos⟩ := rest_of_read h
    have hb : b = s.bytes ++ d.rest := hrest
    have hlen : s.bytes.length = s.size := by simp [bytes, size]
    rw [write_eq, if_pos hle, hpos, hb, Cursor.start, Nat.zero_add, ← hlen, List.take_left]

/-- Eight bytes of padding and twelve more `0xFF` bytes after them read as sixteen bytes of
padding, and the chunk read is written as the first 64 bytes; seventeen bytes of padding are
refused. -/
theorem song_padding_stops_at_sixteen :
    ∃ d, Song.read (Cursor.start ((⟨1, 1, 1, 1, 2, 17, 16, 3, 3, 3, 3, 3, 3, 3, 8⟩ : Song).head ++
        List.replicate 20 0xFF)) = .ok (⟨1, 1, 1, 1, 2, 17, 16, 3, 3, 3, 3, 3, 3, 3, 16⟩, d) ∧
      d.pos = 64 ∧
      (⟨1, 1, 1, 1, 2, 17, 16, 3, 3, 3, 3, 3, 3, 3, 16⟩ : Song).write =
        .ok (((⟨1, 1, 1, 1, 2, 17, 16, 3, 3, 3, 3, 3, 3, 3, 8⟩ : Song).head ++
          List.replicate 20 0xFF).take 64) ∧
      (⟨1, 1, 1, 1, 2, 17, 16, 3, 3, 3, 3, 3, 3, 3, 17⟩ : Song).write = .error (.paddingTooLong 17) := by
  obtain ⟨-, -, d, hread, hpos⟩ :=
    song_round_trip.1 ⟨1, 1, 1, 1, 2, 17, 16, 3, 3, 3, 3, 3, 3, 3, 8⟩ (List.replicate 12 0xFF) (by decide)
  have hbytes : List.replicate 8 (0xFF : UInt8) ++ List.replicate 12 0xFF = List.replicate 20 0xFF := by
    decide
  simp only [UInt8.toNat_ofNat, hbytes, List.append_assoc] at hread hpos
  have h16 : min maxPadding (8 % 2 ^ 8 + ((List.replicate 12 (0xFF : UInt8)).takeWhile (· == 0xFF)).length) =
      16 := by
    decide
  rw [h16] at hread hpos
  have hwrite := song_round_trip.2.2 _ _ d hread
  rw [hpos] at hwrite
  exact ⟨d, hread, hpos, hwrite, song_round_trip.2.1 _ (by decide)⟩

end Sound.Song

end DungeonFormats
