import Mathlib
import DungeonFormats.Sound.Chunk
import DungeonFormats.Proofs.Word

/-!
# Scanning for a chunk

What `findChunk` returns short of the end of the data holds the wanted tag, on the start's
four-byte grid. When the bytes from the start are a run of well-framed known chunks, it returns
the first chunk of the run with the wanted tag: every chunk before it is skipped whole, so a tag
inside a skipped body is never reported.

The scan probes, at each position, only the known tags that start with the byte there; since a
tag's first byte is the byte the scan stands on, this decides as a lookup among all known tags
would (`probe_candidates`), and one step of the scan reads as `findChunk_of_lt`.
-/

namespace DungeonFormats.Sound

namespace ChunkId

theorem mem_known_of_ne_invalid {c : ChunkId} (h : c ≠ .invalid) : c ∈ known := by
  cases c <;> simp_all [known]

theorem ne_invalid_of_mem_known : ∀ c ∈ known, c ≠ .invalid := by
  decide

theorem ofValue_value : ∀ c ∈ known, ofValue c.value = c := by
  decide

/-- A known tag's word reads back as that tag. -/
theorem ofValue_of_mem {v : UInt32} (h : v ∈ known.map value) :
    (ofValue v).value = v ∧ ofValue v ≠ .invalid := by
  obtain ⟨c, hc, rfl⟩ := List.mem_map.1 h
  rw [ofValue_value c hc]
  exact ⟨rfl, ne_invalid_of_mem_known c hc⟩

/-- A tag's first byte is the top byte of its word. -/
theorem head_tag (c : ChunkId) : c.tag.head? = some (c.value.toNat / 2 ^ 24).toUInt8 := by
  cases c <;> decide

theorem mem_known_of_mem_candidates {c : ChunkId} {b : UInt8} (h : c ∈ candidates b) :
    c ∈ known :=
  (List.mem_filter.1 h).1

end ChunkId

section Words

variable {data : List UInt8} {pos : Nat}

theorem wordAt_eq_some {o : ByteOrder} {v : Nat} :
    wordAt data pos o = some v ↔ pos + 4 ≤ data.length ∧ v = o.decode ((data.drop pos).take 4) := by
  unfold wordAt
  by_cases h : pos + 4 ≤ data.length
  · have hlen : ((data.drop pos).take 4).length = 4 := by simp; omega
    simp [hlen, h, eq_comm]
  · have hmin : ¬min 4 (data.length - pos) = 4 := by omega
    simp [hmin, h]

theorem wordAt_eq_none {o : ByteOrder} : wordAt data pos o = none ↔ data.length < pos + 4 := by
  unfold wordAt
  by_cases h : pos + 4 ≤ data.length
  · simp only [List.length_take, List.length_drop]
    simp
    omega
  · simp only [List.length_take, List.length_drop]
    simp
    omega

/-- The four bytes of a word read at `pos` are the bytes written for it. -/
theorem take_four_of_wordAt {o : ByteOrder} {v : Nat} (h : wordAt data pos o = some v) :
    (data.drop pos).take 4 = o.encode 4 v := by
  obtain ⟨hfit, rfl⟩ := wordAt_eq_some.1 h
  have hlen : ((data.drop pos).take 4).length = 4 := by simp; omega
  simpa [hlen] using (ByteOrder.encode_decode o ((data.drop pos).take 4)).symm

/-- The word at `pos` read big-endian has the byte at `pos` as its top byte. -/
theorem top_byte_of_wordAt {v : Nat} (h : wordAt data pos .big = some v) (hp : pos < data.length) :
    (v / 2 ^ 24).toUInt8 = data[pos] := by
  obtain ⟨hfit, rfl⟩ := wordAt_eq_some.1 h
  match hd : data.drop pos, hfit with
  | b0 :: b1 :: b2 :: b3 :: r, _ =>
    have hb0 : data[pos] = b0 := by
      have hget : data[pos]? = some b0 := by
        rw [← Nat.add_zero pos, ← List.getElem?_drop, hd]
        rfl
      rw [List.getElem?_eq_getElem hp] at hget
      exact Option.some.inj hget
    have h0 := b0.toNat_lt
    have h1 := b1.toNat_lt
    have h2 := b2.toNat_lt
    have h3 := b3.toNat_lt
    have htop : ByteOrder.big.decode [b0, b1, b2, b3] / 2 ^ 24 = b0.toNat := by
      simp only [ByteOrder.decode, List.reverse_cons, List.reverse_nil, List.nil_append,
        List.cons_append, ofLowFirst]
      omega
    simp only [List.take_succ_cons, List.take_zero, htop, hb0]
    exact UInt8.ofNat_toNat
  | [], h' | [_], h' | [_, _], h' | [_, _, _], h' =>
    have := congrArg List.length hd
    simp at this
    omega

end Words

section Probe

variable {data : List UInt8} {pos : Nat} {wanted : ChunkId}

theorem probe_of_wordAt_none (h : wordAt data pos .big = none) :
    ∀ cs, probe data pos wanted cs = some 4
  | [] => rfl
  | _ :: _ => by simp [probe, h]

/-- With a word at `pos`, the probe stops when a candidate is left and the word is the wanted
tag, and otherwise skips the chunk of the first candidate whose tag the word is. -/
theorem probe_of_wordAt_some {label : Nat} (h : wordAt data pos .big = some label) :
    ∀ cs, probe data pos wanted cs =
      if cs ≠ [] ∧ label = wanted.value.toNat ∧ wanted ≠ .invalid then none
      else if cs.any (·.value.toNat == label) then some (chunkSpan data pos) else some 4
  | [] => rfl
  | c :: cs => by
    have ih := probe_of_wordAt_some h cs
    simp only [probe, h]
    by_cases hw : label = wanted.value.toNat ∧ wanted ≠ .invalid
    · simp [hw]
    · by_cases hc : label = c.value.toNat
      · simp [hc]
      · have hc' : (c.value.toNat == label) = false := by
          rw [beq_eq_false_iff_ne]
          exact fun h => hc h.symm
        simp only [hw, hc, if_false, ih, List.any_cons, hc', Bool.false_or, and_false]

/-- The known tags whose first byte is the byte at `pos` are the ones the word at `pos` can be. -/
theorem mem_candidates_iff {label : Nat} (h : wordAt data pos .big = some label)
    (hp : pos < data.length) {c : ChunkId} (hv : c.value.toNat = label) :
    c ∈ ChunkId.candidates data[pos] ↔ c ∈ ChunkId.known := by
  constructor
  · exact ChunkId.mem_known_of_mem_candidates
  · intro hc
    refine List.mem_filter.2 ⟨hc, ?_⟩
    rw [ChunkId.head_tag, hv, top_byte_of_wordAt h hp]
    simp

/-- Probing the candidates of the byte at `pos` decides as a lookup among all known tags. -/
theorem probe_candidates (hp : pos < data.length) :
    probe data pos wanted (ChunkId.candidates data[pos]) =
      if wanted ≠ .invalid ∧ wordAt data pos .big = some wanted.value.toNat then none
      else some (skipAt data pos) := by
  cases hw : wordAt data pos .big with
  | none =>
    rw [probe_of_wordAt_none hw]
    simp [skipAt, hw]
  | some label =>
    rw [probe_of_wordAt_some hw]
    have hany : (ChunkId.candidates data[pos]).any (·.value.toNat == label) =
        ChunkId.known.any (·.value.toNat == label) := by
      rw [Bool.eq_iff_iff, List.any_eq_true, List.any_eq_true]
      constructor
      · rintro ⟨c, hc, hv⟩
        exact ⟨c, ChunkId.mem_known_of_mem_candidates hc, hv⟩
      · rintro ⟨c, hc, hv⟩
        exact ⟨c, (mem_candidates_iff hw hp (beq_iff_eq.1 hv)).2 hc, hv⟩
    by_cases hwanted : label = wanted.value.toNat ∧ wanted ≠ .invalid
    · -- The wanted tag is itself a candidate, so the list is not empty.
      have hmem : wanted ∈ ChunkId.candidates data[pos] :=
        (mem_candidates_iff hw hp hwanted.1.symm).2
          (ChunkId.mem_known_of_ne_invalid hwanted.2)
      have hne : ChunkId.candidates data[pos] ≠ [] := List.ne_nil_of_mem hmem
      simp [hwanted, hne]
    · have hwanted' : ¬(wanted ≠ .invalid ∧ label = wanted.value.toNat) := by
        rintro ⟨h1, h2⟩
        exact hwanted ⟨h2, h1⟩
      simp only [hwanted, and_false, if_false, hany, Option.some.injEq, hwanted',
        skipAt, hw]
      split <;> rfl

end Probe

/-! ## One step of the scan -/

theorem findChunk_of_le {data : List UInt8} {pos : Nat} {wanted : ChunkId}
    (h : data.length ≤ pos) : findChunk data pos wanted = data.length := by
  rw [findChunk, dif_neg (by omega)]

/-- A step of the scan: stop on the wanted tag, else skip, rounded up to the grid and clamped to
the end. -/
theorem findChunk_of_lt {data : List UInt8} {pos : Nat} {wanted : ChunkId}
    (h : pos < data.length) :
    findChunk data pos wanted =
      if wanted ≠ .invalid ∧ wordAt data pos .big = some wanted.value.toNat then pos
      else findChunk data (min (pos + roundUp4 (skipAt data pos)) data.length) wanted := by
  rw [findChunk, dif_pos h]
  split
  · next heq =>
    rw [probe_candidates h] at heq
    split at heq
    · rw [if_pos ‹_›]
    · cases heq
  · next skip heq =>
    rw [probe_candidates h] at heq
    split at heq
    · cases heq
    · cases heq
      rw [if_neg ‹_›]

/-! ## What the scan finds -/

/-- The wanted tag's four bytes stand at `p`, on the four-byte grid of `start` and not before
it. -/
structure TagAt (data : List UInt8) (start : Nat) (wanted : ChunkId) (p : Nat) : Prop where
  known : wanted ≠ .invalid
  after : start ≤ p
  grid : p % 4 = start % 4
  fits : p + 4 ≤ data.length
  tag : (data.drop p).take 4 = wanted.tag

/-- Every position the scan reaches from `start` is on its grid, so wherever it stops short of
the end holds the wanted tag. -/
theorem findChunk_sound_from (data : List UInt8) (start : Nat) (wanted : ChunkId) (pos : Nat)
    (hstart : start ≤ pos) (hgrid : pos % 4 = start % 4) :
    findChunk data pos wanted = data.length ∨ TagAt data start wanted (findChunk data pos wanted) := by
  by_cases hp : pos < data.length
  · rw [findChunk_of_lt hp]
    by_cases hw : wanted ≠ .invalid ∧ wordAt data pos .big = some wanted.value.toNat
    · rw [if_pos hw]
      exact .inr ⟨hw.1, hstart, hgrid, (wordAt_eq_some.1 hw.2).1, take_four_of_wordAt hw.2⟩
    · rw [if_neg hw]
      have hskip := skipAt_pos hp
      by_cases hend : data.length ≤ pos + roundUp4 (skipAt data pos)
      · rw [Nat.min_eq_right hend, findChunk_of_le (Nat.le_refl _)]
        exact .inl rfl
      · rw [Nat.min_eq_left (by omega)]
        -- A rounded skip is a whole number of words, so the next position stays on the grid.
        have hround : roundUp4 (skipAt data pos) % 4 = 0 := by unfold roundUp4; omega
        exact findChunk_sound_from data start wanted _ (by omega) (by omega)
  · rw [findChunk_of_le (by omega)]
    exact .inl rfl
termination_by data.length - pos
decreasing_by unfold roundUp4; omega

/-- A known chunk as it lies in a file: a header with a known tag, then, unless its length is the
sentinel, exactly the body the header announces and padding up to a multiple of four; a chunk
without a body of its own is its header alone. -/
structure Frame where
  header : ChunkHeader
  body : List UInt8
  padding : List UInt8
  known : header.label ∈ ChunkId.known.map ChunkId.value
  framed : if header.hasLength then
      body.length = header.datlen.toNat ∧ padding.length = roundUp4 body.length - body.length
    else body = [] ∧ padding = []

/-- The bytes of a chunk. -/
def Frame.bytes (c : Frame) : List UInt8 :=
  c.header.bytes ++ c.body ++ c.padding

/-- A word whose bytes stand at `pos` reads back there. -/
theorem wordAt_of_drop {data r : List UInt8} {pos n : Nat} {o : ByteOrder}
    (h : data.drop pos = o.encode 4 n ++ r) (hn : n < 2 ^ 32) : wordAt data pos o = some n := by
  have hlen := ByteOrder.length_encode o 4 n
  have hdrop := congrArg List.length h
  simp only [List.length_drop, List.length_append, hlen] at hdrop
  refine wordAt_eq_some.2 ⟨by omega, ?_⟩
  rw [h, List.take_left' hlen, ByteOrder.decode_encode]
  exact (Nat.mod_eq_of_lt (Nat.lt_of_lt_of_eq hn (by decide))).symm

/-- At a chunk the scan reads its tag, and its skip, rounded, covers the chunk exactly. -/
theorem scan_frame {data r : List UInt8} {pos : Nat} (d : Frame) (h : data.drop pos = d.bytes ++ r) :
    wordAt data pos .big = some d.header.label.toNat ∧ skipAt data pos = chunkSpan data pos ∧
      roundUp4 (chunkSpan data pos) = d.bytes.length := by
  obtain ⟨⟨label, p1, p2, len⟩, body, padding, known, framed⟩ := d
  simp only [Frame.bytes, ChunkHeader.bytes, List.append_assoc] at h ⊢
  have hword : wordAt data pos .big = some label.toNat := wordAt_of_drop h label.toNat_lt
  have hlen : wordAt data (pos + 12) .little = some len.toNat := by
    have hhead : (ByteOrder.big.encode 4 label.toNat ++ ByteOrder.little.encode 4 p1.toNat ++
        ByteOrder.little.encode 4 p2.toNat).length = 12 := by simp [ByteOrder.length_encode]
    refine wordAt_of_drop (r := body ++ padding ++ r) ?_ len.toNat_lt
    rw [← List.drop_drop, h]
    simpa using List.drop_left' hhead
  have hskip : skipAt data pos = chunkSpan data pos := by
    have hany : ChunkId.known.any (·.value.toNat == label.toNat) = true := by
      obtain ⟨c, hc, hv⟩ := List.mem_map.1 known
      exact List.any_eq_true.2 ⟨c, hc, by simp [hv]⟩
    simp [skipAt, hword, hany]
  refine ⟨hword, hskip, ?_⟩
  simp only [chunkSpan, hlen, List.length_append, ByteOrder.length_encode]
  by_cases hs : len = sentinelLength
  · have hnot : ChunkHeader.hasLength ⟨label, p1, p2, len⟩ = false := by
      simp [ChunkHeader.hasLength, hs]
    rw [hnot] at framed
    obtain ⟨rfl, rfl⟩ := framed
    simp [hs, roundUp4]
  · have hyes : ChunkHeader.hasLength ⟨label, p1, p2, len⟩ = true := by
      simp [ChunkHeader.hasLength, hs]
    rw [hyes] at framed
    obtain ⟨hbody, hpad⟩ := framed
    have hne : len.toNat ≠ sentinelLength.toNat := fun h => hs (UInt32.toNat_inj.1 h)
    simp only at hbody
    rw [if_neg hne, hpad, ← hbody]
    unfold roundUp4
    omega

/-- From the start of a run of framed chunks, the scan skips every chunk that is not wanted and
stops at the first that is. -/
theorem findChunk_first (data : List UInt8) (wanted : ChunkId) :
    ∀ (pre : List Frame) (start : Nat) (c : Frame) (post : List Frame) (rest : List UInt8),
      data.drop start = (pre ++ c :: post).flatMap Frame.bytes ++ rest →
      (∀ d ∈ pre, d.header.id ≠ wanted) → c.header.id = wanted →
      findChunk data start wanted = start + (pre.flatMap Frame.bytes).length
  | [], start, c, post, rest, h, _, hc => by
    have h' : data.drop start = c.bytes ++ (post.flatMap Frame.bytes ++ rest) := by simpa using h
    obtain ⟨hword, -, -⟩ := scan_frame c h'
    have hp : start < data.length := by
      have := (wordAt_eq_some.1 hword).1
      omega
    obtain ⟨hvalue, hknown⟩ := ChunkId.ofValue_of_mem c.known
    have hw : wanted ≠ .invalid ∧ wordAt data start .big = some wanted.value.toNat := by
      rw [← hc]
      exact ⟨hknown, by rw [hword, ChunkHeader.id, hvalue]⟩
    rw [findChunk_of_lt hp, if_pos hw]
    simp
  | d :: pre, start, c, post, rest, h, hpre, hc => by
    have h' : data.drop start = d.bytes ++ ((pre ++ c :: post).flatMap Frame.bytes ++ rest) := by
      simpa using h
    obtain ⟨hword, hskip, hround⟩ := scan_frame d h'
    have hdrop := congrArg List.length h'
    simp only [List.length_drop, List.length_append] at hdrop
    have hbytes : 16 ≤ d.bytes.length := by
      simp [Frame.bytes, ChunkHeader.bytes, ByteOrder.length_encode]
      omega
    have hp : start < data.length := by omega
    -- The tag here is this chunk's, which is not the wanted one.
    have hw : ¬(wanted ≠ .invalid ∧ wordAt data start .big = some wanted.value.toNat) := by
      rintro ⟨hknown, hwv⟩
      rw [hword, Option.some.injEq] at hwv
      apply hpre d (List.mem_cons_self ..)
      rw [ChunkHeader.id, UInt32.toNat_inj.1 hwv,
        ChunkId.ofValue_value wanted (ChunkId.mem_known_of_ne_invalid hknown)]
    rw [findChunk_of_lt hp, if_neg hw, hskip, hround, Nat.min_eq_left (by omega)]
    have hnext : data.drop (start + d.bytes.length) =
        (pre ++ c :: post).flatMap Frame.bytes ++ rest := by
      rw [← List.drop_drop, h', List.drop_left]
    rw [findChunk_first data wanted pre _ c post rest hnext (fun d' hd' => hpre d' (List.mem_cons_of_mem _ hd')) hc]
    simp [Nat.add_assoc]

/-- The chunk scan. Whatever it returns short of the end of the data is the wanted tag, on the
start's four-byte grid; and when the data from the start is a run of framed known chunks, it
returns the offset of the first chunk of the run with the wanted tag, whatever tags the bodies
skipped before it hold. -/
theorem findChunk_spec (data : List UInt8) (start : Nat) (wanted : ChunkId) :
    (findChunk data start wanted = data.length ∨
      TagAt data start wanted (findChunk data start wanted)) ∧
    ∀ (pre : List Frame) (c : Frame) (post : List Frame) (rest : List UInt8),
      data.drop start = (pre ++ c :: post).flatMap Frame.bytes ++ rest →
      (∀ d ∈ pre, d.header.id ≠ wanted) → c.header.id = wanted →
      findChunk data start wanted = start + (pre.flatMap Frame.bytes).length :=
  ⟨findChunk_sound_from data start wanted start (Nat.le_refl _) rfl,
    fun pre c post rest => findChunk_first data wanted pre start c post rest⟩

/-- A `prgi` chunk whose eight-byte body spells `eod `. -/
def prgiFrame : Frame :=
  ⟨⟨ChunkId.prgi.value, 0x4C1, 0xFF10, 8⟩, [0x65, 0x6F, 0x64, 0x20, 0, 0, 0, 0], [], by decide,
    by decide⟩

/-- An `eod ` chunk with an empty body. -/
def eodFrame : Frame :=
  ⟨⟨ChunkId.eod.value, 0x4C1, 0xFF10, 0⟩, [], [], by decide, by decide⟩

theorem findChunk_skips_tag_in_body :
    findChunk ([prgiFrame, eodFrame].flatMap Frame.bytes) 0 .eod = 24 :=
  (findChunk_spec _ 0 .eod).2 [prgiFrame] eodFrame [] [] (by simp) (by decide) (by decide)

end DungeonFormats.Sound
