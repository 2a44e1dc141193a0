import DungeonFormats.Bytes.Word
import DungeonFormats.Bytes.Cursor

/-!
# Sound chunks

Sound files are sequences of chunks. A chunk opens with a 16-byte header: a four-letter tag
stored big-endian so that it reads as text, two parameters and the length of the body, all
other words little-endian. A body length of `0xFFFFFFB0` means the chunk has no body of its
own. Eleven tags are known.

`findChunk` scans from a start offset for the next chunk with a wanted tag. At each position it
takes the known tags that start with the byte there and, for each, looks at the four bytes there:
the wanted tag ends the scan; the candidate's tag skips the whole chunk (only its header if it has
no body, everything to the end if its length field is cut off); with no candidate matching, it
skips four bytes. Every skip is rounded up to a multiple of four, so the scan
stays on the start's four-byte grid until it reaches the end, which it returns when nothing is
found.
-/

namespace DungeonFormats.Sound

/-- The tag of a chunk. -/
inductive ChunkId where
  | wavi
  | prgi
  | kgrp
  | pcmd
  | song
  | trk
  | seq
  | bnkl
  | mcrl
  | eoc
  | eod
  /-- Any other tag. -/
  | invalid
  deriving DecidableEq, Repr

namespace ChunkId

/-- The tag's four bytes read as a big-endian word; 0 for an unknown tag. -/
def value : ChunkId → UInt32
  | wavi => 0x77617669
  | prgi => 0x70726769
  | kgrp => 0x6B677270
  | pcmd => 0x70636D64
  | song => 0x736F6E67
  | trk => 0x74726B20
  | seq => 0x73657120
  | bnkl => 0x626E6B6C
  | mcrl => 0x6D63726C
  | eoc => 0x656F6320
  | eod => 0x656F6420
  | invalid => 0

/-- The known tags, in their fixed order. -/
def known : List ChunkId :=
  [wavi, prgi, kgrp, pcmd, song, trk, seq, bnkl, mcrl, eoc, eod]

/-- The tag's name. -/
def name : ChunkId → String
  | wavi => "Wavi"
  | prgi => "Prgi"
  | kgrp => "Kgrp"
  | pcmd => "Pcmd"
  | song => "Song"
  | trk => "Trk"
  | seq => "Seq"
  | bnkl => "Bnkl"
  | mcrl => "Mcrl"
  | eoc => "Eoc"
  | eod => "Eod"
  | invalid => "Invalid"

/-- The known tag whose word is `v`, or `invalid`. -/
def ofValue (v : UInt32) : ChunkId :=
  (known.find? (·.value == v)).getD invalid

/-- The tag's four bytes as stored. -/
def tag (id : ChunkId) : List UInt8 :=
  ByteOrder.big.encode 4 id.value.toNat

/-- The known tags whose first byte is `b`, in their fixed order. -/
def candidates (b : UInt8) : List ChunkId :=
  known.filter fun id => id.tag.head? == some b

end ChunkId

/-- The body length of a chunk without a body of its own. -/
def sentinelLength : UInt32 := 0xFFFFFFB0

/-- A chunk header. -/
structure ChunkHeader where
  /-- The tag, read big-endian. -/
  label : UInt32
  param1 : UInt32
  param2 : UInt32
  /-- The body length, or `sentinelLength`. -/
  datlen : UInt32
  deriving DecidableEq, Repr

namespace ChunkHeader

/-- The header's tag. -/
def id (h : ChunkHeader) : ChunkId :=
  ChunkId.ofValue h.label

/-- The header gives a body length. -/
def hasLength (h : ChunkHeader) : Bool :=
  h.datlen != sentinelLength

/-- Reads a chunk header. -/
def read (c : Cursor) : Except ReadFault (ChunkHeader × Cursor) := do
  let (label, c) ← c.word .big 4
  let (param1, c) ← c.u32
  let (param2, c) ← c.u32
  let (datlen, c) ← c.u32
  pure (⟨label.toUInt32, param1, param2, datlen⟩, c)

/-- The header's 16 bytes. -/
def bytes (h : ChunkHeader) : List UInt8 :=
  ByteOrder.big.encode 4 h.label.toNat ++ ByteOrder.little.encode 4 h.param1.toNat ++
    ByteOrder.little.encode 4 h.param2.toNat ++ ByteOrder.little.encode 4 h.datlen.toNat

end ChunkHeader

/-- The four-byte word at `pos` of `data` in the order `o`, if all four bytes are there. -/
def wordAt (data : List UInt8) (pos : Nat) (o : ByteOrder) : Option Nat :=
  let bs := (data.drop pos).take 4
  if bs.length = 4 then some (o.decode bs) else none

/-- How far a known chunk at `pos` reaches: its header, or its header and body, or, when its
length field is cut off, everything to the end of `data`. -/
def chunkSpan (data : List UInt8) (pos : Nat) : Nat :=
  match wordAt data (pos + 12) .little with
  | some len => if len = sentinelLength.toNat then 16 else 16 + len
  | none => data.length - pos

/-- How many bytes the scan skips at `pos` before rounding: a known chunk's span, or four. -/
def skipAt (data : List UInt8) (pos : Nat) : Nat :=
  match wordAt data pos .big with
  | some label => if ChunkId.known.any (·.value.toNat == label) then chunkSpan data pos else 4
  | none => 4

/-- The number `n` rounded up to a multiple of four. -/
def roundUp4 (n : Nat) : Nat :=
  (n + 3) / 4 * 4

theorem chunkSpan_pos {data : List UInt8} {pos : Nat} (h : pos < data.length) :
    0 < chunkSpan data pos := by
  unfold chunkSpan
  split
  · split <;> omega
  · omega

/-- The scan moves at least one byte on. -/
theorem skipAt_pos {data : List UInt8} {pos : Nat} (h : pos < data.length) :
    0 < skipAt data pos := by
  unfold skipAt
  split
  · split
    · exact chunkSpan_pos h
    · decide
  · decide

/-- What the scan makes of the known tags `cs` that share the byte at `pos`, taken in order: for
each it reads the four bytes at `pos` (with fewer left it skips four), stops if they spell the
wanted tag, and skips the whole chunk if they spell the candidate's; past the last candidate it
skips four. `none` stops the scan at `pos`; `some n` skips `n` bytes before rounding. -/
def probe (data : List UInt8) (pos : Nat) (wanted : ChunkId) : List ChunkId → Option Nat
  | [] => some 4
  | c :: cs =>
    match wordAt data pos .big with
    | none => some 4
    | some label =>
      if label = wanted.value.toNat ∧ wanted ≠ .invalid then none
      else if label = c.value.toNat then some (chunkSpan data pos)
      else probe data pos wanted cs

/-- A skip moves the scan at least one byte on. -/
theorem probe_pos {data : List UInt8} {pos : Nat} {wanted : ChunkId} {cs : List ChunkId}
    {n : Nat} (h : pos < data.length) (hp : probe data pos wanted cs = some n) : 0 < n := by
  induction cs with
  | nil =>
    cases hp
    decide
  | cons c cs ih =>
    simp only [probe] at hp
    split at hp
    · cases hp
      decide
    · split at hp
      · cases hp
      · split at hp
        · cases hp
          exact chunkSpan_pos h
        · exact ih hp

/-- The offset of the next chunk tagged `wanted` at or after `pos`, or the length of `data`. At
each position the scan probes the known tags that start with the byte there. -/
def findChunk (data : List UInt8) (pos : Nat) (wanted : ChunkId) : Nat :=
  if h : pos < data.length then
    match hp : probe data pos wanted (ChunkId.candidates data[pos]) with
    | none => pos
    | some skip => findChunk data (min (pos + roundUp4 skip) data.length) wanted
  else data.length
termination_by data.length - pos
decreasing_by
  have := probe_pos h hp
  unfold roundUp4
  omega

end DungeonFormats.Sound
