import DungeonFormats.Bytes.Word
import DungeonFormats.Bytes.Cursor
import DungeonFormats.Bytes.Panic
import DungeonFormats.Sound.Chunk

/-!
# Song chunks

A sequence file opens with a song chunk: the tag `song`, then 44 bytes of little-endian fields,
of which only the track and channel counts are known to vary, then up to 16 bytes of `0xFF`
padding. Reading counts the padding as the leading `0xFF` bytes that follow, at most 16 of
them; writing refuses more than 16.
-/

namespace DungeonFormats.Sound

/-- A song chunk and the padding after it. -/
structure Song where
  unk1 : UInt32
  unk2 : UInt32
  unk3 : UInt32
  unk4 : UInt32
  unk5 : UInt16
  nbTracks : UInt8
  nbChannels : UInt8
  unk6 : UInt32
  unk7 : UInt32
  unk8 : UInt32
  unk9 : UInt32
  unk10 : UInt16
  unk11 : UInt16
  unk12 : UInt32
  /-- The number of `0xFF` bytes after the chunk. -/
  padding : UInt8
  deriving DecidableEq, Repr

namespace Song

/-- The most padding a song chunk has. -/
def maxPadding : Nat := 16

/-- The bytes the chunk takes with its padding. -/
def size (s : Song) : Nat :=
  48 + s.padding.toNat

/-- Why a song chunk could not be decoded. -/
inductive DecodeError where
  | cursor (f : ReadFault)
  /-- The chunk is tagged `label`, not `song`. -/
  | notSong (label : Nat)
  deriving DecidableEq, Repr

/-- The text of a decoding error. -/
def DecodeError.message : DecodeError → String
  | .cursor f => f.message
  | .notSong label => "expected song chunk, got " ++ Hex.padded 10 label

/-- Reads a song chunk and its padding. -/
def read (c : Cursor) : Except DecodeError (Song × Cursor) := do
  let (label, c) ← (c.word .big 4).mapError .cursor
  if label ≠ ChunkId.song.value.toNat then throw (.notSong label)
  let fields : Except ReadFault (Song × Cursor) := do
    let (unk1, c) ← c.u32
    let (unk2, c) ← c.u32
    let (unk3, c) ← c.u32
    let (unk4, c) ← c.u32
    let (unk5, c) ← c.u16
    let (nbTracks, c) ← c.u8
    let (nbChannels, c) ← c.u8
    let (unk6, c) ← c.u32
    let (unk7, c) ← c.u32
    let (unk8, c) ← c.u32
    let (unk9, c) ← c.u32
    let (unk10, c) ← c.u16
    let (unk11, c) ← c.u16
    let (unk12, c) ← c.u32
    let pad := ((c.rest.take maxPadding).takeWhile (· == 0xFF)).length
    let (_, c) ← c.take pad
    pure (⟨unk1, unk2, unk3, unk4, unk5, nbTracks, nbChannels, unk6, unk7, unk8, unk9, unk10,
      unk11, unk12, pad.toUInt8⟩, c)
  fields.mapError .cursor

/-- Why a song chunk could not be written. -/
inductive WriteError where
  /-- Padding longer than a song chunk may have. -/
  | paddingTooLong (padding : UInt8)
  /-- A run stopped outright. -/
  | panic (p : Panic)
  deriving DecidableEq, Repr

/-- The text of a writing error. -/
def WriteError.message : WriteError → String
  | .paddingTooLong p => "song chunk padding " ++ toString p.toNat ++ " too long"
  | .panic p => p.message

/-- The chunk's bytes without its padding. -/
def head (s : Song) : List UInt8 :=
  let w2 (v : UInt16) := ByteOrder.little.encode 2 v.toNat
  let w4 (v : UInt32) := ByteOrder.little.encode 4 v.toNat
  ChunkId.song.tag ++ w4 s.unk1 ++ w4 s.unk2 ++ w4 s.unk3 ++ w4 s.unk4 ++ w2 s.unk5 ++
    [s.nbTracks, s.nbChannels] ++ w4 s.unk6 ++ w4 s.unk7 ++ w4 s.unk8 ++ w4 s.unk9 ++
    w2 s.unk10 ++ w2 s.unk11 ++ w4 s.unk12

/-- The chunk's bytes with its padding. -/
def bytes (s : Song) : List UInt8 :=
  s.head ++ List.replicate s.padding.toNat 0xFF

/-- Writes the chunk with its padding, which must be at most 16 bytes. -/
def write (s : Song) : Except WriteError (List UInt8) := do
  if maxPadding < s.padding.toNat then throw (.paddingTooLong s.padding)
  let pad ← (slice (List.replicate maxPadding 0xFF) 0 s.padding.toNat).mapError .panic
  pure (s.head ++ pad)

end Song

end DungeonFormats.Sound
