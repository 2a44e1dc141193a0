import DungeonFormats.Bytes.Word
import DungeonFormats.Bytes.Cursor

/-!
# Sample descriptions

A sample is described by a 64-byte record of little-endian fields: identification, pitch
(signed), format, rate, where the sample data lies and its loop, and words of unknown use. The
format word is kept as stored so that unknown values survive; four values name a format.
-/

namespace DungeonFormats.Sound

/-- A sample's encoding. -/
inductive SampleFormat where
  | pcm8
  | pcm16
  | imaAdpcm
  | psg
  deriving DecidableEq, Repr

/-- The format's name. -/
def SampleFormat.name : SampleFormat → String
  | .pcm8 => "Pcm8"
  | .pcm16 => "Pcm16"
  | .imaAdpcm => "ImaAdpcm"
  | .psg => "Psg"

/-- The format a format word names, if any. -/
def SampleFormat.ofWord (w : UInt16) : Option SampleFormat :=
  if w = 0x000 then some .pcm8
  else if w = 0x100 then some .pcm16
  else if w = 0x200 then some .imaAdpcm
  else if w = 0x300 then some .psg
  else none

/-- A sample description, its fields in record order. -/
structure SampleInfo where
  unk1 : UInt16
  id : UInt16
  /-- Offset from the root key, in 1/250 semitone. -/
  pitchOffset : Int16
  rootKey : Int16
  unk4 : UInt16
  unk5 : UInt16
  unk6 : UInt16
  unk7 : UInt16
  version : UInt16
  /-- The stored format word. -/
  smplfmt : UInt16
  unk9 : UInt8
  unk14 : UInt8
  unk10 : UInt16
  unk11 : UInt16
  unk12 : UInt16
  unk13 : UInt32
  sampleRate : UInt32
  /-- Where the sample data starts in its chunk. -/
  samplePos : UInt32
  loopBegin : UInt32
  loopLen : UInt32
  unk17 : UInt8
  unk18 : UInt8
  unk19 : UInt8
  unk20 : UInt8
  unk21 : UInt16
  unk22 : UInt16
  unk23 : UInt16
  unk24 : UInt16
  unk25 : UInt16
  unk26 : UInt16
  deriving DecidableEq, Repr

namespace SampleInfo

/-- The size of the record. -/
def size : Nat := 64

/-- The named format of the sample, if its format word names one. -/
def format (s : SampleInfo) : Option SampleFormat :=
  SampleFormat.ofWord s.smplfmt

/-- Reads a sample record. -/
def read (c : Cursor) : Except ReadFault (SampleInfo × Cursor) := do
  let (unk1, c) ← c.u16
  let (id, c) ← c.u16
  let (pitchOffset, c) ← c.word .little 2
  let (rootKey, c) ← c.word .little 2
  let (unk4, c) ← c.u16
  let (unk5, c) ← c.u16
  let (unk6, c) ← c.u16
  let (unk7, c) ← c.u16
  let (version, c) ← c.u16
  let (smplfmt, c) ← c.u16
  let (unk9, c) ← c.u8
  let (unk14, c) ← c.u8
  let (unk10, c) ← c.u16
  let (unk11, c) ← c.u16
  let (unk12, c) ← c.u16
  let (unk13, c) ← c.u32
  let (sampleRate, c) ← c.u32
  let (samplePos, c) ← c.u32
  let (loopBegin, c) ← c.u32
  let (loopLen, c) ← c.u32
  let (unk17, c) ← c.u8
  let (unk18, c) ← c.u8
  let (unk19, c) ← c.u8
  let (unk20, c) ← c.u8
  let (unk21, c) ← c.u16
  let (unk22, c) ← c.u16
  let (unk23, c) ← c.u16
  let (unk24, c) ← c.u16
  let (unk25, c) ← c.u16
  let (unk26, c) ← c.u16
  pure (⟨unk1, id, Int16.ofInt (signedOf 2 pitchOffset),
    Int16.ofInt (signedOf 2 rootKey), unk4, unk5, unk6, unk7, version,
    smplfmt, unk9, unk14, unk10, unk11, unk12, unk13, sampleRate, samplePos, loopBegin, loopLen,
    unk17, unk18, unk19, unk20, unk21, unk22, unk23, unk24, unk25, unk26⟩, c)

/-- The record's 64 bytes. -/
def bytes (s : SampleInfo) : List UInt8 :=
  let w2 (v : UInt16) := ByteOrder.little.encode 2 v.toNat
  let w4 (v : UInt32) := ByteOrder.little.encode 4 v.toNat
  w2 s.unk1 ++ w2 s.id ++ ByteOrder.little.encode 2 (unsignedOf 2 s.pitchOffset.toInt) ++
    ByteOrder.little.encode 2 (unsignedOf 2 s.rootKey.toInt) ++ w2 s.unk4 ++ w2 s.unk5 ++
    w2 s.unk6 ++ w2 s.unk7 ++ w2 s.version ++ w2 s.smplfmt ++ [s.unk9, s.unk14] ++ w2 s.unk10 ++
    w2 s.unk11 ++ w2 s.unk12 ++ w4 s.unk13 ++ w4 s.sampleRate ++ w4 s.samplePos ++
    w4 s.loopBegin ++ w4 s.loopLen ++ [s.unk17, s.unk18, s.unk19, s.unk20] ++ w2 s.unk21 ++
    w2 s.unk22 ++ w2 s.unk23 ++ w2 s.unk24 ++ w2 s.unk25 ++ w2 s.unk26

end SampleInfo

end DungeonFormats.Sound
