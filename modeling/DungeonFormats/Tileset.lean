import DungeonFormats.Text.Hex
import DungeonFormats.Bytes.Cursor
import DungeonFormats.Bytes.Builder
import DungeonFormats.Bytes.Panic

/-!
# Tileset containers

A tileset file holds an upper layer and possibly a lower one, each kept as opaque compressed
data. Its 28-byte header gives where the upper and the lower layer start (0 for no lower layer)
and six words describing each layer. The upper layer runs from its start to the start of the
lower layer, or to the end of the file; the lower layer runs to the end of the file. Decoding
needs `28 ≤ upper start ≤ upper end ≤ file length`; a missing lower layer's description is
ignored, and encoding writes zeros in its place. The layers are cut out of the file with checked
slices, and the writer places its two anchors with checked placements, so a run that would stop
outright ends in `panic` instead.
-/

namespace DungeonFormats

/-- The six header words describing a layer. -/
structure Tileset.LayerInfo where
  /-- The number of 8×8 tiles of four bits per pixel. -/
  nbtiles : UInt16
  unk2 : UInt16
  unk3 : UInt16
  unk4 : UInt16
  unk5 : UInt16
  /-- The decompressed size of the tile mapping after the tiles. -/
  tmapdeclen : UInt16
  deriving DecidableEq, Repr

/-- A layer: its description and its compressed data. -/
structure Tileset.Layer where
  info : Tileset.LayerInfo
  data : List UInt8
  deriving DecidableEq, Repr

/-- A tileset: the upper layer and an optional lower one. -/
structure Tileset where
  upper : Tileset.Layer
  lower : Option Tileset.Layer
  deriving DecidableEq, Repr

namespace Tileset

/-- The size of the header. -/
def headerSize : Nat := 28

/-- The description of no layer. -/
def LayerInfo.zero : LayerInfo :=
  ⟨0, 0, 0, 0, 0, 0⟩

/-- The six words of a layer description, in file order. -/
def LayerInfo.words (i : LayerInfo) : List UInt16 :=
  [i.nbtiles, i.unk2, i.unk3, i.unk4, i.unk5, i.tmapdeclen]

/-- Reads a layer description. -/
def LayerInfo.read (c : Cursor) : Except ReadFault (LayerInfo × Cursor) := do
  let (nbtiles, c) ← c.u16
  let (unk2, c) ← c.u16
  let (unk3, c) ← c.u16
  let (unk4, c) ← c.u16
  let (unk5, c) ← c.u16
  let (tmapdeclen, c) ← c.u16
  pure (⟨nbtiles, unk2, unk3, unk4, unk5, tmapdeclen⟩, c)

/-- Why a tileset could not be decoded. -/
inductive DecodeError where
  /-- The header runs off the bytes. -/
  | cursor (f : ReadFault)
  /-- The layer starts do not delimit layers within the file of `size` bytes. -/
  | badOffsets (upper lower size : Nat)
  /-- A layer cut out past the end of the file. -/
  | panic (p : Panic)
  deriving DecidableEq, Repr

/-- The text of a decoding error. -/
def DecodeError.message : DecodeError → String
  | .cursor f => f.message
  | .badOffsets u l n =>
    "bad layer offsets " ++ Hex.text u ++ ", " ++ Hex.text l ++ " in " ++ Hex.text n ++ " bytes"
  | .panic p => p.message

/-- Reads a tileset from the bytes of its file. -/
def decode (data : List UInt8) : Except DecodeError Tileset := do
  let c := Cursor.start data
  let (upperStart, c) ← c.u16.mapError .cursor
  let (lowerStart, c) ← c.u16.mapError .cursor
  let (upperInfo, c) ← (LayerInfo.read c).mapError .cursor
  let (lowerInfo, _) ← (LayerInfo.read c).mapError .cursor
  let u := upperStart.toNat
  let l := lowerStart.toNat
  let upperEnd := if l = 0 then data.length else l
  if headerSize ≤ u ∧ u ≤ upperEnd ∧ upperEnd ≤ data.length then
    let upperData ← (slice data u upperEnd).mapError .panic
    let lower ← if l = 0 then pure none else do
      let lowerData ← (sliceFrom data l).mapError .panic
      pure (some ⟨lowerInfo, lowerData⟩)
    pure ⟨⟨upperInfo, upperData⟩, lower⟩
  else throw (.badOffsets u l data.length)

/-- The positions a tileset's header refers to. -/
inductive Anchor where
  | upper
  | lower
  deriving DecidableEq, Repr

/-- The anchor's name. -/
def Anchor.name : Anchor → String
  | .upper => "upper"
  | .lower => "lower"

/-- Why a tileset could not be encoded. -/
inductive EncodeError where
  /-- A start that the builder could not write. -/
  | build (f : BuildFault Anchor)
  /-- An anchor placed twice. -/
  | panic (p : Panic)
  deriving DecidableEq, Repr

/-- The text of an encoding error. -/
def EncodeError.message : EncodeError → String
  | .build f => f.message fun a => "Label(" ++ a.name ++ ")"
  | .panic p => p.message

/-- Writes a tileset as the bytes of its file; the lower layer's start must fit in 16 bits. -/
def encode (t : Tileset) : Except EncodeError (List UInt8) := do
  let b : Builder Anchor := Builder.empty.reserve (.position .upper 2 .little)
  let b := match t.lower with
    | some _ => b.reserve (.position .lower 2 .little)
    | none => b.u16 0
  let lowerInfo := match t.lower with
    | some l => l.info
    | none => LayerInfo.zero
  let b := (t.upper.info.words ++ lowerInfo.words).foldl Builder.u16 b
  let b ← (b.placeOnce .upper).mapError .panic
  let b := b.append t.upper.data
  let b ← match t.lower with
    | some l => do
      let b ← (b.placeOnce .lower).mapError .panic
      pure (b.append l.data)
    | none => pure b
  b.finish.mapError .build

end Tileset

end DungeonFormats
