import DungeonFormats.Bytes.Cursor
import DungeonFormats.Bytes.Builder
import DungeonFormats.Release
import DungeonFormats.Script.Basic
import DungeonFormats.Script.EncodeError

/-!
# Script headers

A script file opens with a header of 16-bit little-endian words: the number of constants, the
number of strings per language, the length of the data block with the constant pointer table,
the length of the constant strings, and the length of each language's string table, all
lengths in words. North American and Japanese headers have one string table and a spare last
word (12 bytes); European headers have five string tables and no spare word (18 bytes).

The data block that follows opens with its own length in words and the number of groups, then
one entry per group.
-/

namespace DungeonFormats.Script

/-- The file header of a script. -/
structure Header where
  constCount : UInt16
  stringCount : UInt16
  /-- Words of the data block and the constant pointer table. -/
  scriptLen : UInt16
  /-- Words of the constant strings, without their pointer table. -/
  constLen : UInt16
  /-- Words of each language's string table, pointer table included. -/
  stringLens : List UInt16
  unk1 : UInt16
  deriving DecidableEq, Repr

namespace Header

/-- The header's size in bytes. -/
def size : Region → Nat
  | .europe => 18
  | _ => 12

/-- Reads the header of a script of the region. -/
def read (c : Cursor) (r : Region) : Except ReadFault (Header × Cursor) := do
  let (constCount, c) ← c.u16
  let (stringCount, c) ← c.u16
  let (scriptLen, c) ← c.u16
  let (constLen, c) ← c.u16
  match r with
  | .europe =>
    let (lens, c) ← c.times Cursor.u16 5
    pure (⟨constCount, stringCount, scriptLen, constLen, lens, 0⟩, c)
  | _ =>
    let (len, c) ← c.u16
    let (unk1, c) ← c.u16
    pure (⟨constCount, stringCount, scriptLen, constLen, [len], unk1⟩, c)

/-- Where the first string table starts, the header being `headerLen` bytes. -/
def stringStart (h : Header) (headerLen : Nat) : Nat :=
  headerLen + 2 * h.scriptLen.toNat + 2 * h.constLen.toNat

end Header

/-- The head of the data block: its length in words and the number of groups. -/
structure DataHeader where
  dataLen : UInt16
  groupCount : UInt16
  deriving DecidableEq, Repr

/-- Reads the head of a data block. -/
def DataHeader.read (c : Cursor) : Except ReadFault (DataHeader × Cursor) := do
  let (dataLen, c) ← c.u16
  let (groupCount, c) ← c.u16
  pure (⟨dataLen, groupCount⟩, c)

/-- Reads a group entry. -/
def GroupEntry.read (c : Cursor) : Except ReadFault (GroupEntry × Cursor) := do
  let (start, c) ← c.u16
  let (kind, c) ← c.u16
  let (unk2, c) ← c.u16
  pure (⟨start, kind, unk2⟩, c)

/-- Appends a header whose lengths are fields over the anchors of the data block, the constant
strings and each language's string table. -/
def writeHeader (b : Builder Anchor) (r : Region) (constCount stringCount : Nat) (unk1 : UInt16) :
    Except EncodeError (Builder Anchor) := do
  if r = .europe ∧ unk1 ≠ 0 then throw (.europeanUnk1 unk1)
  let cc ← toWord constCount
  let sc ← toWord stringCount
  let b := ((b.u16 cc).u16 sc).reserve (.words .dataStart .constData)
  let b := b.reserve (.words .constData .constEnd)
  let b := (List.range r.languages.length).foldl
    (fun b i => b.reserve (.words (.stringStart i) (.stringEnd i))) b
  pure (if r = .europe then b else b.u16 unk1)

end DungeonFormats.Script
