import DungeonFormats.Bytes.Cursor
import DungeonFormats.Script.Basic
import DungeonFormats.Script.Catalog
import DungeonFormats.Script.Code
import DungeonFormats.Script.Grouping
import DungeonFormats.Script.Header
import DungeonFormats.Script.StringTable

/-!
# Reading a script file

A script file is its header, the data block (its own head, the group table and the code), the
constant pointer table with the constant strings, and one string table per language of the
region. The constant pointers count from the start of the constants but also span the first
string pointer table, which the reader takes away again. The string pointers count from the
start of the constants if there are any, and from the start of the string tables otherwise,
each language's table shifted by the lengths of the tables before it.
-/

namespace DungeonFormats.Script

/-- The string tables of the region's languages, `lens` giving each table's length in words,
from offset `off` past the first string table on. -/
def readLanguageTables (data : List UInt8) (stringStart base count : Nat) :
    List Language → List UInt16 → Nat → PerLanguage (List (List UInt8)) →
      Except DecodeError (PerLanguage (List (List UInt8)))
  | l :: ls, len :: lens, off, acc => do
    let t ← readTable data (stringStart + off) (base + off) count 0
    readLanguageTables data stringStart base count ls lens (off + 2 * len.toNat) (acc.set l t)
  | _, _, _, acc => .ok acc

/-- Reads a script of the game from the bytes of its file. -/
def decode (game : Game) (data : List UInt8) : Except DecodeError Script := do
  let r := game.region
  let cat := game.catalog
  let c := Cursor.start data
  let (h, c) ← (Header.read c r).mapError .cursor
  let headerLen := c.pos
  let (dh, c) ← (DataHeader.read c).mapError .cursor
  let dataLen := 2 * dh.dataLen.toNat
  let count := dh.groupCount.toNat
  let codeStart := 4 + 6 * count
  if dataLen < codeStart then throw (.groupsDoNotFit count dataLen)
  let (entries, c) ← (c.times GroupEntry.read count).mapError .cursor
  let blockCursor ← (c.seek headerLen).mapError .cursor
  let (block, _) ← (blockCursor.take dataLen).mapError .cursor
  let constStart := headerLen + dataLen
  let stringStart := h.stringStart headerLen
  let constCount := h.constCount.toNat
  let stringCount := h.stringCount.toNat
  let constants ← readTable data constStart constStart constCount (2 * stringCount)
  let base := if 0 < constCount then constStart else stringStart
  let strings ← readLanguageTables data stringStart base stringCount r.languages h.stringLens 0
    PerLanguage.empty
  let code ← Code.decode cat block codeStart
  let (groups, raw) := code.arrange cat entries codeStart dataLen
  pure ⟨groups, constants, strings, raw, h.unk1⟩

end DungeonFormats.Script
