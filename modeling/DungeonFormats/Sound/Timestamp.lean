import DungeonFormats.Bytes.Word
import DungeonFormats.Bytes.Cursor

/-!
# Time stamps

Every sound file header carries an eight-byte time stamp: a little-endian year, then month, day,
hour, minute, second and hundredths of a second, one byte each. It is shown as
`year/month/day-hourHminuteMsecondS` with lowercase unit letters and no padding.
-/

namespace DungeonFormats.Sound

/-- A time stamp. -/
structure Timestamp where
  year : UInt16
  month : UInt8
  /-- Counted from zero. -/
  day : UInt8
  hour : UInt8
  minute : UInt8
  second : UInt8
  centsec : UInt8
  deriving DecidableEq, Repr

namespace Timestamp

/-- Reads a time stamp. -/
def read (c : Cursor) : Except ReadFault (Timestamp × Cursor) := do
  let (year, c) ← c.u16
  let (month, c) ← c.u8
  let (day, c) ← c.u8
  let (hour, c) ← c.u8
  let (minute, c) ← c.u8
  let (second, c) ← c.u8
  let (centsec, c) ← c.u8
  pure (⟨year, month, day, hour, minute, second, centsec⟩, c)

/-- The time stamp's eight bytes. -/
def bytes (t : Timestamp) : List UInt8 :=
  ByteOrder.little.encode 2 t.year.toNat ++
    [t.month, t.day, t.hour, t.minute, t.second, t.centsec]

/-- The time stamp as text. -/
def display (t : Timestamp) : String :=
  toString t.year.toNat ++ "/" ++ toString t.month.toNat ++ "/" ++ toString t.day.toNat ++ "-" ++
    toString t.hour.toNat ++ "h" ++ toString t.minute.toNat ++ "m" ++ toString t.second.toNat ++ "s"

end Timestamp

end DungeonFormats.Sound
