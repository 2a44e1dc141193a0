import DungeonFormats.Text.Hex
import DungeonFormats.Bytes.Cursor
import DungeonFormats.Bytes.Panic

/-!
# Why a script could not be decoded

A script fails to decode when a read runs off its bytes, or when the bytes break a rule of the
format: an opcode that the catalog does not describe, a group table longer than the data block
it heads, or a string pointer that leads before the start of the file. A reader that would
stop outright ends in `panic` instead.
-/

namespace DungeonFormats.Script

/-- Why a script, or a part of one, could not be decoded. -/
inductive DecodeError where
  /-- A read ran off the bytes. -/
  | cursor (f : ReadFault)
  /-- The opcode `op` at `pos` of the data block has no description. -/
  | unknownOpcode (op : UInt16) (pos : Nat)
  /-- Group entries, `count` of them, do not fit in a data block of `dataLen` bytes. -/
  | groupsDoNotFit (count dataLen : Nat)
  /-- The string pointer `ptr`, read at `pos`, leads before the file. -/
  | pointerBeforeFile (ptr pos : Nat)
  /-- A read stopped outright. -/
  | panic (p : Panic)
  deriving DecidableEq, Repr

/-- The text of a decoding error. -/
def DecodeError.message : DecodeError → String
  | .cursor f => f.message
  | .unknownOpcode op pos => "unknown opcode " ++ Hex.padded 6 op.toNat ++ " at " ++ Hex.text pos
  | .groupsDoNotFit n len =>
    toString n ++ " groups do not fit in a data block of " ++ Hex.text len ++ " bytes"
  | .pointerBeforeFile ptr pos =>
    "string pointer " ++ Hex.text ptr ++ " at " ++ Hex.text pos ++ " points before the file"
  | .panic p => p.message

end DungeonFormats.Script
