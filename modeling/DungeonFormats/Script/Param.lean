/-!
# Parameter values

The game reads a parameter word as a 15-bit two's-complement number (bit 14 is the sign, bit 15
is ignored for it), and when bit 15 is set it also divides that number by 256, rounding toward
zero. Jump parameters hold the word offset of their target this way, so a target's byte offset
is twice the value.
-/

namespace DungeonFormats.Script

/-- The value the game reads from a parameter word. -/
def paramValue (w : UInt16) : Int :=
  let v := Int.bmod (w.toNat % 0x8000 : Nat) 0x8000
  if 0x8000 ≤ w.toNat then v.tdiv 256 else v

/-- The byte offset a jump parameter word points to, from the start of the data block. -/
def jumpTarget (w : UInt16) : Int :=
  2 * paramValue w

example : paramValue 0x4000 = -0x4000 ∧ paramValue 0x7FFF = -1 ∧ paramValue 0x8100 = 1 ∧
    paramValue 0x80FF = 0 ∧ paramValue 0xC000 = -64 ∧ paramValue 0xFFFF = 0 := by
  decide

end DungeonFormats.Script
