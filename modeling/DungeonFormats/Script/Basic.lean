import DungeonFormats.Release
import DungeonFormats.Script.Catalog

/-!
# Scripts

A script is a list of groups of instructions, a table of constant strings, one table of strings
per language of its region, the jump targets that fall on no instruction, and one spare header
word. On disk an instruction is a command (an opcode and its parameter words) or a data word
(`Item`); in memory a label marks the instruction a jump lands on, and commands that belong
together are folded into one instruction: a switch or a special process with the branches after
it, and an entity accessor with the attribute command after it.

Sizes are in bytes on disk: a data word takes 2, a label nothing, a command 2 for its opcode, 2
per parameter and 2 more for the count word of a variadic opcode.
-/

namespace DungeonFormats

namespace Script

/-- The id of a jump target. Jump parameters of commands hold it in place of the target. -/
structure LabelId where
  val : UInt16
  deriving DecidableEq, Repr

/-- An opcode and its parameter words, without the count word of a variadic opcode; jump
parameters hold label ids. -/
structure Command where
  opcode : UInt16
  params : List UInt16
  deriving DecidableEq, Repr

/-- One unit of the word stream on disk: a command, or a word that is no opcode. -/
inductive Item where
  | command (c : Command)
  | data (w : UInt16)
  deriving DecidableEq, Repr

/-- One instruction of a group. -/
inductive Instruction where
  | command (c : Command)
  | data (w : UInt16)
  /-- Marks the next instruction as the target of the label. -/
  | label (id : LabelId)
  /-- A switch and its branches. -/
  | switch (head : Command) (arms : List Command)
  /-- A special process and the branches on its return value. -/
  | special (head : Command) (arms : List Command)
  /-- An entity accessor and the attribute command on the entity. -/
  | accessor (head attr : Command)
  deriving DecidableEq, Repr

/-- The commands an instruction stands for on disk, in order. -/
def Instruction.commands : Instruction → List Command
  | .command c => [c]
  | .data _ => []
  | .label _ => []
  | .switch c cs => c :: cs
  | .special c cs => c :: cs
  | .accessor c a => [c, a]

/-- The stream items an instruction stands for on disk, in order. -/
def Instruction.items : Instruction → List Item
  | .data w => [.data w]
  | i => i.commands.map .command

/-- A group of instructions with its two header words. -/
structure Group where
  kind : UInt16
  unk2 : UInt16
  instructions : List Instruction
  deriving DecidableEq, Repr

/-- An entry of the group table at the head of the data block: where the group starts, in words
from the start of the block, and its two header words. -/
structure GroupEntry where
  start : UInt16
  kind : UInt16
  unk2 : UInt16
  deriving DecidableEq, Repr

end Script

/-- A whole script. -/
structure Script where
  groups : List Script.Group
  constants : List (List UInt8)
  /-- One table per language of the region, all of one length. -/
  strings : PerLanguage (List (List UInt8))
  /-- Jump targets on no instruction, by label id in increasing order, each with the
  parameter word written for it. -/
  rawTargets : List (Script.LabelId × UInt16)
  /-- The last header word of North American and Japanese scripts; always 0 in Europe. -/
  unk1 : UInt16
  deriving DecidableEq, Repr

namespace Script

/-- Adds a raw target, replacing one with the same id, keeping ids in increasing order. -/
def insertRawTarget (l : LabelId) (w : UInt16) :
    List (LabelId × UInt16) → List (LabelId × UInt16)
  | [] => [(l, w)]
  | (l', w') :: rest =>
    if l.val < l'.val then (l, w) :: (l', w') :: rest
    else if l.val = l'.val then (l, w) :: rest
    else (l', w') :: insertRawTarget l w rest

/-- The bytes a command takes on disk. -/
def Catalog.commandSize (cat : Catalog) (c : Command) : Nat :=
  2 + 2 * c.params.length + (if cat.isVariadic c.opcode then 2 else 0)

/-- The bytes an item takes on disk. -/
def Catalog.itemSize (cat : Catalog) : Item → Nat
  | .command c => cat.commandSize c
  | .data _ => 2

/-- The bytes that items take on disk, together. -/
def Catalog.itemsSize (cat : Catalog) : List Item → Nat
  | [] => 0
  | i :: is => cat.itemSize i + cat.itemsSize is

/-- The bytes that commands take on disk, together. -/
def Catalog.commandsSize (cat : Catalog) : List Command → Nat
  | [] => 0
  | c :: cs => cat.commandSize c + cat.commandsSize cs

/-- The bytes an instruction takes on disk. -/
def Catalog.instructionSize (cat : Catalog) : Instruction → Nat
  | .data _ => 2
  | .label _ => 0
  | i => cat.commandsSize i.commands

end Script

end DungeonFormats
