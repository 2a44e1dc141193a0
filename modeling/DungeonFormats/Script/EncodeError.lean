import DungeonFormats.Text.Hex
import DungeonFormats.Release
import DungeonFormats.Bytes.Builder
import DungeonFormats.Bytes.Panic
import DungeonFormats.Script.Basic

/-!
# Why a script could not be encoded

A script fails to encode when it breaks a rule that its bytes could not express: its string
tables do not match its region, a label is placed twice or is also raw, a command does not fit
its opcode's description, a jump leads to no label or too far, a string holds a NUL, or a number
does not fit its 16-bit field; a writer that would stop outright ends in `panic` instead. `Anchor` names the positions that the header and the group
table refer to while a script is built.
-/

namespace DungeonFormats.Script

/-- A position that a script's header or group table refers to. -/
inductive Anchor where
  /-- The start of the data block. -/
  | dataStart
  /-- The end of the code in the data block. -/
  | codeEnd
  /-- The first instruction of group `i`. -/
  | group (i : Nat)
  /-- The start of the constant strings, after their pointer table. -/
  | constData
  /-- The end of the constant strings. -/
  | constEnd
  /-- The start of the string table of the `i`-th language of the region. -/
  | stringStart (i : Nat)
  /-- The start of its strings, after the pointer table. -/
  | stringData (i : Nat)
  /-- Its end. -/
  | stringEnd (i : Nat)
  deriving DecidableEq, Repr

/-- The anchor's name. -/
def Anchor.name : Anchor → String
  | .dataStart => "dataStart"
  | .codeEnd => "codeEnd"
  | .group i => "group " ++ toString i
  | .constData => "constData"
  | .constEnd => "constEnd"
  | .stringStart i => "stringStart " ++ toString i
  | .stringData i => "stringData " ++ toString i
  | .stringEnd i => "stringEnd " ++ toString i

/-- Why a script, or a part of one, could not be encoded. -/
inductive EncodeError where
  /-- The region needs other string tables than those given. -/
  | tableCount (region : Region) (given : List Language)
  /-- No string table for a language of the region. -/
  | missingTable (l : Language)
  /-- The string tables are not all of one length. -/
  | tablesDiffer
  /-- A label placed twice. -/
  | definedTwice (l : LabelId)
  /-- A label both placed and raw. -/
  | definedAndRaw (l : LabelId)
  /-- A European header has no room for a nonzero spare word. -/
  | europeanUnk1 (v : UInt16)
  /-- A number that a 16-bit field cannot hold. -/
  | exceedsWord (value : Nat)
  /-- A command of an opcode the catalog does not describe. -/
  | unknownOpcode (op : UInt16)
  /-- A command with another number of parameters than its opcode takes. -/
  | paramCount (name : String) (expected given : Nat)
  /-- A variadic command with too many parameters for its count word. -/
  | tooManyParams (name : String)
  /-- A jump to a label whose offset a parameter cannot hold. -/
  | jumpOutOfRange (offset : Nat)
  /-- A jump to a label that is neither placed nor raw. -/
  | undefinedLabel (name : String) (param : UInt16)
  /-- A string that holds a NUL byte. -/
  | nulInString (s : List UInt8)
  /-- A header or group field that could not be computed. -/
  | build (f : BuildFault Anchor)
  /-- A write stopped outright. -/
  | panic (p : Panic)
  deriving DecidableEq, Repr

/-- The text of an encoding error. -/
def EncodeError.message : EncodeError → String
  | .tableCount r given =>
    r.name ++ " scripts have " ++ toString r.languages.length ++ " string tables, got [" ++
      ", ".intercalate (given.map Language.name) ++ "]"
  | .missingTable l => "missing " ++ l.name ++ " string table"
  | .tablesDiffer => "string tables differ in length"
  | .definedTwice l => "LabelId(" ++ toString l.val.toNat ++ ") is defined twice"
  | .definedAndRaw l => "LabelId(" ++ toString l.val.toNat ++ ") is both defined and raw"
  | .europeanUnk1 v => "European headers have no room for unk1 " ++ Hex.text v.toNat
  | .exceedsWord v =>
    "cannot convert " ++ toString v ++ " into u16\nnumber too large to fit in target type"
  | .unknownOpcode op => "unknown opcode " ++ Hex.padded 6 op.toNat
  | .paramCount name n given =>
    name ++ " takes " ++ toString n ++ " parameters, got " ++ toString given
  | .tooManyParams name => "too many parameters for " ++ name
  | .jumpOutOfRange o => "jump target " ++ Hex.text o ++ " is out of range"
  | .undefinedLabel name p => name ++ " jumps to undefined label " ++ toString p.toNat
  | .nulInString s => nulStringMessage s
  | .build f => f.message fun a => "Label(" ++ a.name ++ ")"
  | .panic p => p.message

/-- The number `n` as a 16-bit word, if it fits. -/
def toWord (n : Nat) : Except EncodeError UInt16 :=
  if n < 65536 then .ok n.toUInt16 else .error (.exceedsWord n)

end DungeonFormats.Script
