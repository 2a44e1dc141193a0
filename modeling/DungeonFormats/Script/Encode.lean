import DungeonFormats.Bytes.Builder
import DungeonFormats.Script.Basic
import DungeonFormats.Script.Catalog
import DungeonFormats.Script.Param
import DungeonFormats.Script.Header
import DungeonFormats.Script.StringTable
import DungeonFormats.Script.EncodeError

/-!
# Writing a script file

`Script.encode` checks the string tables against the region, gives every placed label the
offset in the data block of the instruction after it (offsets run from the end of the group
table, a label taking no room), then writes the header, the data block, the constants and the
string tables in the layout `Script.decode` reads, placing each anchor with a checked placement. Header lengths, the data block's length and
each group's start are fields computed from anchors once everything is written.

A jump parameter is written as half its label's offset, which must stay below `0x4000` words
to read back as non-negative; a raw target is written as its recorded word.
-/

namespace DungeonFormats.Script

/-- The offset of every placed label, the first instruction at `o`; fails on a label placed
twice or placed and raw. `acc` holds the offsets found so far. -/
def placeLabels (cat : Catalog) (raw : List (LabelId × UInt16)) :
    List Instruction → Nat → List (LabelId × Nat) →
      Except EncodeError (List (LabelId × Nat))
  | [], _, acc => .ok acc
  | i :: is, o, acc => do
    let acc ← match i with
      | .label l =>
        if (acc.lookup l).isSome then throw (.definedTwice l)
        else if (raw.lookup l).isSome then throw (.definedAndRaw l)
        else pure ((l, o) :: acc)
      | _ => pure acc
    placeLabels cat raw is (o + cat.instructionSize i) acc

/-- Writes the parameters of a command from index `i` on, jump parameters as their targets. -/
def writeParams (info : OpcodeInfo) (targets : List (LabelId × Nat))
    (raw : List (LabelId × UInt16)) :
    Builder Anchor → Nat → List UInt16 → Except EncodeError (Builder Anchor)
  | b, _, [] => .ok b
  | b, i, p :: ps => do
    let b ← if (info.kindAt i).isJump then
        match targets.lookup ⟨p⟩ with
        | some o =>
          if o / 2 < 0x4000 then pure (b.u16 (o / 2).toUInt16) else throw (.jumpOutOfRange o)
        | none =>
          match raw.lookup ⟨p⟩ with
          | some w => pure (b.u16 w)
          | none => throw (.undefinedLabel info.name p)
      else pure (b.u16 p)
    writeParams info targets raw b (i + 1) ps

/-- Writes a command: its opcode, its count word if variadic, and its parameters. -/
def writeCommand (cat : Catalog) (targets : List (LabelId × Nat)) (raw : List (LabelId × UInt16))
    (b : Builder Anchor) (c : Command) : Except EncodeError (Builder Anchor) := do
  match cat.info c.opcode with
  | none => throw (.unknownOpcode c.opcode)
  | some info =>
    let b := b.u16 c.opcode
    let b ← match info.arity with
      | .fixed n =>
        if c.params.length = n.toNat then pure b
        else throw (.paramCount info.name n.toNat c.params.length)
      | .variadic =>
        if c.params.length < 0x4000 then pure (b.u16 c.params.length.toUInt16)
        else throw (.tooManyParams info.name)
    writeParams info targets raw b 0 c.params

/-- Writes the commands in order. -/
def writeCommands (cat : Catalog) (targets : List (LabelId × Nat))
    (raw : List (LabelId × UInt16)) :
    Builder Anchor → List Command → Except EncodeError (Builder Anchor)
  | b, [] => .ok b
  | b, c :: cs => do writeCommands cat targets raw (← writeCommand cat targets raw b c) cs

/-- Writes instructions in order: a data word as itself, a label as nothing, the rest as its
commands. -/
def writeInstructions (cat : Catalog) (targets : List (LabelId × Nat))
    (raw : List (LabelId × UInt16)) : Builder Anchor → List Instruction →
      Except EncodeError (Builder Anchor)
  | b, [] => .ok b
  | b, i :: is => do
    let b ← match i with
      | .data w => pure (b.u16 w)
      | .label _ => pure b
      | i => writeCommands cat targets raw b i.commands
    writeInstructions cat targets raw b is

/-- Writes each group's instructions after its anchor, the first group being number `n`. -/
def writeGroups (cat : Catalog) (targets : List (LabelId × Nat))
    (raw : List (LabelId × UInt16)) :
    Builder Anchor → Nat → List Group → Except EncodeError (Builder Anchor)
  | b, _, [] => .ok b
  | b, n, g :: gs => do
    let b ← (b.placeOnce (.group n)).mapError .panic
    let b ← writeInstructions cat targets raw b g.instructions
    writeGroups cat targets raw b (n + 1) gs

/-- Writes the group table: per group, its start as a field, its kind and its spare word. -/
def writeGroupTable (b : Builder Anchor) (gs : List Group) : Builder Anchor :=
  gs.zipIdx.foldl
    (fun b (g, i) => ((b.reserve (.words .dataStart (.group i))).u16 g.kind).u16 g.unk2) b

/-- Writes each language's string table between its anchors, the first being number `n`. -/
def writeLanguageTables (bias : Nat) :
    Builder Anchor → Nat → List (List (List UInt8)) → Except EncodeError (Builder Anchor)
  | b, _, [] => .ok b
  | b, n, t :: ts => do
    let b ← (b.placeOnce (.stringStart n)).mapError .panic
    let (b, _) ← writeTable b t bias (.stringData n)
    let b ← (b.placeOnce (.stringEnd n)).mapError .panic
    writeLanguageTables bias b (n + 1) ts

/-- The string tables of the region's languages, in its order. -/
def regionTables (s : Script) (r : Region) : Except EncodeError (List (List (List UInt8))) := do
  if s.strings.keys.length ≠ r.languages.length then throw (.tableCount r s.strings.keys)
  r.languages.mapM fun l =>
    match s.strings.get l with
    | some t => pure t
    | none => throw (.missingTable l)

/-- Writes a script of the game as the bytes of its file. -/
def encode (game : Game) (s : Script) : Except EncodeError (List UInt8) := do
  let r := game.region
  let cat := game.catalog
  let tables ← regionTables s r
  let stringCount := match tables with
    | t :: _ => t.length
    | [] => 0
  if tables.any (·.length ≠ stringCount) then throw .tablesDiffer
  let codeStart := 4 + 6 * s.groups.length
  let targets ← placeLabels cat s.rawTargets (s.groups.flatMap (·.instructions)) codeStart []
  let b ← writeHeader Builder.empty r s.constants.length stringCount s.unk1
  let b ← (b.placeOnce .dataStart).mapError .panic
  let b := b.reserve (.words .dataStart .codeEnd)
  let gc ← toWord s.groups.length
  let b := writeGroupTable (b.u16 gc) s.groups
  let b ← writeGroups cat targets s.rawTargets b 0 s.groups
  let b ← (b.placeOnce .codeEnd).mapError .panic
  let (b, constLen) ← writeTable b s.constants (2 * stringCount) .constData
  let b ← (b.placeOnce .constEnd).mapError .panic
  let b ← writeLanguageTables (2 * s.constants.length + constLen) b 0 tables
  match b.finish with
  | .ok bs => pure bs
  | .error f => throw (.build f)

end DungeonFormats.Script
