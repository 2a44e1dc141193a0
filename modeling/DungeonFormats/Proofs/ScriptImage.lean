import Mathlib
import DungeonFormats.Script.Encode

/-!
# The two passes of writing a script

Writing a script does two things, which this module separates. It first resolves labels: each
jump parameter becomes the word written for it, half its label's offset or the word of its raw
target, and each group becomes the items of its code as they stand on disk (`Script.image`).
It then lays the result out (`Image.bytes`): the header, the data block with its group table
and code, the constant strings' table and one string table per language, every length and start
computed from the parts. `Image.Fits` collects what the layout asks of the numbers it writes as
16-bit words.
-/

namespace DungeonFormats.Script

/-- A little-endian 16-bit word. -/
def word16 (n : Nat) : List UInt8 :=
  ByteOrder.little.encode 2 n

/-- Little-endian 16-bit words, one after another. -/
def wordBytes (ws : List Nat) : List UInt8 :=
  ws.flatMap word16

/-- The words an item stands for on disk: a command's opcode, its count word if the opcode is
variadic, then its parameters. -/
def Catalog.itemWords (cat : Catalog) : Item → List UInt16
  | .data w => [w]
  | .command c =>
    c.opcode :: ((if cat.isVariadic c.opcode then [c.params.length.toUInt16] else []) ++ c.params)

/-- The bytes of items on disk. -/
def Catalog.codeBytes (cat : Catalog) (items : List Item) : List UInt8 :=
  wordBytes ((items.flatMap cat.itemWords).map UInt16.toNat)

/-! ## String tables -/

/-- The pointers of strings whose first lies `pos` bytes after the start of their table, each
plus `bias`. -/
def pointerValues (bias : Nat) : Nat → List (List UInt8) → List Nat
  | _, [] => []
  | pos, s :: ss => (bias + pos) :: pointerValues bias (pos + s.length + 1) ss

@[simp] theorem length_pointerValues (bias pos : Nat) (ss : List (List UInt8)) :
    (pointerValues bias pos ss).length = ss.length := by
  induction ss generalizing pos with
  | nil => rfl
  | cons s ss ih => simp [pointerValues, ih]

/-- Each pointer lies at or past the first string's. -/
theorem le_of_mem_pointerValues {bias pos p : Nat} {ss : List (List UInt8)}
    (h : p ∈ pointerValues bias pos ss) : bias + pos ≤ p := by
  induction ss generalizing pos with
  | nil => simp [pointerValues] at h
  | cons s ss ih =>
    simp only [pointerValues, List.mem_cons] at h
    rcases h with rfl | h
    · exact le_rfl
    · have := ih h
      omega

/-- Each pointer lies before the end of the strings with their NULs. -/
theorem lt_of_mem_pointerValues {bias pos p : Nat} {ss : List (List UInt8)}
    (h : p ∈ pointerValues bias pos ss) : p < bias + pos + (ss.flatMap (· ++ [0])).length := by
  induction ss generalizing pos with
  | nil => simp [pointerValues] at h
  | cons s ss ih =>
    simp only [pointerValues, List.mem_cons] at h
    simp only [List.flatMap_cons, List.length_append, List.length_singleton]
    rcases h with rfl | h
    · omega
    · have := ih h
      omega

/-- The strings of a table, each with its NUL, padded to an even length. -/
def tableBody (strings : List (List UInt8)) : List UInt8 :=
  strings.flatMap (· ++ [0]) ++ List.replicate ((strings.flatMap (· ++ [0])).length % 2) 0

/-- The strings of a table, each with its NUL, padded so that they end at an even offset when
they start at offset `start`. -/
def tableBodyAt (start : Nat) (strings : List (List UInt8)) : List UInt8 :=
  strings.flatMap (· ++ [0]) ++
    List.replicate ((start + (strings.flatMap (· ++ [0])).length) % 2) 0

/-- A string table: its pointers, each plus `bias`, then its body. -/
def tableBytes (strings : List (List UInt8)) (bias : Nat) : List UInt8 :=
  wordBytes (pointerValues bias (2 * strings.length) strings) ++ tableBody strings

/-- What writing a string table asks: no string holds a NUL and every pointer fits a word. -/
structure TableFits (strings : List (List UInt8)) (bias : Nat) : Prop where
  no_nul : ∀ s ∈ strings, 0 ∉ s
  pointers_lt : ∀ p ∈ pointerValues bias (2 * strings.length) strings, p < 65536

/-! ## Images -/

/-- A group as it stands in the file: its two header words and the items of its code. -/
structure GroupCode where
  kind : UInt16
  unk2 : UInt16
  items : List Item
  deriving DecidableEq, Repr

/-- A script with its labels resolved: the parts of its file before they are laid out. -/
structure Image where
  region : Region
  groups : List GroupCode
  constants : List (List UInt8)
  /-- One string table per language of the region, in its order. -/
  tables : List (List (List UInt8))
  unk1 : UInt16
  deriving DecidableEq, Repr

/-- Where each group's code starts in the data block, the first at `n`. -/
def groupStarts (cat : Catalog) : Nat → List GroupCode → List Nat
  | _, [] => []
  | n, g :: gs => n :: groupStarts cat (n + cat.itemsSize g.items) gs

namespace Image

variable (cat : Catalog) (im : Image)

/-- The number of strings per language, taken from the first table. -/
def stringCount : Nat :=
  match im.tables with
  | t :: _ => t.length
  | [] => 0

/-- The items of all groups, in order. -/
def items : List Item :=
  im.groups.flatMap (·.items)

/-- Where the code starts in the data block: after its head and the group table. -/
def codeStart : Nat :=
  4 + 6 * im.groups.length

/-- The length of the data block. -/
def dataLen : Nat :=
  im.codeStart + cat.itemsSize im.items

/-- The length of the constant strings with their padding. -/
def constLen : Nat :=
  (tableBody im.constants).length

/-- What string pointers count from, past the start of their table: the constant table. -/
def stringBias : Nat :=
  2 * im.constants.length + im.constLen

/-- The header: counts, then lengths in words, then the spare word outside Europe. -/
def header : List UInt8 :=
  wordBytes ([im.constants.length, im.stringCount,
      (im.dataLen cat + 2 * im.constants.length) / 2, im.constLen / 2] ++
    im.tables.map (fun t => (tableBytes t im.stringBias).length / 2) ++
    (if im.region = .europe then [] else [im.unk1.toNat]))

/-- The group table: per group, its start in words, its kind and its spare word. -/
def groupTable : List UInt8 :=
  wordBytes ((im.groups.zip (groupStarts cat im.codeStart im.groups)).flatMap
    fun p => [p.2 / 2, p.1.kind.toNat, p.1.unk2.toNat])

/-- The data block: its length in words, the group count, the group table and the code. -/
def dataBlock : List UInt8 :=
  wordBytes [im.dataLen cat / 2, im.groups.length] ++ im.groupTable cat ++ cat.codeBytes im.items

/-- The bytes of the file. -/
def bytes : List UInt8 :=
  im.header cat ++ im.dataBlock cat ++ tableBytes im.constants (2 * im.stringCount) ++
    im.tables.flatMap (tableBytes · im.stringBias)

/-- The lengths the header gives in words fit their 16-bit fields: the data block with the
constant pointers, the constant strings, and each string table. -/
structure SpansFit : Prop where
  scriptLen : (im.dataLen cat + 2 * im.constants.length) / 2 ≤ 0xFFFF
  constLen : im.constLen / 2 ≤ 0xFFFF
  tableLen : ∀ t ∈ im.tables, (tableBytes t im.stringBias).length / 2 ≤ 0xFFFF

/-- What the layout asks of an image: every number written as a word fits one, a European
header's spare word is zero, and the strings hold no NUL. -/
structure Fits : Prop where
  unk1 : im.region = .europe → im.unk1 = 0
  constCount : im.constants.length < 65536
  stringCount : im.stringCount < 65536
  groupCount : im.groups.length < 65536
  constTable : TableFits im.constants (2 * im.stringCount)
  stringTables : ∀ t ∈ im.tables, TableFits t im.stringBias
  spans : im.SpansFit cat

end Image

/-! ## Resolving labels -/

section Resolve

variable (cat : Catalog) (targets : List (LabelId × Nat)) (raw : List (LabelId × UInt16))

/-- The word written for parameter `p` at index `i`: a jump parameter as half its label's
offset, which must stay below `0x4000`, or as its raw target's word. -/
def resolveParam (info : OpcodeInfo) (i : Nat) (p : UInt16) : Except EncodeError UInt16 :=
  if (info.kindAt i).isJump then
    match targets.lookup ⟨p⟩ with
    | some o => if o / 2 < 0x4000 then .ok (o / 2).toUInt16 else .error (.jumpOutOfRange o)
    | none =>
      match raw.lookup ⟨p⟩ with
      | some w => .ok w
      | none => .error (.undefinedLabel info.name p)
  else .ok p

/-- The words written for parameters from index `i` on. -/
def resolveParams (info : OpcodeInfo) : Nat → List UInt16 → Except EncodeError (List UInt16)
  | _, [] => .ok []
  | i, p :: ps => do
    let w ← resolveParam targets raw info i p
    let ws ← resolveParams info (i + 1) ps
    pure (w :: ws)

/-- A command's parameters fit its opcode: as many as a fixed arity says, or fewer than
`0x4000` behind a count word. -/
def checkArity (info : OpcodeInfo) (c : Command) : Except EncodeError Unit :=
  match info.arity with
  | .fixed n =>
    if c.params.length = n.toNat then .ok ()
    else .error (.paramCount info.name n.toNat c.params.length)
  | .variadic => if c.params.length < 0x4000 then .ok () else .error (.tooManyParams info.name)

/-- A command as written: an opcode the catalog describes, with its parameters resolved. -/
def resolveCommand (c : Command) : Except EncodeError Command :=
  match cat.info c.opcode with
  | none => .error (.unknownOpcode c.opcode)
  | some info => do
    checkArity info c
    let ps ← resolveParams targets raw info 0 c.params
    pure ⟨c.opcode, ps⟩

/-- The items an instruction is written as: a data word as itself, a label as nothing, the rest
as its commands. -/
def resolveInstruction : Instruction → Except EncodeError (List Item)
  | .data w => .ok [.data w]
  | .label _ => .ok []
  | i => (i.commands.mapM (resolveCommand cat targets raw)).map (·.map .command)

/-- A group as written. -/
def resolveGroup (g : Group) : Except EncodeError GroupCode := do
  let items ← g.instructions.mapM (resolveInstruction cat targets raw)
  pure ⟨g.kind, g.unk2, items.flatten⟩

end Resolve

/-- The image of a script: its string tables in the region's order, all of one length, and its
groups with every label resolved to the offset it is placed at. -/
def image (game : Game) (s : Script) : Except EncodeError Image := do
  let tables ← regionTables s game.region
  let stringCount := match tables with
    | t :: _ => t.length
    | [] => 0
  if tables.any (·.length ≠ stringCount) then throw .tablesDiffer
  let targets ← placeLabels game.catalog s.rawTargets (s.groups.flatMap (·.instructions))
    (4 + 6 * s.groups.length) []
  let groups ← s.groups.mapM (resolveGroup game.catalog targets s.rawTargets)
  pure ⟨game.region, groups, s.constants, tables, s.unk1⟩

end DungeonFormats.Script
