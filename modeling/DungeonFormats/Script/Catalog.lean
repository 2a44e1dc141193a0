import DungeonFormats.Text.Hex
import DungeonFormats.Release

/-!
# Opcode catalogs

A script's data block is a stream of 16-bit words. A catalog says which words are opcodes (those
below its `count`) and, for the opcodes it knows, their name, how many parameters follow them
(a fixed number, or a count word first), what each parameter means, and how the opcode takes
part in folding (`Category`). Parameters that are jumps hold instruction offsets on disk and
label ids in memory.

A `Game` pairs a region and a game version with a catalog of the opcode set that version
uses; `Game.new?` refuses a catalog of the other set.
-/

namespace DungeonFormats.Script

/-- How many parameters follow an opcode. -/
inductive Arity where
  /-- Always `n` parameters. -/
  | fixed (n : UInt16)
  /-- A count word, then that many parameters. -/
  | variadic
  deriving DecidableEq, Repr

/-- What a parameter means. -/
inductive ParamKind where
  | unknown
  | integer
  | constant
  | string
  /-- The word offset of an instruction from the start of the data block. -/
  | instructionOffset
  /-- The same, in the branch of a switch. -/
  | caseJumpOffset
  deriving DecidableEq, Repr

/-- A parameter that names a jump target. -/
def ParamKind.isJump : ParamKind → Bool
  | .instructionOffset | .caseJumpOffset => true
  | _ => false

/-- How an opcode takes part in folding commands together. -/
inductive Category where
  | other
  /-- Opens a switch; branches follow it. -/
  | switch
  /-- A special process whose return value branches follow. -/
  | special
  /-- A branch for one value. -/
  | caseArm
  /-- The branch for every other value. -/
  | defaultArm
  /-- Selects an entity; an attribute command may follow it. -/
  | accessor
  /-- Acts on the entity selected just before. -/
  | attribute
  deriving DecidableEq, Repr

/-- A branch of a switch or special process. -/
def Category.isArm : Category → Bool
  | .caseArm | .defaultArm => true
  | _ => false

/-- What a catalog knows of an opcode. -/
structure OpcodeInfo where
  name : String
  arity : Arity
  /-- The kinds of the leading parameters; later parameters are of unknown kind. -/
  kinds : List ParamKind
  category : Category
  deriving DecidableEq, Repr

/-- The kind of the parameter at index `i`. -/
def OpcodeInfo.kindAt (info : OpcodeInfo) (i : Nat) : ParamKind :=
  info.kinds.getD i .unknown

/-- The opcode is followed by a count word. -/
def OpcodeInfo.isVariadic (info : OpcodeInfo) : Bool :=
  info.arity == .variadic

/-- The opcodes of one opcode set: the words below `count` are opcodes, and `entries` describes
some of them, each at most once. -/
structure Catalog where
  version : OpcodeVersion
  count : UInt16
  entries : List (UInt16 × OpcodeInfo)
  entries_lt : ∀ e ∈ entries, e.1 < count

/-- An opcode registered at or beyond the count of its catalog. -/
structure OpcodeOutOfRange where
  opcode : UInt16
  deriving DecidableEq, Repr

/-- The text of an out-of-range registration. -/
def OpcodeOutOfRange.message (e : OpcodeOutOfRange) : String :=
  "opcode " ++ Hex.padded 6 e.opcode.toNat ++ " out of range"

namespace Catalog

/-- A catalog that describes no opcode. -/
def empty (version : OpcodeVersion) (count : UInt16) : Catalog :=
  ⟨version, count, [], by simp⟩

/-- What the catalog knows of `op`. -/
def info (c : Catalog) (op : UInt16) : Option OpcodeInfo :=
  c.entries.lookup op

/-- The folding category of `op`; `other` for an opcode the catalog does not describe. -/
def category (c : Catalog) (op : UInt16) : Category :=
  match c.info op with
  | some i => i.category
  | none => .other

/-- Whether `op` is described and takes a count word. -/
def isVariadic (c : Catalog) (op : UInt16) : Bool :=
  match c.info op with
  | some i => i.isVariadic
  | none => false

/-- Describes `op` by `i`, replacing an earlier description; `op` must be below the count. -/
def register (c : Catalog) (op : UInt16) (i : OpcodeInfo) :
    Except OpcodeOutOfRange Catalog :=
  if h : op < c.count then
    .ok ⟨c.version, c.count, (op, i) :: c.entries.filter (·.1 != op), by
      intro e he
      rcases List.mem_cons.1 he with rfl | he
      · exact h
      · exact c.entries_lt e (List.mem_filter.1 he).1⟩
  else .error ⟨op⟩

/-- Describes the opcodes of a list in order, stopping at the first one out of range. -/
def registerAll (c : Catalog) : List (UInt16 × OpcodeInfo) → Except OpcodeOutOfRange Catalog
  | [] => .ok c
  | (op, i) :: rest => do
    let c ← c.register op i
    c.registerAll rest

theorem lt_count_of_info {c : Catalog} {op : UInt16} {i : OpcodeInfo}
    (h : c.info op = some i) : op < c.count := by
  obtain ⟨l₁, l₂, he, -⟩ := List.lookup_eq_some_iff.1 h
  exact c.entries_lt (op, i) (by simp [he])

end Catalog

/-- A game whose scripts are read with a catalog of its opcode set. -/
structure Game where
  region : Region
  version : GameVersion
  catalog : Catalog
  version_eq : catalog.version = version.opcodeVersion

/-- A catalog of the wrong opcode set for a game. -/
structure CatalogMismatch where
  version : GameVersion
  got : OpcodeVersion
  deriving DecidableEq, Repr

/-- The text of a catalog mismatch. -/
def CatalogMismatch.message (e : CatalogMismatch) : String :=
  e.version.name ++ " uses " ++ e.version.opcodeVersion.name ++
    " opcodes, but the catalog is for " ++ e.got.name

/-- The game, if the catalog is of its opcode set. -/
def Game.new? (region : Region) (version : GameVersion) (catalog : Catalog) :
    Except CatalogMismatch Game :=
  if h : catalog.version = version.opcodeVersion then .ok ⟨region, version, catalog, h⟩
  else .error ⟨version, catalog.version⟩

end DungeonFormats.Script
