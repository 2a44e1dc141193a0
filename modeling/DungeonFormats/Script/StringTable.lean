import DungeonFormats.Bytes.Cursor
import DungeonFormats.Bytes.Builder
import DungeonFormats.Bytes.Panic
import DungeonFormats.Script.DecodeError
import DungeonFormats.Script.EncodeError

/-!
# String tables

A string table is a table of 16-bit little-endian pointers followed by NUL-terminated strings,
padded to an even length. A string lives at `base + pointer - correction` of the file, so the
same table reads back from wherever the pointers' origin is. Written tables point from the start
of the table plus a bias: the pointer of the `i`-th string is `bias + 2n + ` the lengths of the
strings before it, each with its NUL, for `n` strings. The sums `base + pointer` and
`bias + position` are `usize` additions, the reader makes room for all its strings before it
reads one, and the position a bad pointer was read at, the writer's anchor and the length it
returns are taken with checked operations.
-/

namespace DungeonFormats.Script

/-- The strings behind the pointers read so far on `g`, for `n` more pointers. -/
def readStrings (data : List UInt8) (base correction : Nat) :
    Nat → Cursor → Except DecodeError (List (List UInt8))
  | 0, _ => .ok []
  | n + 1, g => do
    let (ptr, g) ← (g.u16).mapError .cursor
    let sum ← (uadd base ptr.toNat).mapError .panic
    if sum < correction then
      let pos ← (usub g.pos 2).mapError .panic
      throw (.pointerBeforeFile ptr.toNat pos)
    let sc ← ((Cursor.start data).seek (sum - correction)).mapError .cursor
    let (s, _) ← sc.terminated.mapError .cursor
    let rest ← readStrings data base correction n g
    pure (s :: rest)

/-- The `count` strings of the table whose pointers start at `tablePos` of `data`. -/
def readTable (data : List UInt8) (tablePos base count correction : Nat) :
    Except DecodeError (List (List UInt8)) :=
  if count = 0 then .ok []
  else do
    let g ← ((Cursor.start data).seek tablePos).mapError .cursor
    -- a string is held as a vector: a pointer, a capacity and a length, 24 bytes aligned to 8
    (withCapacity 24 8 count).mapError .panic
    readStrings data base correction count g

/-- The pointers of strings whose first lies at `pos` of the builder, for the table at
`tablePos`: each pointer is `bias` plus the distance from the table to its string. -/
def writePointers {α : Type} (bias tablePos : Nat) :
    Builder α → Nat → List (List UInt8) → Except EncodeError (Builder α)
  | b, _, [] => .ok b
  | b, pos, s :: ss => do
    let sum ← (uaddAt bias pos).mapError .panic
    let dist ← (usub sum tablePos).mapError .panic
    let w ← toWord dist
    writePointers bias tablePos (b.u16 w) (pos + s.length + 1) ss

/-- The strings, each with its NUL. -/
def writeStrings {α : Type} : Builder α → List (List UInt8) → Except EncodeError (Builder α)
  | b, [] => .ok b
  | b, s :: ss =>
    match b.terminated? s with
    | some b => writeStrings b ss
    | none => .error (.nulInString s)

/-- Appends a string table: the pointers, the anchor `data`, the strings and padding to an even
length. Also returns the length of the strings with their padding. -/
def writeTable {α : Type} [DecidableEq α] (b : Builder α) (strings : List (List UInt8)) (bias : Nat) (data : α) :
    Except EncodeError (Builder α × Nat) := do
  let tablePos := b.size
  let dataStart := tablePos + 2 * strings.length
  let b ← writePointers bias tablePos b dataStart strings
  let b ← (b.placeOnce data).mapError .panic
  let b ← writeStrings b strings
  let b := b.padTo 2 0
  let len ← (usub b.size dataStart).mapError .panic
  pure (b, len)

end DungeonFormats.Script
