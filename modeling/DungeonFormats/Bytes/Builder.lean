import DungeonFormats.Text.Hex
import DungeonFormats.Text.Quoted
import DungeonFormats.Bytes.Word

/-!
# Building byte strings with fields filled in at the end

A `Builder` appends bytes, places labels at the current length, and reserves `Field`s: runs of
zero bytes whose contents depend on label positions that may be placed only later. `finish`
computes the fields in the order they were reserved, from the final label positions, and
writes each over its zeros; the first field that cannot be computed is the error, and nothing
is returned. A field holds either a label's position as an unsigned word, which must fit its
width, or the number of two-byte words from one label to another as a little-endian 16-bit
word, which needs the span to be non-negative, even and at most `2 * 0xFFFF` bytes.

`BuildStep` lists what a client can ask of a builder one step at a time, and
`Builder.runSteps` runs a list of them; placing a label twice or aligning to zero stops a run
outright (`BuildAbort`).
-/

namespace DungeonFormats

/-- A field whose bytes are computed when the builder is finished. -/
inductive Field (α : Type) where
  /-- The position of `label` as an unsigned word of `width` bytes in the order `order`. -/
  | position (label : α) (width : Nat) (order : ByteOrder)
  /-- The number of two-byte words from `start` to `stop`, as a little-endian 16-bit word. -/
  | words (start stop : α)
  deriving DecidableEq, Repr

/-- The number of bytes a field occupies. -/
def Field.size {α : Type} : Field α → Nat
  | .position _ w _ => w
  | .words _ _ => 2

/-- Why a field could not be computed; `pos` is where the field starts. -/
inductive BuildFault (α : Type) where
  /-- The field reads a label that was never placed. -/
  | undefinedLabel (pos : Nat) (label : α)
  /-- The value does not fit in a word of `bits` bits. -/
  | tooWide (pos value bits : Nat)
  /-- The span from `start` to `stop` is negative or odd. -/
  | oddSpan (pos start stop : Nat)
  deriving DecidableEq, Repr

/-- The text of a build fault, with labels shown by `name`. -/
def BuildFault.message {α : Type} (name : α → String) : BuildFault α → String
  | .undefinedLabel pos l => "undefined label " ++ name l ++ " referenced at " ++ Hex.text pos
  | .tooWide pos v bits =>
    "error at " ++ Hex.text pos ++ ": attempted to write " ++ Hex.text v ++ " as a u" ++
      toString bits
  | .oddSpan pos s e =>
    "error at " ++ Hex.text pos ++ ": span " ++ Hex.text s ++ ".." ++ Hex.text e ++
      " is not a whole number of words"

/-- The text of a refusal to write a terminated string that holds a NUL byte. -/
def nulStringMessage (s : List UInt8) : String :=
  "string " ++ Text.quoteBytes s ++ " contains a NUL byte"

/-- The bytes of a field, computed from the label positions `marks`; `pos` is where the field
starts and only locates a fault. -/
def Field.resolve {α : Type} [DecidableEq α] (marks : List (α × Nat)) (pos : Nat) :
    Field α → Except (BuildFault α) (List UInt8)
  | .position l w o =>
    match marks.lookup l with
    | none => .error (.undefinedLabel pos l)
    | some p => if p < Nat.pow 256 w then .ok (o.encode w p) else .error (.tooWide pos p (8 * w))
  | .words s e =>
    match marks.lookup s, marks.lookup e with
    | none, _ => .error (.undefinedLabel pos s)
    | some _, none => .error (.undefinedLabel pos e)
    | some a, some z =>
      if z < a ∨ (z - a) % 2 = 1 then .error (.oddSpan pos a z)
      else if (z - a) / 2 ≤ 0xFFFF then .ok (ByteOrder.little.encode 2 ((z - a) / 2))
      else .error (.tooWide pos ((z - a) / 2) 16)

/-- Bytes appended so far, the fields reserved among them with their positions in the order
they were reserved, and the labels placed, the latest first. -/
structure Builder (α : Type) where
  bytes : Array UInt8
  fields : Array (Nat × Field α)
  marks : List (α × Nat)

/-- Writes `bs` over `a` from `pos` on, as far as `a` reaches. -/
def overwrite (a : Array UInt8) (pos : Nat) : List UInt8 → Array UInt8
  | [] => a
  | x :: xs => overwrite (a.setIfInBounds pos x) (pos + 1) xs

namespace Builder

variable {α : Type}

/-- A builder with nothing appended. -/
def empty : Builder α :=
  ⟨#[], #[], []⟩

/-- The number of bytes appended so far. -/
def size (b : Builder α) : Nat :=
  b.bytes.size

/-- Where `l` was placed, if it was. -/
def find? [DecidableEq α] (b : Builder α) (l : α) : Option Nat :=
  b.marks.lookup l

/-- Appends bytes. -/
def append (b : Builder α) (bs : List UInt8) : Builder α :=
  { b with bytes := b.bytes ++ bs }

/-- Appends the `width`-byte word `n` in the order `o`. -/
def word (b : Builder α) (o : ByteOrder) (width n : Nat) : Builder α :=
  b.append (o.encode width n)

/-- Appends a little-endian 16-bit word. -/
def u16 (b : Builder α) (v : UInt16) : Builder α :=
  b.word .little 2 v.toNat

/-- Places `l` at the current length. -/
def place (b : Builder α) (l : α) : Builder α :=
  { b with marks := (l, b.size) :: b.marks }

/-- Reserves `f` as zero bytes at the current length. -/
def reserve (b : Builder α) (f : Field α) : Builder α :=
  { b.append (List.replicate f.size 0) with fields := b.fields.push (b.size, f) }

/-- Appends `fill` until the length is a multiple of `n`; nothing when `n` is zero. -/
def padTo (b : Builder α) (n : Nat) (fill : UInt8) : Builder α :=
  b.append (List.replicate ((n - b.size % n) % n) fill)

/-- Appends `s` and a NUL, unless `s` holds a NUL itself. -/
def terminated? (b : Builder α) (s : List UInt8) : Option (Builder α) :=
  if 0 ∈ s then none else some (b.append (s ++ [0]))

/-- The bytes with every field computed and written over its zeros, in the order the fields
were reserved; the first field that cannot be computed is the error. -/
def finish [DecidableEq α] (b : Builder α) : Except (BuildFault α) (List UInt8) := do
  let out ← b.fields.toList.foldlM
    (fun acc (pf : Nat × Field α) => do
      let bs ← pf.2.resolve b.marks pf.1
      pure (overwrite acc pf.1 bs))
    b.bytes
  pure out.toList

end Builder

/-- What stops a run of builder steps outright. -/
inductive BuildAbort where
  /-- A label placed a second time; `earlier` is where it was placed first. -/
  | placedTwice (earlier : Nat)
  /-- Alignment to a multiple of zero. -/
  | alignToZero
  deriving DecidableEq, Repr

/-- The text of an abort. -/
def BuildAbort.message : BuildAbort → String
  | .placedTwice p => "label already defined at " ++ Hex.padded 6 p
  | .alignToZero => "attempt to calculate the remainder with a divisor of zero"

/-- A step that a client asks of a builder. -/
inductive BuildStep (α : Type) where
  /-- The `width`-byte word that stores `value`, in two's complement if negative. -/
  | word (order : ByteOrder) (width : Nat) (value : Int)
  /-- The bytes themselves. -/
  | bytes (bs : List UInt8)
  /-- Place a label. -/
  | place (label : α)
  /-- Reserve a field. -/
  | reserve (field : Field α)
  /-- A string and its NUL terminator. -/
  | terminated (bs : List UInt8)
  /-- Fill with `fill` up to a multiple of `size`. -/
  | align (size : Nat) (fill : UInt8)
  deriving DecidableEq, Repr

/-- Runs one step: the string refused for holding a NUL, if any, and the builder after it. -/
def BuildStep.run {α : Type} [DecidableEq α] (b : Builder α) :
    BuildStep α → Except BuildAbort (Option (List UInt8) × Builder α)
  | .word o w v => .ok (none, b.word o w (unsignedOf w v))
  | .bytes bs => .ok (none, b.append bs)
  | .place l =>
    match b.find? l with
    | some p => .error (.placedTwice p)
    | none => .ok (none, b.place l)
  | .reserve f => .ok (none, b.reserve f)
  | .terminated bs =>
    match b.terminated? bs with
    | some b' => .ok (none, b')
    | none => .ok (some bs, b)
  | .align n fill => if n = 0 then .error .alignToZero else .ok (none, b.padTo n fill)

/-- Runs steps in order, reporting for each the refused string, if any, and the length after
it; a refused string leaves the builder as it was. -/
def Builder.runSteps {α : Type} [DecidableEq α] (b : Builder α) :
    List (BuildStep α) → Except BuildAbort (List (Option (List UInt8) × Nat) × Builder α)
  | [] => .ok ([], b)
  | s :: ss => do
    let (r, b1) ← s.run b
    let (rs, b2) ← b1.runSteps ss
    pure ((r, b1.size) :: rs, b2)

end DungeonFormats
