import DungeonFormats.Bytes.Word
import DungeonFormats.Script.Basic
import DungeonFormats.Script.Param
import DungeonFormats.Script.DecodeError

/-!
# The word stream of a data block

`Code.decode` reads the little-endian words of a data block from a start offset to the end. A
word at or above the catalog's count is a data word; an opcode reads its parameters (first a
count word if it is variadic); an opcode the catalog does not describe is an error. A command
whose parameters run past the end of the block, or whose count word reads as negative, ends the
stream without an error, and a single byte left at the end is ignored.

Jump parameters are replaced by label ids. The `LabelTable` numbers targets densely in the
order they are first met, once a whole command has been read, and keeps for each the word it
was first read from.
-/

namespace DungeonFormats.Script

/-- Jump targets in the order they were first met, with the word each was first read from;
a target's label id is its index. -/
structure LabelTable where
  targets : List (Int × UInt16)
  deriving DecidableEq, Repr

namespace LabelTable

/-- No targets. -/
def empty : LabelTable :=
  ⟨[]⟩

/-- The index of the target at byte offset `o`. -/
def idOf? (t : LabelTable) (o : Int) : Option Nat :=
  t.targets.findIdx? (·.1 == o)

/-- The label of the target at byte offset `o`, adding it with the word `w` if it is new. -/
def note (t : LabelTable) (o : Int) (w : UInt16) : LabelTable × LabelId :=
  match t.idOf? o with
  | some i => (t, ⟨i.toUInt16⟩)
  | none => (⟨t.targets ++ [(o, w)]⟩, ⟨t.targets.length.toUInt16⟩)

/-- The label of the target at byte offset `o`, if there is one. -/
def at? (t : LabelTable) (o : Nat) : Option LabelId :=
  (t.idOf? o).map fun i => ⟨i.toUInt16⟩

/-- The word a label's target was first read from. -/
def wordOf? (t : LabelTable) (l : LabelId) : Option UInt16 :=
  (t.targets[l.val.toNat]?).map (·.2)

/-- Every target as its offset, label and first word, by increasing offset. -/
def byOffset (t : LabelTable) : List (Int × LabelId × UInt16) :=
  let indexed := (List.range t.targets.length).zip t.targets
  (indexed.map fun (i, o, w) => (o, (⟨i.toUInt16⟩ : LabelId), w)).mergeSort
    fun a b => a.1 ≤ b.1

end LabelTable

/-- The little-endian word of two bytes. -/
def wordOf (a b : UInt8) : UInt16 :=
  (ByteOrder.little.decode [a, b]).toUInt16

/-- The first `n` little-endian words of `bs`, if it holds that many. -/
def takeWords : Nat → List UInt8 → Option (List UInt16)
  | 0, _ => some []
  | n + 1, a :: b :: r => (takeWords n r).map (wordOf a b :: ·)
  | _ + 1, _ => none

/-- The parameter words of an opcode described by `info`, read from `bs` just after the opcode,
with the number of bytes they take, count word included. None if they run past the end, or if
the count word reads as negative. -/
def paramWords (info : OpcodeInfo) (bs : List UInt8) : Option (List UInt16 × Nat) :=
  match info.arity with
  | .fixed n => (takeWords n.toNat bs).map (·, 2 * n.toNat)
  | .variadic =>
    match bs with
    | a :: b :: r =>
      let v := paramValue (wordOf a b)
      if v < 0 then none else (takeWords v.toNat r).map (·, 2 + 2 * v.toNat)
    | _ => none

/-- Replaces each jump parameter, from index `i` on, by the label of its target, noting new
targets in order. -/
def labelJumps (info : OpcodeInfo) (i : Nat) :
    List UInt16 → LabelTable → List UInt16 × LabelTable
  | [], t => ([], t)
  | w :: ws, t =>
    if (info.kindAt i).isJump then
      let (t1, l) := t.note (jumpTarget w) w
      let (rest, t2) := labelJumps info (i + 1) ws t1
      (l.val :: rest, t2)
    else
      let (rest, t1) := labelJumps info (i + 1) ws t
      (w :: rest, t1)

/-- The items of `bs`, which starts at offset `pos` of the data block, and the label table
after them. -/
def decodeItems (cat : Catalog) (pos : Nat) (bs : List UInt8) (t : LabelTable) :
    Except DecodeError (List Item × LabelTable) :=
  match bs with
  | a :: b :: r =>
    let w := wordOf a b
    if cat.count ≤ w then
      (fun (p : List Item × LabelTable) => (Item.data w :: p.1, p.2)) <$>
        decodeItems cat (pos + 2) r t
    else
      match cat.info w with
      | none => .error (.unknownOpcode w pos)
      | some info =>
        match paramWords info r with
        | none => .ok ([], t)
        | some (ws, k) =>
          let (ps, t1) := labelJumps info 0 ws t
          (fun (p : List Item × LabelTable) => (Item.command ⟨w, ps⟩ :: p.1, p.2)) <$>
            decodeItems cat (pos + 2 + k) (r.drop k) t1
  | _ => .ok ([], t)
termination_by bs.length
decreasing_by
  all_goals simp only [List.length_cons, List.length_drop]
  all_goals omega

/-- The flat decoding of a data block: its items from a start offset on, and the jump
targets they name. -/
structure Code where
  items : List Item
  labels : LabelTable
  deriving DecidableEq, Repr

/-- Decodes `block` from offset `start` on; the start must lie within the block. -/
def Code.decode (cat : Catalog) (block : List UInt8) (start : Nat) : Except DecodeError Code :=
  if start ≤ block.length then
    match decodeItems cat start (block.drop start) LabelTable.empty with
    | .ok (items, labels) => .ok ⟨items, labels⟩
    | .error e => .error e
  else .error (.cursor (.seek start block.length))

end DungeonFormats.Script
