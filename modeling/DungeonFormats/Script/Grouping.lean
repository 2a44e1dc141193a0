import DungeonFormats.Script.Basic
import DungeonFormats.Script.Code

/-!
# Groups, labels and folding

`Code.arrange` distributes the flat items of a data block over the groups of its group table.
Items lie at consecutive offsets from the start of the code; each group ends where the next one
starts, the last at the end of the data block. Walking the items in order, the current group
moves forward past every group whose end the item's offset has reached (never past the last),
so items are assigned to groups in non-decreasing order.

Before an item that is a jump target stands its label. A switch or special-process command
takes the branch commands right after it, and an entity accessor the one attribute command
right after it, as long as each lies below the end of the current group and is no jump target;
a switch or special process without branches stays a plain command. A label at the end offset
of the code goes last into the last group. Targets that meet no item become raw targets, each
with the word it was first read from.
-/

namespace DungeonFormats.Script

/-- Each item with the offset it starts at, the first at `o`. -/
def locate (cat : Catalog) : Nat → List Item → List (Item × Nat)
  | _, [] => []
  | o, it :: its => (it, o) :: locate cat (o + cat.itemSize it) its

/-- The offset just past the items, the first starting at `o`. -/
def endOffset (cat : Catalog) (o : Nat) (its : List Item) : Nat :=
  o + cat.itemsSize its

/-- Where each group ends: where the next group starts, and the last at `dataLen`. -/
def groupEnds (entries : List GroupEntry) (dataLen : Nat) : List Nat :=
  (entries.drop 1).map (fun e => 2 * e.start.toNat) ++ [dataLen]

/-- The group reached from group `cur` by an item at offset `o`: move on while `o` is at or past
the current group's end and a later group exists. -/
def advance (ends : List Nat) (cur o : Nat) : Nat :=
  if h : cur + 1 < ends.length then
    if ends[cur] ≤ o then advance ends (cur + 1) o else cur
  else cur
termination_by ends.length - cur

/-- Whether a located item can be folded into the instruction before it: a command of an
accepted category, below `groupEnd`, and no jump target. -/
def joins (cat : Catalog) (labels : LabelTable) (groupEnd : Nat) (accepts : Category → Bool) :
    Item × Nat → Bool
  | (.command c, o) => o < groupEnd && (labels.at? o).isNone && accepts (cat.category c.opcode)
  | (.data _, _) => false

/-- The commands among located items. -/
def commandsOf (xs : List (Item × Nat)) : List Command :=
  xs.filterMap fun
    | (.command c, _) => some c
    | (.data _, _) => none

/-- The instruction that the command `c` opens, given the items after it, and how many of those
it takes. -/
def gather (cat : Catalog) (labels : LabelTable) (groupEnd : Nat) (c : Command)
    (rest : List (Item × Nat)) : Instruction × Nat :=
  match cat.category c.opcode with
  | .switch =>
    let arms := rest.takeWhile (joins cat labels groupEnd Category.isArm)
    if arms.isEmpty then (.command c, 0) else (.switch c (commandsOf arms), arms.length)
  | .special =>
    let arms := rest.takeWhile (joins cat labels groupEnd Category.isArm)
    if arms.isEmpty then (.command c, 0) else (.special c (commandsOf arms), arms.length)
  | .accessor =>
    match rest with
    | (.command a, o) :: _ =>
      if joins cat labels groupEnd (· == .attribute) (.command a, o) then (.accessor c a, 1)
      else (.command c, 0)
    | _ => (.command c, 0)
  | _ => (.command c, 0)

/-- The instructions of the located items, each with the index of its group, from group `cur`
on. -/
def walk (cat : Catalog) (labels : LabelTable) (ends : List Nat) (cur : Nat) :
    List (Item × Nat) → List (Nat × Instruction)
  | [] => []
  | (it, o) :: rest =>
    let g := advance ends cur o
    let mark : List (Nat × Instruction) :=
      match labels.at? o with
      | some l => [(g, .label l)]
      | none => []
    match it with
    | .data w => mark ++ (g, .data w) :: walk cat labels ends g rest
    | .command c =>
      let (inst, k) := gather cat labels (ends.getD g 0) c rest
      mark ++ (g, inst) :: walk cat labels ends g (rest.drop k)
termination_by xs => xs.length
decreasing_by
  all_goals simp only [List.length_cons, List.length_drop]
  all_goals omega

/-- The labels among instructions. -/
def labelsOf (xs : List Instruction) : List LabelId :=
  xs.filterMap fun
    | .label l => some l
    | _ => none

/-- The groups of a data block whose code starts at `start` and whose block is `dataLen` bytes
long, and the raw targets: the labels placed on no instruction, by increasing id, each with
its first word. Without group entries there are neither. -/
def Code.arrange (code : Code) (cat : Catalog) (entries : List GroupEntry) (start dataLen : Nat) :
    List Group × List (LabelId × UInt16) :=
  if entries.isEmpty then ([], [])
  else
    let placed := walk cat code.labels (groupEnds entries dataLen) 0 (locate cat start code.items)
    let last : List (Nat × Instruction) :=
      match code.labels.at? (endOffset cat start code.items) with
      | some l => [(entries.length - 1, .label l)]
      | none => []
    let all := placed ++ last
    let groups := entries.zipIdx.map fun (e, i) =>
      (⟨e.kind, e.unk2, (all.filter (·.1 == i)).map (·.2)⟩ : Group)
    let onInstruction := labelsOf (all.map (·.2))
    let raw := ((List.range code.labels.targets.length).zip code.labels.targets).filterMap
      fun (i, _, w) =>
        let l : LabelId := ⟨i.toUInt16⟩
        if onInstruction.contains l then none else some (l, w)
    (groups, raw)

end DungeonFormats.Script
