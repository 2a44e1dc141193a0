import Mathlib
import DungeonFormats.Proofs.Arranged
import DungeonFormats.Proofs.LabelNumbering
import DungeonFormats.Proofs.Rewriting

/-!
# Every label is placed once

Arranging a decoded code hands out the labels of its table. The walk puts a label before every
item whose offset is a jump target and, last of all, one at the end of the code if that is a
target (`labelsOf_arrange`); every other label becomes a raw target with the word it was first
read from. Offsets on disk grow strictly and a sound table gives each target one label
(`LabelTable.Sound.at?_eq_label_iff`), so every label of the table ends up exactly once, either
in the groups or among the raw targets (`PlacesLabel`): right before the instruction its item
opens, in the same group (`walkAt_label_before`), or last in the last group. `Code.LabelsPlaced`
gathers this for a whole table, and `arrange_places_each_label` proves it for every decoded code.
-/

namespace DungeonFormats.Script

/-- A key of a list of pairs finds a value. -/
theorem exists_lookup_eq_some_of_mem {α β : Type} [DecidableEq α] {a : α} :
    ∀ {xs : List (α × β)}, a ∈ xs.map (·.1) → ∃ b, xs.lookup a = some b
  | [], h => by simp at h
  | (a', b') :: xs, h => by
    by_cases ha : a = a'
    · exact ⟨b', by simp [ha]⟩
    · have htail : a ∈ xs.map (·.1) := by simpa [ha] using h
      simp only [List.lookup_cons, beq_false_of_ne ha]
      exact exists_lookup_eq_some_of_mem htail

/-- A label instruction occurs as often among instructions as its label among their labels. -/
theorem count_label_eq_count_labelsOf (l : LabelId) (xs : List Instruction) :
    xs.count (.label l) = (labelsOf xs).count l := by
  induction xs with
  | nil => rfl
  | cons x xs ih => cases x <;> simp [labelsOf, List.count_cons, ih] at ih ⊢

theorem label_mem_iff_mem_labelsOf {l : LabelId} {xs : List Instruction} :
    .label l ∈ xs ↔ l ∈ labelsOf xs := by
  rw [← List.count_pos_iff, ← List.count_pos_iff, count_label_eq_count_labelsOf]

/-- The labels of the jump targets among offsets `bs` are those of the offsets in `bs`. -/
theorem mem_labels_targetAt_iff {t : LabelTable} {bs : List Nat} {l : LabelId} :
    l ∈ (bs.filterMap (targetAt t)).map (·.1) ↔ ∃ b ∈ bs, t.at? b = some l := by
  simp only [List.mem_map, mem_filterMap_targetAt]
  constructor
  · rintro ⟨p, ⟨hb, hp⟩, rfl⟩
    exact ⟨p.2, hb, hp⟩
  · rintro ⟨b, hb, hl⟩
    exact ⟨(l, b), ⟨hb, hl⟩, rfl⟩

/-- The boundaries of items laid out from `o` are `o` plus the sizes of the first `k` items, for
every `k` up to the number of items. -/
theorem mem_boundaries_iff (cat : Catalog) (o : Nat) (items : List Item) (b : Nat) :
    b ∈ boundaries cat o items ↔ ∃ k ≤ items.length, b = o + cat.itemsSize (items.take k) := by
  induction items generalizing o with
  | nil => simp [boundaries_nil, Catalog.itemsSize]
  | cons it items ih =>
    rw [boundaries_cons, List.mem_cons, ih]
    constructor
    · rintro (rfl | ⟨k, hk, rfl⟩)
      · exact ⟨0, by simp, by simp [Catalog.itemsSize]⟩
      · exact ⟨k + 1, by simpa using hk, by simp [Catalog.itemsSize, Nat.add_assoc]⟩
    · rintro ⟨_ | k, hk, rfl⟩
      · exact .inl (by simp)
      · exact .inr ⟨k, by simpa using hk, by simp [Catalog.itemsSize, Nat.add_assoc]⟩

/-- Item `k` stands at `o` plus the sizes of the items before it. -/
theorem getElem?_locate (cat : Catalog) (o : Nat) (items : List Item) (k : Nat) (hk : k < items.length) :
    (locate cat o items)[k]? = some (items[k], o + cat.itemsSize (items.take k)) := by
  induction items generalizing o k with
  | nil => simp at hk
  | cons it items ih =>
    cases k with
    | zero => simp [locate, Catalog.itemsSize]
    | succ k =>
      rw [locate, List.getElem?_cons_succ, ih _ k (by simpa using hk)]
      simp [Catalog.itemsSize, Nat.add_assoc]

/-- In a sound table, the label of target `i` stands at offset `o` exactly when `o` is that
target. -/
theorem LabelTable.Sound.at?_eq_label_iff {t : LabelTable} (ht : t.Sound)
    (hn : t.targets.length ≤ 65536) {i : Nat} (hi : i < t.targets.length) {o : Nat} :
    t.at? o = some ⟨i.toUInt16⟩ ↔ t.targets[i].1 = o := by
  rw [LabelTable.at?_eq_some_iff]
  constructor
  · rintro ⟨j, hj, hl⟩
    obtain ⟨hjt, ho⟩ := ht.idOf?_eq_some_iff.1 hj
    obtain rfl : i = j := toUInt16_inj (by omega) (by omega) (congrArg LabelId.val hl)
    exact ho
  · intro ho
    exact ⟨i, ht.idOf?_eq_some_iff.2 ⟨hi, ho⟩, rfl⟩

section Walk

variable (cat : Catalog) (L : LabelTable) (ends : List Nat)

/-- Before the instruction an item opens stands the item's label, if the item is a jump target,
in the same group. -/
theorem walkAt_label_before (cur o : Nat) (items : List Item) :
    ∀ y ∈ locate cat o items, ∀ l, L.at? y.2 = some l → ∃ g inst,
      [⟨g, y.2, .label l⟩, ⟨g, y.2, inst⟩] <:+: walkAt cat L ends cur o items ∧
        inst.items.head? = some y.1 := by
  fun_induction walkAt cat L ends cur o items with
  | case1 cur o => simp [locate]
  | case2 cur o it items g opened ih =>
    intro y hy l hl
    rw [locate, List.mem_cons, ← List.take_append_drop opened.2 items, locate_append,
      List.mem_append] at hy
    rcases hy with rfl | hy | hy
    · -- the item itself: its label, then the instruction it opens
      have hlabel : labelAt L g o = [⟨g, o, .label l⟩] := by simp [labelAt, labelMark, hl]
      refine ⟨g, opened.1, ⟨[], _, by rw [hlabel]; rfl⟩, ?_⟩
      rw [items_openWith cat L _ _ it items]
      rfl
    · -- an item folded into that instruction is no jump target
      rw [← locate_take] at hy
      have htaken := (taken_spec cat L (ends.getD g 0) it (locate cat (o + cat.itemSize it) items) y hy).2
      rw [htaken] at hl
      cases hl
    · obtain ⟨g', inst, hinf, hhead⟩ := ih y hy l hl
      exact ⟨g', inst, hinf.trans ⟨labelAt L g o ++ [⟨g, o, opened.1⟩], [], by simp⟩, hhead⟩

end Walk

/-! ## The labels of an arrangement -/

section Arranged

variable (cat : Catalog) (code : Code) {entries : List GroupEntry} (start dataLen : Nat)

/-- The groups hold the placed instructions, in order. -/
theorem flatMap_instructions_arrange (hne : entries ≠ []) :
    (code.arrange cat entries start dataLen).1.flatMap (·.instructions) =
      (code.placed cat entries start dataLen).map (·.2) := by
  have hsorted := placed_sorted cat code hne start dataLen
  rw [Code.arrange_eq code cat hne]
  exact instructions_groupsOf _ _ hsorted.1 hsorted.2

/-- The labels of the groups are those of the jump targets among the boundaries of the code, in
order. -/
theorem labelsOf_arrange (hne : entries ≠ []) :
    labelsOf ((code.arrange cat entries start dataLen).1.flatMap (·.instructions)) =
      ((boundaries cat start code.items).filterMap (targetAt code.labels)).map (·.1) := by
  rw [flatMap_instructions_arrange cat code start dataLen hne, labelsOf_eq_labelOffsets cat start,
    labelOffsets_placed_eq]

/-- The raw targets are the labels the groups do not hold. -/
theorem raw_arrange (hne : entries ≠ []) :
    (code.arrange cat entries start dataLen).2 =
      code.labels.unplaced (labelsOf ((code.arrange cat entries start dataLen).1.flatMap (·.instructions))) := by
  rw [flatMap_instructions_arrange cat code start dataLen hne, Code.arrange_eq code cat hne]

/-- The last group ends with the label at the end of the code, if there is one. -/
theorem getLast?_arrange (hne : entries ≠ []) {l : LabelId}
    (hl : code.labels.at? (endOffset cat start code.items) = some l) :
    ∃ G, (code.arrange cat entries start dataLen).1.getLast? = some G ∧
      G.instructions.getLast? = some (.label l) := by
  obtain ⟨e, he⟩ := Option.isSome_iff_exists.1 (List.getLast?_isSome.2 hne)
  have hmark : labelMark code.labels (entries.length - 1) (endOffset cat start code.items) =
      [(entries.length - 1, .label l)] := by
    simp [labelMark, hl]
  rw [Code.arrange_eq code cat hne, groupsOf, List.getLast?_map, List.getLast?_zipIdx, he]
  refine ⟨_, rfl, ?_⟩
  simp [Code.placed, hmark, List.filter_append, List.getLast?_append]

end Arranged

/-- How label `l`, whose target is offset `target`, is placed in groups `groups` with raw targets
`raw`, arranged from items laid out from `start`: exactly once, either as a label instruction in
the groups or as a raw target; in the groups exactly when its target is the offset of an item or
the end of the code; right before the instruction that the item at its target opens, in the same
group; and last in the last group if its target is the end of the code. -/
structure PlacesLabel (cat : Catalog) (start : Nat) (items : List Item) (groups : List Group)
    (raw : List (LabelId × UInt16)) (l : LabelId) (target : Int) : Prop where
  once : (groups.flatMap (·.instructions)).count (.label l) + (raw.map (·.1)).count l = 1
  placed_iff : .label l ∈ groups.flatMap (·.instructions) ↔
    ∃ k ≤ items.length, target = ((start + cat.itemsSize (items.take k) : Nat) : Int)
  before_item : ∀ k (hk : k < items.length),
    target = ((start + cat.itemsSize (items.take k) : Nat) : Int) → ∃ g inst,
      [⟨g, start + cat.itemsSize (items.take k), .label l⟩,
        ⟨g, start + cat.itemsSize (items.take k), inst⟩] <:+: laidOut cat start groups ∧
      inst.items.head? = some items[k]
  at_end : target = ((endOffset cat start items : Nat) : Int) →
    ∃ G, groups.getLast? = some G ∧ G.instructions.getLast? = some (.label l)

/-- How the labels of a code are placed in groups `groups` with raw targets `raw`: each label of
its table as `PlacesLabel` says, with its target; every raw target with the word its target was
first read from; and no label but those of the table. -/
structure Code.LabelsPlaced (cat : Catalog) (start : Nat) (code : Code) (groups : List Group)
    (raw : List (LabelId × UInt16)) : Prop where
  each : ∀ i (hi : i < code.labels.targets.length),
    PlacesLabel cat start code.items groups raw ⟨i.toUInt16⟩ code.labels.targets[i].1
  raw_word : ∀ l ∈ raw.map (·.1), raw.lookup l = code.labels.wordOf? l
  only : ∀ l, .label l ∈ groups.flatMap (·.instructions) ∨ l ∈ raw.map (·.1) →
    ∃ i < code.labels.targets.length, l = ⟨i.toUInt16⟩

section Arranged

variable (cat : Catalog) (code : Code) {entries : List GroupEntry} (start dataLen : Nat)

/-- A label of a sound table is placed as `PlacesLabel` says. -/
theorem placesLabel_arrange (hne : entries ≠ []) (ht : code.labels.Sound)
    (hn : code.labels.targets.length ≤ 65536) (i : Nat) (hi : i < code.labels.targets.length) :
    PlacesLabel cat start code.items (code.arrange cat entries start dataLen).1
      (code.arrange cat entries start dataLen).2 ⟨i.toUInt16⟩ code.labels.targets[i].1 := by
  have hlabels := labelsOf_arrange cat code start dataLen hne
  have hnodup : (labelsOf ((code.arrange cat entries start dataLen).1.flatMap (·.instructions))).Nodup := by
    rw [hlabels]
    exact nodup_targetAt ht hn (boundaries_sorted cat start code.items)
  -- the label is in the groups exactly when its target is a boundary of the code
  have hmem : ⟨i.toUInt16⟩ ∈ labelsOf ((code.arrange cat entries start dataLen).1.flatMap (·.instructions)) ↔
      ∃ k ≤ code.items.length, code.labels.targets[i].1 = ((start + cat.itemsSize (code.items.take k) : Nat) : Int) := by
    rw [hlabels, mem_labels_targetAt_iff]
    simp only [ht.at?_eq_label_iff hn hi, mem_boundaries_iff]
    constructor
    · rintro ⟨b, ⟨k, hk, rfl⟩, hb⟩
      exact ⟨k, hk, hb⟩
    · rintro ⟨k, hk, hb⟩
      exact ⟨_, ⟨k, hk, rfl⟩, hb⟩
  have hraw := raw_arrange cat code start dataLen hne
  refine ⟨?_, ?_, fun k hk htarget => ?_, fun htarget => ?_⟩
  · rw [count_label_eq_count_labelsOf, hraw]
    by_cases hin : ⟨i.toUInt16⟩ ∈ labelsOf ((code.arrange cat entries start dataLen).1.flatMap (·.instructions))
    · -- placed in the groups, and so no raw target
      have hnone := LabelTable.lookup_unplaced_of_mem (t := code.labels) hin
      rw [List.count_eq_one_of_mem hnodup hin, List.count_eq_zero_of_not_mem]
      intro hkey
      obtain ⟨w, hw⟩ := exists_lookup_eq_some_of_mem hkey
      rw [hnone] at hw
      cases hw
    · -- a raw target, once
      have hsome := LabelTable.lookup_unplaced_of_not_mem hn hi (by simpa using hin)
      rw [List.count_eq_zero_of_not_mem hin,
        List.count_eq_one_of_mem (LabelTable.nodup_keys_unplaced hn _) (List.mem_map_of_mem (mem_of_lookup_eq_some hsome))]
  · rw [label_mem_iff_mem_labelsOf, hmem]
  · have hy : (code.items[k], start + cat.itemsSize (code.items.take k)) ∈ locate cat start code.items :=
      List.mem_of_getElem? (getElem?_locate cat start code.items k hk)
    obtain ⟨g, inst, hinf, hhead⟩ := walkAt_label_before cat code.labels (groupEnds entries dataLen) 0 start
      code.items _ hy _ ((ht.at?_eq_label_iff hn hi).2 htarget)
    refine ⟨g, inst, ?_, hhead⟩
    rw [laidOut_arrange cat code hne]
    exact hinf.trans ⟨[], _, rfl⟩
  · exact getLast?_arrange cat code start dataLen hne ((ht.at?_eq_label_iff hn hi).2 htarget)

/-- A sound table of at most `65536` targets has its labels placed as `Code.LabelsPlaced` says. -/
theorem labelsPlaced_arrange (hne : entries ≠ []) (ht : code.labels.Sound)
    (hn : code.labels.targets.length ≤ 65536) :
    code.LabelsPlaced cat start (code.arrange cat entries start dataLen).1
      (code.arrange cat entries start dataLen).2 := by
  have hraw := raw_arrange cat code start dataLen hne
  refine ⟨placesLabel_arrange cat code start dataLen hne ht hn, fun l hl => ?_, fun l hl => ?_⟩
  · obtain ⟨w, hw⟩ := exists_lookup_eq_some_of_mem hl
    rw [hw]
    rw [hraw] at hw
    obtain ⟨i, hi, rfl, rfl⟩ := LabelTable.lookup_unplaced hw
    simp [LabelTable.wordOf?, toNat_toUInt16_of_lt (by omega : i < 65536), hi]
  · rcases hl with hl | hl
    · rw [label_mem_iff_mem_labelsOf, labelsOf_arrange cat code start dataLen hne,
        mem_labels_targetAt_iff] at hl
      obtain ⟨b, -, hb⟩ := hl
      obtain ⟨i, hi, rfl⟩ := LabelTable.at?_eq_some_iff.1 hb
      exact ⟨i, (ht.idOf?_eq_some_iff.1 hi).1, rfl⟩
    · obtain ⟨w, hw⟩ := exists_lookup_eq_some_of_mem hl
      rw [hraw] at hw
      obtain ⟨i, hi, rfl, -⟩ := LabelTable.lookup_unplaced hw
      exact ⟨i, hi, rfl⟩

end Arranged

/-- Arranging a decoded code into a nonempty group table places each label of its table exactly
once: as a label instruction in the groups when its target is the offset of an item, right
before the instruction that item opens and in the same group, or the end of the code, last in the
last group; and as a raw target, with the word its target was first read from, otherwise. No
other label occurs. -/
theorem arrange_places_each_label {cat : Catalog} {block : List UInt8} {start : Nat} {code : Code}
    (h : Code.decode cat block start = .ok code) {entries : List GroupEntry} (hne : entries ≠ [])
    (dataLen : Nat) :
    code.LabelsPlaced cat start (code.arrange cat entries start dataLen).1
      (code.arrange cat entries start dataLen).2 := by
  obtain ⟨X, hX, -⟩ := Code.decode_relabels h
  have hlen := hX.sound.length_le
  exact labelsPlaced_arrange cat code start dataLen hne hX.sound (by omega)

/-- Arranged into one group, `threeJumps` keeps label `1` right before the jump at its target and
leaves label `0`, whose target lies past the end of the code, as a raw target. -/
example :
    threeJumpsCode.arrange exampleCatalog [⟨0, 0, 0⟩] 0 14 =
      ([⟨0, 0, [.command ⟨2, [0]⟩, .command ⟨2, [1]⟩, .label ⟨1⟩, .command ⟨2, [0]⟩,
        .command ⟨10, []⟩]⟩], [(⟨0⟩, 8)]) := by
  decide +kernel

theorem arrange_places_each_label_three_jumps :
    Code.decode exampleCatalog threeJumps 0 = .ok threeJumpsCode ∧
      threeJumpsCode.LabelsPlaced exampleCatalog 0
        (threeJumpsCode.arrange exampleCatalog [⟨0, 0, 0⟩] 0 14).1
        (threeJumpsCode.arrange exampleCatalog [⟨0, 0, 0⟩] 0 14).2 :=
  have h : Code.decode exampleCatalog threeJumps 0 = .ok threeJumpsCode := by decide +kernel
  ⟨h, arrange_places_each_label h (List.cons_ne_nil _ _) 14⟩

end DungeonFormats.Script
