import Mathlib
import DungeonFormats.Proofs.Regrouping

/-!
# Labels between reading and writing

The reader names every jump target by its index in a table that keeps, for each target, the
word it was first read from; the table it builds has each target where its word points and no
target twice (`LabelTable.Sound`). The writer places each label at the offset of the instruction
after it (`labelOffsets`, `placeLabels_eq_ok_iff`) and writes a jump parameter as half that
offset or, for a raw target, as the recorded word (`resolvedWord`), so that resolving a script's
groups maps their jump parameters by that word (`mapM_resolveGroup_eq_ok_iff`). A walk puts each
label right before the instruction at its target (`labelOffsets_placed`), and so a label read
back and written again points where the word it was read from did (`jumpTarget_resolvedWord`).
-/

namespace DungeonFormats.Script

/-- A key found in a list of pairs whose keys differ from one another finds its own value. -/
theorem lookup_eq_some_of_mem {α β : Type} [DecidableEq α] {a : α} {b : β} :
    ∀ {xs : List (α × β)}, (xs.map (·.1)).Nodup → (a, b) ∈ xs → xs.lookup a = some b
  | [], _, h => by simp at h
  | (a', b') :: xs, hnd, h => by
    rw [List.map_cons, List.nodup_cons] at hnd
    rcases List.mem_cons.1 h with hhead | htail
    · simp only [Prod.mk.injEq] at hhead
      obtain ⟨rfl, rfl⟩ := hhead
      simp
    · have hne : a ≠ a' := by
        rintro rfl
        exact hnd.1 (List.mem_map_of_mem (f := fun x => x.1) htail)
      simp only [List.lookup_cons, beq_false_of_ne hne]
      exact lookup_eq_some_of_mem hnd.2 htail

theorem mem_of_lookup_eq_some {α β : Type} [DecidableEq α] {a : α} {b : β} {xs : List (α × β)}
    (h : xs.lookup a = some b) : (a, b) ∈ xs := by
  obtain ⟨l₁, l₂, rfl, -⟩ := List.lookup_eq_some_iff.1 h
  simp

/-- Indices below `65536` are told apart by their labels. -/
theorem toUInt16_inj {i j : Nat} (hi : i < 65536) (hj : j < 65536) (h : i.toUInt16 = j.toUInt16) :
    i = j := by
  have := congrArg UInt16.toNat h
  rwa [toNat_toUInt16_of_lt hi, toNat_toUInt16_of_lt hj] at this

/-! ## The table of targets -/

namespace LabelTable

/-- A table as the reader builds it: each target is where its first word points, and no target
is noted twice. -/
structure Sound (t : LabelTable) : Prop where
  target_word : ∀ p ∈ t.targets, p.1 = jumpTarget p.2
  nodup : (t.targets.map (·.1)).Nodup

theorem sound_empty : empty.Sound :=
  ⟨by simp [empty], by simp [empty]⟩

theorem idOf?_eq_none_iff {t : LabelTable} {o : Int} : t.idOf? o = none ↔ ∀ p ∈ t.targets, p.1 ≠ o := by
  simp [idOf?, List.findIdx?_eq_none_iff]

theorem Sound.note {t : LabelTable} (ht : t.Sound) (w : UInt16) : (t.note (jumpTarget w) w).1.Sound := by
  have htargets := t.targets_note (jumpTarget w) w
  split at htargets
  · rw [List.append_nil] at htargets
    exact ⟨fun p hp => ht.target_word p (htargets ▸ hp), htargets ▸ ht.nodup⟩
  · -- a new target is noted with the word that points to it
    rename_i hnew
    have hnone : ∀ p ∈ t.targets, p.1 ≠ jumpTarget w :=
      idOf?_eq_none_iff.1 (Option.not_isSome_iff_eq_none.1 hnew)
    refine ⟨fun p hp => ?_, ?_⟩
    · rw [htargets, List.mem_append, List.mem_singleton] at hp
      rcases hp with hp | rfl
      exacts [ht.target_word p hp, rfl]
    · rw [htargets, List.map_append, List.nodup_append]
      refine ⟨ht.nodup, by simp, ?_⟩
      simp only [List.mem_map, List.map_cons, List.map_nil, List.mem_singleton]
      rintro _ ⟨p, hp, rfl⟩ _ rfl
      exact hnone p hp

theorem Sound.noteAll {t : LabelTable} (ht : t.Sound) : ∀ ws : List UInt16, (t.noteAll ws).Sound
  | [] => ht
  | w :: ws => by
    rw [noteAll_cons]
    exact (ht.note w).noteAll ws

theorem length_noteAll_le (t : LabelTable) :
    ∀ ws : List UInt16, (t.noteAll ws).targets.length ≤ t.targets.length + ws.length
  | [] => by simp
  | w :: ws => by
    have := length_noteAll_le (t.note (jumpTarget w) w).1 ws
    rw [noteAll_cons, List.length_cons]
    rw [targets_note] at this
    split at this <;> simp at this <;> omega

/-- In a sound table, the index of a target is where it stands. -/
theorem Sound.idOf?_eq_some_iff {t : LabelTable} (ht : t.Sound) {o : Int} {i : Nat} :
    t.idOf? o = some i ↔ ∃ h : i < t.targets.length, t.targets[i].1 = o := by
  unfold idOf?
  rw [List.findIdx?_eq_some_iff_getElem]
  constructor
  · rintro ⟨h, hi, -⟩
    exact ⟨h, by simpa using hi⟩
  · rintro ⟨h, rfl⟩
    refine ⟨h, by simp, fun j hj => ?_⟩
    -- an earlier target at the same offset would be noted twice
    have hinj := (List.nodup_iff_injective_get.1 ht.nodup)
    simp only [beq_iff_eq, ne_eq]
    intro heq
    have := @hinj ⟨j, by simp; omega⟩ ⟨i, by simpa using h⟩ (by simpa using heq)
    simp only [Fin.mk.injEq] at this
    omega

theorem at?_eq_some_iff {t : LabelTable} {o : Nat} {l : LabelId} :
    t.at? o = some l ↔ ∃ i, t.idOf? o = some i ∧ l = ⟨i.toUInt16⟩ := by
  simp [at?, eq_comm]

theorem labelOf_eq {t : LabelTable} {w : UInt16} {i : Nat} (h : t.idOf? (jumpTarget w) = some i) :
    t.labelOf w = i.toUInt16 := by
  simp [labelOf, h]

/-- The raw targets are targets of the table, none of the labels placed, each with its first
word. -/
theorem lookup_unplaced {t : LabelTable} {placed : List LabelId} {l : LabelId} {w : UInt16}
    (h : (t.unplaced placed).lookup l = some w) :
    ∃ i, ∃ hi : i < t.targets.length, l = ⟨i.toUInt16⟩ ∧ w = t.targets[i].2 := by
  have hmem := mem_of_lookup_eq_some h
  simp only [unplaced, List.mem_filterMap] at hmem
  obtain ⟨p, hp, hsome⟩ := hmem
  obtain ⟨k, hk, rfl⟩ := List.getElem_of_mem hp
  have hkt : k < t.targets.length := by simp at hk; omega
  simp only [List.getElem_zip, List.getElem_range] at hsome
  split at hsome
  · cases hsome
  · simp only [Option.some.injEq, Prod.mk.injEq] at hsome
    exact ⟨k, hkt, hsome.1.symm, hsome.2.symm⟩

/-- In a table of at most `65536` targets, the raw targets carry distinct labels. -/
theorem nodup_keys_unplaced {t : LabelTable} (hn : t.targets.length ≤ 65536) (placed : List LabelId) :
    ((t.unplaced placed).map (·.1)).Nodup := by
  -- the labels are those of indices below the table's length
  let key : Nat → Option LabelId := fun i =>
    if placed.contains ⟨i.toUInt16⟩ then none else some ⟨i.toUInt16⟩
  have hfst : ((List.range t.targets.length).zip t.targets).map Prod.fst = List.range t.targets.length :=
    List.map_fst_zip (by simp)
  have hkeys : (t.unplaced placed).map (·.1) = (List.range t.targets.length).filterMap key := by
    calc (t.unplaced placed).map (·.1)
        _ = ((List.range t.targets.length).zip t.targets).filterMap (key ∘ Prod.fst) := by
          unfold unplaced
          rw [List.map_filterMap]
          apply List.filterMap_congr
          intro p _
          simp only [Function.comp, key]
          split <;> rfl
        _ = (List.range t.targets.length).filterMap key := by rw [← List.filterMap_map, hfst]
  rw [hkeys]
  refine (List.Pairwise.and_mem.1 List.pairwise_lt_range).filterMap _ fun a a' h b hb b' hb' => ?_
  simp only [List.mem_range] at h
  simp only [key] at hb hb'
  split at hb <;> split at hb' <;> simp only [reduceCtorEq, Option.some.injEq] at hb hb'
  subst hb hb'
  intro heq
  have := toUInt16_inj (by omega) (by omega) (LabelId.mk.inj heq)
  omega

/-- In a table of at most `65536` targets, an unplaced target is found among the raw targets with
its first word. -/
theorem lookup_unplaced_of_not_mem {t : LabelTable} (hn : t.targets.length ≤ 65536)
    {placed : List LabelId} {i : Nat} (hi : i < t.targets.length)
    (hnot : placed.contains ⟨i.toUInt16⟩ = false) :
    (t.unplaced placed).lookup ⟨i.toUInt16⟩ = some t.targets[i].2 := by
  refine lookup_eq_some_of_mem (nodup_keys_unplaced hn placed) ?_
  simp only [unplaced, List.mem_filterMap]
  refine ⟨(i, t.targets[i]), ?_, by simpa using hnot⟩
  rw [List.mem_iff_getElem]
  exact ⟨i, by simpa using hi, by simp⟩

end LabelTable

/-! ## Where the writer places labels -/

/-- The label an instruction is, if it is one. -/
def Instruction.label? : Instruction → Option LabelId
  | .label l => some l
  | _ => none

/-- The labels among instructions laid out from offset `o`, each with the offset of the
instruction after it. -/
def labelOffsets (cat : Catalog) : Nat → List Instruction → List (LabelId × Nat)
  | _, [] => []
  | o, i :: is => (i.label?.map (·, o)).toList ++ labelOffsets cat (o + cat.instructionSize i) is

section Place

variable (cat : Catalog)

theorem commandsSize_eq (cs : List Command) : cat.commandsSize cs = cat.itemsSize (cs.map .command) := by
  induction cs with
  | nil => rfl
  | cons c cs ih => simp [Catalog.commandsSize, Catalog.itemsSize, Catalog.itemSize, ih]

/-- An instruction takes the room of the items it stands for. -/
theorem instructionSize_eq (i : Instruction) : cat.instructionSize i = cat.itemsSize i.items := by
  cases i <;> simp [Catalog.instructionSize, Instruction.items, Instruction.commands, commandsSize_eq,
    Catalog.itemsSize, Catalog.itemSize]

theorem labelOffsets_append (o : Nat) (xs ys : List Instruction) :
    labelOffsets cat o (xs ++ ys) =
      labelOffsets cat o xs ++ labelOffsets cat (o + cat.itemsSize (xs.flatMap Instruction.items)) ys := by
  induction xs generalizing o with
  | nil => simp [labelOffsets, Catalog.itemsSize]
  | cons x xs ih =>
    simp only [List.cons_append, labelOffsets, ih, List.append_assoc, List.flatMap_cons,
      itemsSize_append, instructionSize_eq, Nat.add_assoc]

theorem labelsOf_cons (i : Instruction) (is : List Instruction) :
    labelsOf (i :: is) = i.label?.toList ++ labelsOf is := by
  cases i <;> rfl

/-- The labels among instructions, in order, are those the writer places. -/
theorem labelsOf_eq_labelOffsets : ∀ (o : Nat) (is : List Instruction),
    labelsOf is = (labelOffsets cat o is).map (·.1)
  | _, [] => rfl
  | o, i :: is => by
    rw [labelsOf_cons, labelOffsets, List.map_append, ← labelsOf_eq_labelOffsets (o + cat.instructionSize i) is]
    cases i.label? <;> rfl

theorem Instruction.label?_eq_some_iff {i : Instruction} {l : LabelId} :
    i.label? = some l ↔ i = .label l := by
  cases i <;> simp [Instruction.label?]

/-- A label is refused when placed before or raw, and else noted at the offset it stands at. -/
theorem placeLabels_cons_label (raw : List (LabelId × UInt16)) (l : LabelId) (is : List Instruction)
    (o : Nat) (acc : List (LabelId × Nat)) :
    placeLabels cat raw (.label l :: is) o acc =
      if (acc.lookup l).isSome then .error (.definedTwice l)
      else if (raw.lookup l).isSome then .error (.definedAndRaw l)
      else placeLabels cat raw is o ((l, o) :: acc) := by
  rw [placeLabels]
  by_cases h1 : (acc.lookup l).isSome
  · simp only [h1, if_true]
    rfl
  · by_cases h2 : (raw.lookup l).isSome <;> simp only [h1, h2, if_true, if_false, Bool.false_eq_true] <;> rfl

/-- Anything but a label passes to the rest. -/
theorem placeLabels_cons_of_label?_eq_none {i : Instruction} (hi : i.label? = none)
    (raw : List (LabelId × UInt16)) (is : List Instruction) (o : Nat) (acc : List (LabelId × Nat)) :
    placeLabels cat raw (i :: is) o acc = placeLabels cat raw is (o + cat.instructionSize i) acc := by
  cases i with
  | label l => cases hi
  | _ => rw [placeLabels] <;> first | rfl | (intro l h; cases h)

/-- Placing labels succeeds exactly when no label is placed twice, before or among the
instructions, or is also raw, and then gives every label the offset of the instruction after it. -/
theorem placeLabels_eq_ok_iff (raw : List (LabelId × UInt16)) :
    ∀ (is : List Instruction) (o : Nat) (acc targets : List (LabelId × Nat)),
      placeLabels cat raw is o acc = .ok targets ↔
        ((labelOffsets cat o is).map (·.1)).Nodup ∧
          (∀ l ∈ (labelOffsets cat o is).map (·.1), acc.lookup l = none ∧ raw.lookup l = none) ∧
          targets = (labelOffsets cat o is).reverse ++ acc
  | [], o, acc, targets => by
    rw [placeLabels.eq_1]
    simp only [labelOffsets, List.reverse_nil, List.nil_append, Except.ok.injEq]
    constructor
    · rintro rfl
      exact ⟨List.nodup_nil, fun l hl => absurd hl List.not_mem_nil, rfl⟩
    · rintro ⟨-, -, rfl⟩
      rfl
  | i :: is, o, acc, targets => by
    have ih := placeLabels_eq_ok_iff raw is
    cases hi : i.label? with
    | none =>
      rw [placeLabels_cons_of_label?_eq_none cat hi, ih, labelOffsets, hi, Option.map_none,
        Option.toList_none, List.nil_append]
    | some l =>
      obtain rfl := Instruction.label?_eq_some_iff.1 hi
      have hhead : l ∈ (labelOffsets cat o (.label l :: is)).map (·.1) :=
        List.mem_map.2 ⟨(l, o), List.mem_append_left _ (List.mem_singleton_self _), rfl⟩
      rw [placeLabels_cons_label]
      by_cases hdup : (acc.lookup l).isSome
      · -- placed before
        rw [if_pos hdup]
        simp only [reduceCtorEq, false_iff]
        rintro ⟨-, hfresh, -⟩
        simp [(hfresh l hhead).1] at hdup
      by_cases hraw : (raw.lookup l).isSome
      · -- raw as well
        rw [if_neg hdup, if_pos hraw]
        simp only [reduceCtorEq, false_iff]
        rintro ⟨-, hfresh, -⟩
        simp [(hfresh l hhead).2] at hraw
      rw [if_neg hdup, if_neg hraw, ih]
      simp only [labelOffsets, Instruction.label?, Option.map_some, Option.toList_some,
        Catalog.instructionSize, Nat.add_zero, List.map_cons, List.nodup_cons, List.mem_cons,
        forall_eq_or_imp, List.reverse_cons, List.append_assoc, List.cons_append, List.nil_append]
      simp only [Option.not_isSome_iff_eq_none] at hdup hraw
      constructor
      · rintro ⟨hnd, hfresh, rfl⟩
        refine ⟨⟨fun hmem => ?_, hnd⟩, ⟨⟨hdup, hraw⟩, fun l' hl' => ?_⟩, rfl⟩
        · have := (hfresh l hmem).1
          simp only [List.lookup_cons_self, reduceCtorEq] at this
        · have := hfresh l' hl'
          by_cases hll : l' = l
          · subst hll
            simp only [List.lookup_cons_self, reduceCtorEq, false_and] at this
          · simp only [List.lookup_cons, beq_false_of_ne hll] at this
            exact this
      · rintro ⟨⟨hnot, hnd⟩, ⟨-, hfresh⟩, rfl⟩
        refine ⟨hnd, fun l' hl' => ?_, rfl⟩
        have hll : l' ≠ l := fun h => hnot (h ▸ hl')
        simp only [List.lookup_cons, beq_false_of_ne hll]
        exact hfresh l' hl'

end Place

/-! ## A walk puts each label before the instruction at its target -/

section Walk

variable (cat : Catalog) (L : LabelTable)

/-- The instruction an item opens is never a label. -/
theorem label?_openWith (e : Nat) (it : Item) (rest : List (Item × Nat)) :
    (openWith cat L e it rest).1.label? = none := by
  cases it with
  | data w => rfl
  | command c =>
    simp only [openWith]
    unfold gather
    split
    · dsimp only
      split <;> rfl
    · dsimp only
      split <;> rfl
    · split
      · split <;> rfl
      · rfl
    · rfl

theorem labelOffsets_labelMark (g o n : Nat) :
    ∀ p ∈ labelOffsets cat n ((labelMark L g o).map (·.2)), L.at? o = some p.1 ∧ p.2 = n := by
  unfold labelMark
  split
  · rename_i l hl
    simp [labelOffsets, Instruction.label?, hl]
  · simp [labelOffsets]

/-- Every label a walk hands out stands right before the item at its target. -/
theorem labelOffsets_walk (ends : List Nat) :
    ∀ (n cur o : Nat) (items : List Item), items.length ≤ n →
      ∀ p ∈ labelOffsets cat o ((walk cat L ends cur (locate cat o items)).map (·.2)),
        L.at? p.2 = some p.1
  | _, _, _, [], _ => by simp [locate, walk, labelOffsets]
  | 0, _, _, _ :: _, hn => absurd hn (by simp)
  | n + 1, cur, o, it :: items, hn => by
    obtain ⟨⟨inst, k⟩, hfold⟩ : ∃ p, openWith cat L (ends.getD (advance ends cur o) 0) it
        (locate cat (o + cat.itemSize it) items) = p := ⟨_, rfl⟩
    have hinst := items_of_openWith cat L hfold
    have hlabel : inst.label? = none := by
      have := label?_openWith cat L (ends.getD (advance ends cur o) 0) it (locate cat (o + cat.itemSize it) items)
      rwa [hfold] at this
    have hmark := labelMark_spec L (advance ends cur o) o
    have hnone : ((labelMark L (advance ends cur o) o).map (·.2)).flatMap Instruction.items = [] := by
      simp only [List.flatMap_map]
      exact List.flatMap_eq_nil_iff.2 fun p hp => (hmark p hp).2
    rw [locate_cons, walk_cons, hfold, locate_drop]
    intro p hp
    simp only [List.map_append, List.map_cons] at hp
    rw [labelOffsets_append, hnone, labelOffsets] at hp
    simp only [hlabel, Option.map_none, Option.toList_none, List.nil_append, List.mem_append] at hp
    rcases hp with hp | hp
    · -- the label before the item, at the item's own offset
      obtain ⟨hat, ho⟩ := labelOffsets_labelMark cat L _ o o p hp
      rw [ho]
      exact hat
    · -- the rest of the walk, past the instruction, by induction
      rw [instructionSize_eq, hinst] at hp
      refine labelOffsets_walk ends n (advance ends cur o) (o + cat.itemSize it + cat.itemsSize (items.take k))
        (items.drop k) (by simp at hn ⊢; omega) p ?_
      simpa [Catalog.itemsSize, Nat.add_assoc] using hp

/-- Every label placed by arranging stands right before the instruction at its target, or at the
end of the code. -/
theorem labelOffsets_placed (code : Code) (entries : List GroupEntry) (start dataLen : Nat) :
    ∀ p ∈ labelOffsets cat start ((code.placed cat entries start dataLen).map (·.2)),
      code.labels.at? p.2 = some p.1 := by
  intro p hp
  have hw := walk_out cat code.labels (groupEnds entries dataLen) 0 (locate cat start code.items)
  rw [Code.placed, List.map_append, labelOffsets_append, List.flatMap_map] at hp
  rcases List.mem_append.1 hp with hp | hp
  · exact labelOffsets_walk cat code.labels _ _ 0 start code.items le_rfl p hp
  · -- the label at the end of the code
    rw [show (walk cat code.labels (groupEnds entries dataLen) 0 (locate cat start code.items)).flatMap
        (fun a => a.2.items) = code.items by rw [hw.items, map_fst_locate]] at hp
    obtain ⟨hat, ho⟩ := labelOffsets_labelMark cat code.labels _ _ _ p hp
    rw [ho]
    exact hat

end Walk

/-! ## What the writer resolves a label to -/

/-- A traversal whose step succeeds exactly where `P` holds, with `g` of its input, succeeds
exactly where `P` holds of every element, with the map by `g`. -/
theorem Except.mapM_eq_ok_iff_map {ε α β : Type} {f : α → Except ε β} {P : α → Prop} {g : α → β}
    (hf : ∀ x y, f x = .ok y ↔ P x ∧ y = g x) :
    ∀ {xs : List α} {ys : List β}, xs.mapM f = .ok ys ↔ (∀ x ∈ xs, P x) ∧ ys = xs.map g
  | [], ys => by
    simp only [List.mapM_nil, pure, Except.pure, Except.ok.injEq, List.not_mem_nil,
      IsEmpty.forall_iff, implies_true, List.map_nil, true_and]
    exact eq_comm
  | x :: xs, ys => by
    rw [List.mapM_cons, Except.bind_eq_ok_iff]
    constructor
    · rintro ⟨y, hy, h⟩
      obtain ⟨ys', hys', h⟩ := Except.bind_eq_ok_iff.1 h
      cases h
      obtain ⟨hx, rfl⟩ := (hf x y).1 hy
      obtain ⟨hxs, rfl⟩ := (Except.mapM_eq_ok_iff_map hf).1 hys'
      exact ⟨List.forall_mem_cons.2 ⟨hx, hxs⟩, rfl⟩
    · rintro ⟨hall, rfl⟩
      obtain ⟨hx, hxs⟩ := List.forall_mem_cons.1 hall
      exact ⟨g x, (hf x _).2 ⟨hx, rfl⟩, Except.bind_eq_ok_iff.2
        ⟨xs.map g, (Except.mapM_eq_ok_iff_map hf).2 ⟨hxs, rfl⟩, rfl⟩⟩

section Resolve

variable (cat : Catalog) (targets : List (LabelId × Nat)) (raw : List (LabelId × UInt16))

/-- The word a jump parameter holding label `p` is written as: half the offset the label is
placed at, or the word of its raw target. -/
def resolvedWord (p : UInt16) : UInt16 :=
  match targets.lookup ⟨p⟩ with
  | some o => (o / 2).toUInt16
  | none => (raw.lookup ⟨p⟩).getD p

/-- A label a jump parameter can be written for: placed below `0x8000`, or raw. -/
def Resolvable (p : UInt16) : Prop :=
  match targets.lookup ⟨p⟩ with
  | some o => o / 2 < 0x4000
  | none => (raw.lookup ⟨p⟩).isSome = true

/-- An instruction whose commands the writer can write: each described by the catalog with the
parameters its arity asks, and each jump parameter resolvable. -/
def Writable (i : Instruction) : Prop :=
  ∀ c ∈ i.commands, cat.ReadableItem (.command c) ∧ ∀ p ∈ cat.commandJumps c, Resolvable targets raw p

theorem resolveParam_eq_ok_iff (info : OpcodeInfo) (i : Nat) (p w : UInt16) :
    resolveParam targets raw info i p = .ok w ↔
      ((info.kindAt i).isJump → Resolvable targets raw p) ∧
        w = if (info.kindAt i).isJump then resolvedWord targets raw p else p := by
  unfold resolveParam resolvedWord Resolvable
  by_cases hj : (info.kindAt i).isJump
  · simp only [hj, if_true, forall_const]
    cases ht : targets.lookup ⟨p⟩ with
    | some o =>
      by_cases ho : o / 2 < 0x4000
      · simp only [ho, if_true, Except.ok.injEq, true_and]
        exact eq_comm
      · simp [ho]
    | none =>
      cases hr : raw.lookup ⟨p⟩ with
      | some v =>
        simp only [Except.ok.injEq, Option.isSome_some, Option.getD_some, true_and]
        exact eq_comm
      | none => simp
  · simp only [hj, Bool.false_eq_true, if_false, IsEmpty.forall_iff, true_and, Except.ok.injEq]
    exact eq_comm

theorem resolveParams_eq_ok_iff (info : OpcodeInfo) :
    ∀ (i : Nat) (ps ws : List UInt16), resolveParams targets raw info i ps = .ok ws ↔
      (∀ p ∈ jumpParams info i ps, Resolvable targets raw p) ∧
        ws = mapParams info (resolvedWord targets raw) i ps
  | _, [], ws => by
    simp only [resolveParams, jumpParams, mapParams, List.not_mem_nil, IsEmpty.forall_iff,
      implies_true, true_and, Except.ok.injEq]
    exact eq_comm
  | i, p :: ps, ws => by
    rw [resolveParams, Except.bind_eq_ok_iff]
    simp only [resolveParam_eq_ok_iff, Except.bind_eq_ok_iff, resolveParams_eq_ok_iff info (i + 1) ps,
      pure, Except.pure, Except.ok.injEq, jumpParams, mapParams, List.mem_append]
    by_cases hj : (info.kindAt i).isJump
    · simp only [hj, if_true, forall_const, List.mem_singleton]
      constructor
      · rintro ⟨w, ⟨hp, rfl⟩, ws', ⟨hps, rfl⟩, rfl⟩
        exact ⟨fun q hq => hq.elim (fun h => h ▸ hp) (hps q), rfl⟩
      · rintro ⟨hall, rfl⟩
        exact ⟨_, ⟨hall p (.inl rfl), rfl⟩, _, ⟨fun q hq => hall q (.inr hq), rfl⟩, rfl⟩
    · simp only [hj, Bool.false_eq_true, if_false, IsEmpty.forall_iff, true_and, List.not_mem_nil,
        false_or]
      constructor
      · rintro ⟨w, rfl, ws', ⟨hps, rfl⟩, rfl⟩
        exact ⟨hps, rfl⟩
      · rintro ⟨hall, rfl⟩
        exact ⟨_, rfl, _, ⟨hall, rfl⟩, rfl⟩

theorem resolveCommand_eq_ok_iff (c c' : Command) :
    resolveCommand cat targets raw c = .ok c' ↔
      (cat.ReadableItem (.command c) ∧ ∀ p ∈ cat.commandJumps c, Resolvable targets raw p) ∧
        c' = cat.mapCommand (resolvedWord targets raw) c := by
  unfold resolveCommand Catalog.ReadableItem Catalog.commandJumps Catalog.mapCommand
  split
  · rename_i hnone
    simp [hnone]
  · rename_i info hinfo
    simp only [hinfo, Option.some.injEq, exists_eq_left', Except.bind_eq_ok_iff,
      resolveParams_eq_ok_iff, pure, Except.pure, Except.ok.injEq]
    constructor
    · rintro ⟨u, harity, ps, ⟨hps, rfl⟩, rfl⟩
      exact ⟨⟨by cases u; exact harity, hps⟩, rfl⟩
    · rintro ⟨⟨harity, hps⟩, rfl⟩
      exact ⟨(), harity, _, ⟨hps, rfl⟩, rfl⟩

/-- Resolving an instruction maps its items by the resolved words, where it can be written. -/
theorem resolveInstruction_eq_ok_iff (i : Instruction) (its : List Item) :
    resolveInstruction cat targets raw i = .ok its ↔
      Writable cat targets raw i ∧ its = i.items.map (cat.mapItem (resolvedWord targets raw)) := by
  have hcmds : ∀ cs : List Command, (cs.mapM (resolveCommand cat targets raw)).map
      (·.map Item.command) = .ok its ↔
        (∀ c ∈ cs, cat.ReadableItem (.command c) ∧ ∀ p ∈ cat.commandJumps c, Resolvable targets raw p) ∧
          its = (cs.map Item.command).map (cat.mapItem (resolvedWord targets raw)) := by
    intro cs
    rw [Except.map_eq_ok_iff]
    simp only [Except.mapM_eq_ok_iff_map (resolveCommand_eq_ok_iff cat targets raw), List.map_map]
    constructor
    · rintro ⟨cs', ⟨hall, rfl⟩, rfl⟩
      exact ⟨hall, by simp [Function.comp, Catalog.mapItem]⟩
    · rintro ⟨hall, rfl⟩
      exact ⟨_, ⟨hall, rfl⟩, by simp [Function.comp, Catalog.mapItem]⟩
  cases i with
  | data w => simp [resolveInstruction, Writable, Instruction.items, Instruction.commands,
      Catalog.mapItem, eq_comm]
  | label l => simp [resolveInstruction, Writable, Instruction.items, Instruction.commands, eq_comm]
  | command c => exact hcmds [c]
  | switch c cs => exact hcmds (c :: cs)
  | special c cs => exact hcmds (c :: cs)
  | accessor c a => exact hcmds [c, a]

/-- Resolving a script's groups maps the jump parameters of their items by the resolved words,
where every instruction can be written. -/
theorem mapM_resolveGroup_eq_ok_iff (gs : List Group) (codes : List GroupCode) :
    gs.mapM (resolveGroup cat targets raw) = .ok codes ↔
      (∀ g ∈ gs, ∀ i ∈ g.instructions, Writable cat targets raw i) ∧
        codes = gs.map fun g => ⟨g.kind, g.unk2, g.items.map (cat.mapItem (resolvedWord targets raw))⟩ := by
  refine Except.mapM_eq_ok_iff_map fun g code => ?_
  unfold resolveGroup
  rw [Except.bind_eq_ok_iff]
  simp only [Except.mapM_eq_ok_iff_map (resolveInstruction_eq_ok_iff cat targets raw), pure,
    Except.pure, Except.ok.injEq]
  constructor
  · rintro ⟨_, ⟨hall, rfl⟩, rfl⟩
    exact ⟨hall, by rw [Group.items, List.map_flatMap]; rfl⟩
  · rintro ⟨hall, rfl⟩
    exact ⟨_, ⟨hall, rfl⟩, by rw [Group.items, List.map_flatMap]; rfl⟩

end Resolve

/-! ## Labels read back and written again -/

section Again

variable {t : LabelTable} {targets : List (LabelId × Nat)} {raw : List (LabelId × UInt16)}

/-- A jump word read into a sound table of at most `65536` targets, its label then written
where the label stands before its target or as a raw target of the table, points where it
pointed. -/
theorem jumpTarget_resolvedWord (ht : t.Sound) (hn : t.targets.length ≤ 65536)
    (htargets : ∀ l o, targets.lookup l = some o → t.at? o = some l)
    (hraw : ∀ l v, raw.lookup l = some v → ∃ i, ∃ hi : i < t.targets.length, l = ⟨i.toUInt16⟩ ∧ v = t.targets[i].2)
    {w : UInt16} (hw : (t.idOf? (jumpTarget w)).isSome) (hres : Resolvable targets raw (t.labelOf w)) :
    jumpTarget (resolvedWord targets raw (t.labelOf w)) = jumpTarget w := by
  obtain ⟨i, hi⟩ := Option.isSome_iff_exists.1 hw
  obtain ⟨hilt, hio⟩ := ht.idOf?_eq_some_iff.1 hi
  rw [LabelTable.labelOf_eq hi] at hres ⊢
  unfold resolvedWord
  unfold Resolvable at hres
  split
  · -- placed: half the offset of the instruction at the target
    rename_i o ho
    simp only [ho] at hres
    obtain ⟨j, hj, hlj⟩ := LabelTable.at?_eq_some_iff.1 (htargets _ _ ho)
    obtain ⟨hjlt, hjo⟩ := ht.idOf?_eq_some_iff.1 hj
    obtain rfl : i = j := toUInt16_inj (by omega) (by omega) (congrArg LabelId.val hlj)
    have hoeq : (o : Int) = jumpTarget w := hjo.symm.trans hio
    have heven : o % 2 = 0 := by
      unfold jumpTarget at hoeq
      omega
    rw [jumpTarget_half heven hres, hoeq]
  · -- raw: the word the target was first read from
    rename_i hnone
    simp only [hnone] at hres
    obtain ⟨v, hv⟩ := Option.isSome_iff_exists.1 hres
    obtain ⟨j, hjlt, hlj, rfl⟩ := hraw _ _ hv
    obtain rfl : i = j := toUInt16_inj (by omega) (by omega) (congrArg LabelId.val hlj)
    rw [hv, Option.getD_some, ← ht.target_word _ (List.getElem_mem hjlt), hio]

/-- A target on no instruction, read into a sound table of at most `65536` targets, is written
again as the word it was first read from. -/
theorem resolvedWord_unplaced (ht : t.Sound) (hn : t.targets.length ≤ 65536) {placed : List LabelId}
    (htargets : ∀ l o, targets.lookup l = some o → l ∈ placed) {i : Nat} (hi : i < t.targets.length)
    (hnot : placed.contains ⟨i.toUInt16⟩ = false) :
    resolvedWord targets (t.unplaced placed) (t.labelOf t.targets[i].2) = t.targets[i].2 := by
  have hself : t.idOf? (jumpTarget t.targets[i].2) = some i :=
    ht.idOf?_eq_some_iff.2 ⟨hi, ht.target_word _ (List.getElem_mem hi)⟩
  have hfree : targets.lookup ⟨i.toUInt16⟩ = none := by
    cases hl : targets.lookup ⟨i.toUInt16⟩ with
    | none => rfl
    | some o => exact absurd (htargets _ _ hl) (by simpa using hnot)
  rw [LabelTable.labelOf_eq hself, resolvedWord, hfree, LabelTable.lookup_unplaced_of_not_mem hn hi hnot,
    Option.getD_some]

end Again

end DungeonFormats.Script
