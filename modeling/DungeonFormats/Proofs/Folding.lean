import Mathlib
import DungeonFormats.Proofs.Arranged
import DungeonFormats.Proofs.LabelNumbering

/-!
# Folding is sound and greedy

Reading folds commands that belong together into one instruction: a switch or a special process
takes the case and default branches right after it, an entity accessor the one attribute command
right after it, each only while the command lies below the end of the group and is no jump
target. Every instruction that results has the shape the folding promises
(`Instruction.WellFolded`): a switch or special process heads a nonempty list of branches, an
accessor heads an attribute command, and a switch or special process that no branch follows stays
a plain command. Folding is greedy: the instruction right after a fold, in the same group, below
its end and no jump target, is never a command the fold would have taken (`Instruction.admits`,
`walkAt_greedy`). `arrange_folds_fully` says this of the groups `Code.arrange` returns.
-/

namespace DungeonFormats.Script

/-- An instruction folded the way reading folds: a switch or a special process heads a nonempty
list of branches, each a case or default branch, and an entity accessor heads an attribute
command. -/
def Instruction.WellFolded (cat : Catalog) : Instruction → Prop
  | .switch c arms =>
    cat.category c.opcode = .switch ∧ arms ≠ [] ∧ ∀ a ∈ arms, (cat.category a.opcode).isArm
  | .special c arms =>
    cat.category c.opcode = .special ∧ arms ≠ [] ∧ ∀ a ∈ arms, (cat.category a.opcode).isArm
  | .accessor c a => cat.category c.opcode = .accessor ∧ cat.category a.opcode = .attribute
  | _ => True

/-- Whether the command `c` is one the instruction would take as its next folded command: the
instruction is a switch or special process, folded or not, and `c` a branch; or it is a plain
entity accessor and `c` an attribute command. -/
def Instruction.admits (cat : Catalog) : Instruction → Command → Bool
  | .command a, c =>
    ((cat.category a.opcode == .switch || cat.category a.opcode == .special) &&
        (cat.category c.opcode).isArm) ||
      (cat.category a.opcode == .accessor && cat.category c.opcode == .attribute)
  | .switch _ _, c => (cat.category c.opcode).isArm
  | .special _ _, c => (cat.category c.opcode).isArm
  | _, _ => false

/-- Dropping the run taken while `p` holds drops while `p` holds. -/
theorem drop_length_takeWhile {α : Type} (p : α → Bool) :
    ∀ l : List α, l.drop (l.takeWhile p).length = l.dropWhile p
  | [] => rfl
  | a :: l => by
    rw [List.takeWhile_cons, List.dropWhile_cons]
    split
    · simp [drop_length_takeWhile p l]
    · simp

/-- The first element a run taken while `p` holds leaves behind fails `p`. -/
theorem head?_drop_takeWhile {α : Type} (p : α → Bool) (l : List α) :
    ∀ y ∈ (l.drop (l.takeWhile p).length).head?, p y = false := by
  rw [drop_length_takeWhile]
  intro y hy
  have := List.head?_dropWhile_not p l
  rw [Option.mem_def.1 hy] at this
  exact this

section Fold

variable (cat : Catalog) (L : LabelTable)

/-- The branches a switch or special process takes are commands of branch categories. -/
theorem isArm_of_mem_arms {e : Nat} {rest : List (Item × Nat)} {a : Command}
    (ha : a ∈ commandsOf (rest.takeWhile (joins cat L e Category.isArm))) :
    (cat.category a.opcode).isArm := by
  obtain ⟨⟨it, o⟩, hmem, hsome⟩ := List.mem_filterMap.1 ha
  cases it with
  | data w => cases hsome
  | command c =>
    cases hsome
    have hjoin := List.mem_takeWhile_imp hmem
    simp only [joins, Bool.and_eq_true] at hjoin
    exact hjoin.2

/-- A switch or special process that some branch joined heads a nonempty list of branches. -/
theorem arms_ne_nil {e : Nat} {rest : List (Item × Nat)}
    (h : (rest.takeWhile (joins cat L e Category.isArm)).isEmpty = false) :
    commandsOf (rest.takeWhile (joins cat L e Category.isArm)) ≠ [] := by
  intro hnil
  have hmap := @map_commandsOf cat L e Category.isArm (rest.takeWhile (joins cat L e Category.isArm))
    fun x hx => List.mem_takeWhile_imp hx
  rw [hnil, List.map_nil] at hmap
  simp [List.map_eq_nil_iff.1 hmap.symm] at h

/-- Every instruction an item opens is folded the way reading folds. -/
theorem wellFolded_openWith (e : Nat) (it : Item) (rest : List (Item × Nat)) :
    (openWith cat L e it rest).1.WellFolded cat := by
  cases it with
  | data w => trivial
  | command c =>
    simp only [openWith]
    unfold gather
    split
    · -- a switch, with the branches that joined it if any did
      rename_i hcat
      dsimp only
      split
      · trivial
      · rename_i hne
        exact ⟨hcat, arms_ne_nil cat L (by simpa using hne),
          fun a ha => isArm_of_mem_arms cat L ha⟩
    · -- a special process, likewise
      rename_i hcat
      dsimp only
      split
      · trivial
      · rename_i hne
        exact ⟨hcat, arms_ne_nil cat L (by simpa using hne),
          fun a ha => isArm_of_mem_arms cat L ha⟩
    · -- an entity accessor, with the attribute command after it if that joined
      rename_i hcat
      split
      · split
        · rename_i hjoin
          simp only [joins, Bool.and_eq_true, beq_iff_eq] at hjoin
          exact ⟨hcat, hjoin.2⟩
        · trivial
      · trivial
    · trivial

/-- Reading folds greedily: the command right after what an item's instruction took, below the
group's end and no jump target, is not one the instruction would take. -/
theorem admits_openWith_eq_false (e : Nat) (it : Item) (rest : List (Item × Nat)) {c : Command}
    {o : Nat} (hnext : (rest.drop (openWith cat L e it rest).2).head? = some (.command c, o))
    (hlt : o < e) (hnt : L.at? o = none) :
    (openWith cat L e it rest).1.admits cat c = false := by
  -- below the end and no jump target, the command joins exactly when its category is accepted
  have hjoin : ∀ accepts : Category → Bool,
      joins cat L e accepts (.command c, o) = accepts (cat.category c.opcode) := by
    intro accepts
    simp [joins, hlt, hnt]
  -- a run of branches stops before a command that is no branch
  have harms : (rest.drop (rest.takeWhile (joins cat L e Category.isArm)).length).head? =
      some (.command c, o) → (cat.category c.opcode).isArm = false := by
    intro h
    rw [← hjoin Category.isArm]
    exact head?_drop_takeWhile _ rest _ h
  cases it with
  | data w => rfl
  | command a =>
    simp only [openWith] at hnext ⊢
    cases hcat : cat.category a.opcode
    case switch | special =>
      simp only [gather, hcat] at hnext ⊢
      by_cases hemp : (rest.takeWhile (joins cat L e Category.isArm)).isEmpty
      · -- no branch joined: the command stays plain, and the next item is the first
        have hlen : (rest.takeWhile (joins cat L e Category.isArm)).length = 0 := by
          simp [List.isEmpty_iff.1 hemp]
        simp only [hemp, if_true, List.drop_zero] at hnext ⊢
        simp [Instruction.admits, hcat, harms (by rw [hlen, List.drop_zero]; exact hnext)]
      · simp only [hemp, Bool.false_eq_true, if_false] at hnext ⊢
        simp [Instruction.admits, harms hnext]
    case accessor =>
      simp only [gather, hcat] at hnext ⊢
      split at hnext
      · rename_i a' o' tail
        by_cases hj : joins cat L e (· == Category.attribute) (.command a', o') = true
        · simp [hj, Instruction.admits]
        · -- the attribute command after the accessor did not join, so it is none
          simp only [hj, Bool.false_eq_true, if_false, List.drop_zero, List.head?_cons,
            Option.some.injEq, Prod.mk.injEq, Item.command.injEq] at hnext ⊢
          obtain ⟨rfl, rfl⟩ := hnext
          rw [hjoin] at hj
          simp [Instruction.admits, hcat, hj]
      · simp only [List.drop_zero] at hnext
        rename_i hnot
        cases rest with
        | nil => cases hnext
        | cons y tail =>
          simp only [List.head?_cons, Option.some.injEq] at hnext
          exact (hnot c o tail (by rw [hnext])).elim
    all_goals simp [gather, hcat, Instruction.admits]

/-- The instruction an item opens is a plain command only if the item is that command. -/
theorem eq_of_openWith_eq_command (e : Nat) (it : Item) (rest : List (Item × Nat)) {c : Command}
    (h : (openWith cat L e it rest).1 = .command c) : it = .command c := by
  have hitems := openWith_items cat L e it rest
  rw [h] at hitems
  simp only [Instruction.items, Instruction.commands, List.map_cons, List.map_nil, List.cons.injEq] at hitems
  exact hitems.1.symm

end Fold

/-! ## Greedy walks -/

section Walk

variable (cat : Catalog) (L : LabelTable) (ends : List Nat)

/-- Of two instructions one right after the other: if the second is a command in the same group,
below the group's end and no jump target, the first would not take it. -/
def Greedy (x y : Located) : Prop :=
  x.group = y.group → ∀ c, y.inst = .command c → L.at? y.offset = none →
    y.offset < ends.getD x.group 0 → x.inst.admits cat c = false

/-- Nothing is greedy-checked against a label: a label takes no command. -/
theorem greedy_of_labelAt {g o : Nat} {x : Located} (hx : x ∈ labelAt L g o) (y : Located) :
    Greedy cat L ends x y := by
  intro _ c _ _ _
  obtain ⟨-, -, l, -, hl⟩ := labelAt_spec L g o x hx
  simp [hl, Instruction.admits]

/-- Nothing is greedy-checked against a label: a label is no command. -/
theorem greedy_of_label (x : Located) {y : Located} {l : LabelId} (hl : y.inst = .label l) :
    Greedy cat L ends x y := by
  intro _ c hc
  rw [hl] at hc
  cases hc

theorem isChain_labelAt (R : Located → Located → Prop) (g o : Nat) : (labelAt L g o).IsChain R := by
  unfold labelAt labelMark
  split <;> simp

/-- A walk starts with the label of its first item, if any, then the instruction the item opens. -/
theorem head?_walkAt (cur o : Nat) (it : Item) (items : List Item) :
    ∀ y ∈ (walkAt cat L ends cur o (it :: items)).head?, (∃ l, y.inst = .label l) ∨
      y = ⟨advance ends cur o, o,
        (openWith cat L (ends.getD (advance ends cur o) 0) it (locate cat (o + cat.itemSize it) items)).1⟩ := by
  intro y hy
  rw [walkAt.eq_2] at hy
  unfold labelAt labelMark at hy
  split at hy <;> simp at hy <;> subst hy <;> simp

/-- Every instruction of a walk is folded the way reading folds. -/
theorem walkAt_wellFolded (cur o : Nat) (items : List Item) :
    ∀ x ∈ walkAt cat L ends cur o items, x.inst.WellFolded cat := by
  fun_induction walkAt cat L ends cur o items with
  | case1 cur o => simp
  | case2 cur o it items g opened ih =>
    intro x hx
    rcases List.mem_append.1 hx with hx | hx
    · obtain ⟨-, -, l, -, hl⟩ := labelAt_spec L g o x hx
      simp [hl, Instruction.WellFolded]
    rcases List.mem_cons.1 hx with rfl | hx
    · exact wellFolded_openWith cat L _ it _
    · exact ih x hx

/-- A walk folds greedily: each instruction and the one right after it are `Greedy`. -/
theorem walkAt_greedy (cur o : Nat) (items : List Item) :
    (walkAt cat L ends cur o items).IsChain (Greedy cat L ends) := by
  fun_induction walkAt cat L ends cur o items with
  | case1 => exact List.IsChain.nil
  | case2 cur o it items g opened ih =>
    refine List.IsChain.append (isChain_labelAt L _ g o) (ih.cons ?_)
      fun x hx y _ => greedy_of_labelAt cat L ends (List.mem_of_getLast? hx) y
    -- the item right after what the instruction took
    intro y hy
    cases hrest : items.drop opened.2 with
    | nil =>
      rw [hrest] at hy
      simp [walkAt] at hy
    | cons it' items' =>
      rw [hrest] at hy
      rcases head?_walkAt cat L ends _ _ it' items' y hy with ⟨l, hl⟩ | rfl
      · exact greedy_of_label cat L ends _ hl
      · -- as a plain command, `y` is the item `it'` itself
        intro _ c hc hnt hlt
        have hit' := eq_of_openWith_eq_command cat L _ it' _ hc
        refine admits_openWith_eq_false cat L _ it _ ?_ hlt hnt
        rw [locate_drop, hrest, hit']
        rfl

end Walk

/-- How an instruction of groups arranged from `items` with jump targets `L`, laid out from
`start`, is folded: the way reading folds (`WellFolded`), from consecutive items of the code on
disk, and with no jump target among the items it took after its first. -/
structure Located.FoldedFrom (cat : Catalog) (start : Nat) (items : List Item) (L : LabelTable)
    (x : Located) : Prop where
  well_folded : x.inst.WellFolded cat
  stands : x.StandsIn cat start items
  no_target : ∀ y ∈ (locate cat x.offset x.inst.items).tail, L.at? y.2 = none

/-- Arranging folds fully and correctly. Every instruction of the groups other than a label is
`FoldedFrom` the code: a switch or special with its arms, an entity accessor with its attribute
command, from consecutive items and across no jump target. And folding is greedy: of two
instructions one right after the other in a group, the first would not have taken the second if
the second is a plain command below the end of the group that no jump lands on. -/
theorem arrange_folds_fully (cat : Catalog) (code : Code) (entries : List GroupEntry)
    (start dataLen : Nat) :
    (∀ x ∈ laidOut cat start (code.arrange cat entries start dataLen).1, x.inst.label? = none →
      x.FoldedFrom cat start code.items code.labels) ∧
    (∀ x y, [x, y] <:+: laidOut cat start (code.arrange cat entries start dataLen).1 →
      x.group = y.group → ∀ c, y.inst = .command c → code.labels.at? y.offset = none →
        y.offset < (groupEnds entries dataLen).getD x.group 0 → x.inst.admits cat c = false) := by
  refine ⟨fun x hx hlabel => ?_, fun x y hxy => ?_⟩
  · have hxw := mem_walkAt_of_mem_laidOut cat code hx hlabel
    exact ⟨walkAt_wellFolded cat code.labels _ 0 start code.items x hxw,
      walkAt_stands cat code.labels _ 0 start code.items x hxw,
      fun y hy => (walkAt_folded cat code.labels _ 0 start code.items x hxw y hy).2⟩
  · rcases eq_or_ne entries [] with rfl | hne
    · simp [Code.arrange, laidOut, layout, indexed] at hxy
    rw [laidOut_arrange cat code hne] at hxy
    -- the walk is greedy, and so is its end label, which takes nothing
    have hchain : (walkAt cat code.labels (groupEnds entries dataLen) 0 start code.items ++
        labelAt code.labels (entries.length - 1) (endOffset cat start code.items)).IsChain
          (Greedy cat code.labels (groupEnds entries dataLen)) :=
      (walkAt_greedy cat code.labels _ 0 start code.items).append (isChain_labelAt _ _ _ _)
        fun a _ b hb => by
          obtain ⟨-, -, l, -, hl⟩ := labelAt_spec code.labels _ _ b (List.mem_of_mem_head? hb)
          exact greedy_of_label cat code.labels _ a hl
    exact List.isChain_pair.1 <| List.IsChain.infix hchain hxy

/-- A message, an entity accessor with its attribute command, and a second message, in one
group. -/
def accessorCode : Code :=
  ⟨[.command ⟨1, [1]⟩, .command ⟨7, [1]⟩, .command ⟨8, [2]⟩, .command ⟨1, [2]⟩], LabelTable.empty⟩

/-- The accessor, its attribute command folded in. -/
def foldedAccessor : Located :=
  ⟨0, 26, .accessor ⟨7, [1]⟩ ⟨8, [2]⟩⟩

/-- The second message, which the accessor does not take. -/
def lastMessage : Located :=
  ⟨0, 34, .command ⟨1, [2]⟩⟩

theorem arrange_folds_fully_accessor :
    (foldedAccessor ∈ laidOut exampleCatalog 22 (accessorCode.arrange exampleCatalog [⟨11, 0, 0⟩] 22 40).1 ∧
      foldedAccessor.inst.label? = none ∧
      foldedAccessor.FoldedFrom exampleCatalog 22 accessorCode.items accessorCode.labels) ∧
    ([foldedAccessor, lastMessage] <:+:
        laidOut exampleCatalog 22 (accessorCode.arrange exampleCatalog [⟨11, 0, 0⟩] 22 40).1 ∧
      accessorCode.labels.at? lastMessage.offset = none ∧
      foldedAccessor.inst.admits exampleCatalog ⟨1, [2]⟩ = false) :=
  have hx : foldedAccessor ∈
      laidOut exampleCatalog 22 (accessorCode.arrange exampleCatalog [⟨11, 0, 0⟩] 22 40).1 := by
    decide +kernel
  have hxy : [foldedAccessor, lastMessage] <:+:
      laidOut exampleCatalog 22 (accessorCode.arrange exampleCatalog [⟨11, 0, 0⟩] 22 40).1 :=
    ⟨[⟨0, 22, .command ⟨1, [1]⟩⟩], [], by decide +kernel⟩
  have hfolds := arrange_folds_fully exampleCatalog accessorCode [⟨11, 0, 0⟩] 22 40
  ⟨⟨hx, rfl, hfolds.1 _ hx rfl⟩,
    ⟨hxy, rfl, hfolds.2 _ _ hxy rfl ⟨1, [2]⟩ rfl rfl (by decide)⟩⟩

end DungeonFormats.Script
