import Mathlib
import DungeonFormats.Proofs.Boundaries

/-!
# Arranged groups, laid out

`Code.arrange` returns groups of instructions. Laid out one after another from the start of the
code, every instruction of them stands at an offset of the data block, the offset of the first
item it stands for; a label stands at the offset of what follows it (`laidOut`). For the groups
`Code.arrange` makes, that is the walk over the code with each instruction at the offset of the
item it opens (`walkAt`), then the label at the end of the code, if there is one
(`laidOut_arrange`).

`walkAt` is the walk taken over the items and their offsets rather than over located items, so
that one step of it is one equation and every fact about a whole walk is one induction over it
(`fun_induction walkAt`). The facts every later proof needs are here: an instruction other than a
label comes from the walk (`mem_walkAt_of_mem_laidOut`), stands for the items from its offset on
(`walkAt_stands`), and the items folded into it lie below the end of its group and are no jump
targets (`walkAt_folded`). Neighbours of the layout with one group index are neighbours within
that group (`adjacent_in_group_of_laidOut`), so what is said of the layout is said of the groups.
-/

namespace DungeonFormats.Script

/-- An instruction of arranged groups, with the index of its group and the offset on disk of the
first item it stands for. -/
structure Located where
  group : Nat
  offset : Nat
  inst : Instruction
  deriving DecidableEq, Repr

/-- Instructions with their group indices, laid out one after another from offset `o`: each
starts where the items of those before it end. -/
def layout (cat : Catalog) : Nat → List (Nat × Instruction) → List Located
  | _, [] => []
  | o, p :: ps => ⟨p.1, o, p.2⟩ :: layout cat (o + cat.instructionSize p.2) ps

/-- The instructions of groups, group after group, each with the index of its group. -/
def indexed (groups : List Group) : List (Nat × Instruction) :=
  groups.zipIdx.flatMap fun a => a.1.instructions.map (a.2, ·)

/-- The instructions of groups laid out from offset `start`, each with its group and offset. -/
def laidOut (cat : Catalog) (start : Nat) (groups : List Group) : List Located :=
  layout cat start (indexed groups)

/-- The instruction `x` stands on disk for consecutive items of `items` laid out from `start`:
those from the `k`-th on, the first of which starts where `x` does. -/
def Located.StandsIn (cat : Catalog) (start : Nat) (items : List Item) (x : Located) : Prop :=
  ∃ k < items.length, x.offset = start + cat.itemsSize (items.take k) ∧ x.inst.items <+: items.drop k

/-- The label before the item at `o`, in group `g`, if `o` is a jump target. -/
def labelAt (L : LabelTable) (g o : Nat) : List Located :=
  (labelMark L g o).map fun p => ⟨p.1, o, p.2⟩

/-- The walk over the items laid out from `o`, from group `cur` on, with each instruction at the
offset of the item it opens. -/
def walkAt (cat : Catalog) (L : LabelTable) (ends : List Nat) (cur o : Nat) : List Item → List Located
  | [] => []
  | it :: items =>
    let g := advance ends cur o
    let opened := openWith cat L (ends.getD g 0) it (locate cat (o + cat.itemSize it) items)
    labelAt L g o ++ ⟨g, o, opened.1⟩ ::
      walkAt cat L ends g (o + cat.itemSize it + cat.itemsSize (items.take opened.2))
        (items.drop opened.2)
termination_by items => items.length
decreasing_by
  simp only [List.length_cons, List.length_drop]
  omega

/-! ## Laying out -/

section Layout

variable (cat : Catalog)

theorem layout_append (o : Nat) (ps qs : List (Nat × Instruction)) :
    layout cat o (ps ++ qs) =
      layout cat o ps ++ layout cat (o + cat.itemsSize (ps.flatMap (·.2.items))) qs := by
  induction ps generalizing o with
  | nil => simp [layout, Catalog.itemsSize]
  | cons p ps ih => simp [layout, ih, instructionSize_eq, Nat.add_assoc]

/-- A label takes no room: the label before an item stands at the item's offset. -/
theorem layout_labelMark (L : LabelTable) (g o : Nat) : layout cat o (labelMark L g o) = labelAt L g o := by
  unfold labelAt labelMark
  split <;> simp [layout]

/-- The walk over located items, laid out from the first item's offset, is `walkAt`. -/
theorem layout_walk (L : LabelTable) (ends : List Nat) (cur o : Nat) (items : List Item) :
    layout cat o (walk cat L ends cur (locate cat o items)) = walkAt cat L ends cur o items := by
  fun_induction walkAt cat L ends cur o items with
  | case1 cur o => simp [locate, walk, layout]
  | case2 cur o it items g opened ih =>
    have hnone : cat.itemsSize ((labelMark L g o).flatMap (·.2.items)) = 0 := by
      rw [List.flatMap_eq_nil_iff.2 fun p hp => (labelMark_spec L g o p hp).2]
      rfl
    -- the instruction takes the room of its item and of the items it folded in
    have hsize : cat.instructionSize opened.1 = cat.itemSize it + cat.itemsSize (items.take opened.2) := by
      rw [instructionSize_eq, openWith_items, locate_take, map_fst_locate]
      rfl
    rw [locate_cons, walk_cons, layout_append, hnone, Nat.add_zero, layout_labelMark, layout, hsize,
      locate_drop, ← Nat.add_assoc]
    exact congrArg _ (congrArg _ ih)

end Layout

/-! ## Neighbours in a group -/

/-- Neighbours in a concatenation lie in one part, or the first ends the one and the second starts
the other. -/
theorem neighbours_append_cases {α : Type} {p q : α} {A B : List α} (h : [p, q] <:+: A ++ B) :
    [p, q] <:+: A ∨ [p, q] <:+: B ∨ (p ∈ A ∧ q ∈ B) := by
  obtain ⟨s, t, hst⟩ := h
  rw [List.append_assoc, List.append_eq_append_iff] at hst
  rcases hst with ⟨a', rfl, ha'⟩ | ⟨c', rfl, hc'⟩
  · rcases a' with _ | ⟨a₁, _ | ⟨a₂, a'⟩⟩
    · exact .inr (.inl ⟨[], t, by simpa using ha'⟩)
    · simp only [List.cons_append, List.nil_append, List.cons.injEq] at ha'
      obtain ⟨rfl, hB⟩ := ha'
      exact .inr (.inr ⟨by simp, by simp [← hB]⟩)
    · simp only [List.cons_append, List.cons.injEq] at ha'
      obtain ⟨rfl, rfl, -⟩ := ha'
      exact .inl ⟨s, a', by simp⟩
  · exact .inr (.inl ⟨c', t, by simp [hc']⟩)

/-- Laid out, instructions keep their group indices and their order. -/
theorem map_layout (cat : Catalog) : ∀ (o : Nat) (ps : List (Nat × Instruction)),
    (layout cat o ps).map (fun x => (x.group, x.inst)) = ps
  | _, [] => rfl
  | o, p :: ps => by simp [layout, map_layout cat _ ps]

/-- Neighbours of one group index among the instructions of groups numbered from `k` are
neighbours in that group. -/
theorem adjacent_in_group_of_indexed {a b : Instruction} {g : Nat} :
    ∀ (groups : List Group) (k : Nat),
      [(g, a), (g, b)] <:+: (groups.zipIdx k).flatMap (fun c => c.1.instructions.map (c.2, ·)) →
        ∃ G, (G, g) ∈ groups.zipIdx k ∧ [a, b] <:+: G.instructions
  | [], _, h => by simpa using h.length_le
  | G :: gs, k, h => by
    rw [List.zipIdx_cons, List.flatMap_cons] at h
    rcases neighbours_append_cases h with h | h | ⟨ha, hb⟩
    · have hgk : g = k := by
        have := h.subset (by simp : (g, a) ∈ [(g, a), (g, b)])
        simp at this
        exact this.2.symm
      refine ⟨G, by simp [hgk], ?_⟩
      have := h.map (·.2)
      simpa [List.map_map] using this
    · obtain ⟨G', hmem, hG'⟩ := adjacent_in_group_of_indexed gs (k + 1) h
      exact ⟨G', List.mem_cons_of_mem _ hmem, hG'⟩
    · -- the two would lie in group `k` and in a later one
      simp only [List.mem_map, Prod.mk.injEq] at ha
      obtain ⟨-, -, rfl, -⟩ := ha
      simp only [List.mem_flatMap, List.mem_map, Prod.mk.injEq] at hb
      obtain ⟨c, hc, -, -, hcg, -⟩ := hb
      have := (List.mem_zipIdx hc).1
      omega

/-- Two neighbours in laid-out groups with one group index are neighbours in that group. -/
theorem adjacent_in_group_of_laidOut {cat : Catalog} {start : Nat} {groups : List Group}
    {x y : Located} (h : [x, y] <:+: laidOut cat start groups) (hg : x.group = y.group) :
    ∃ G, groups[x.group]? = some G ∧ [x.inst, y.inst] <:+: G.instructions := by
  have hpair := h.map (fun x => (x.group, x.inst))
  rw [laidOut, map_layout, List.map_cons, List.map_cons, List.map_nil, ← hg] at hpair
  obtain ⟨G, hmem, hG⟩ := adjacent_in_group_of_indexed groups 0 hpair
  exact ⟨G, List.mem_zipIdx_iff_getElem?.1 hmem, hG⟩

/-! ## The groups of an arrangement -/

/-- Numbering again from `k` a list made from a list numbered from `k` gives each element the
number it was made from. -/
theorem zipIdx_map_zipIdx {α β : Type} (f : α × Nat → β) : ∀ (l : List α) (k : Nat),
    ((l.zipIdx k).map f).zipIdx k = (l.zipIdx k).map fun a => (f a, a.2)
  | [], _ => rfl
  | a :: l, k => by simp [List.zipIdx_cons, zipIdx_map_zipIdx f l (k + 1)]

/-- Groups split from instructions sorted by group index, one per entry, hand those instructions
back with their indices. -/
theorem indexed_groupsOf (entries : List GroupEntry) (placed : List (Nat × Instruction))
    (hs : placed.Pairwise (·.1 ≤ ·.1)) (hb : ∀ p ∈ placed, p.1 < entries.length) :
    indexed (groupsOf entries placed) = placed := by
  have hsplit := flatMap_range'_filter entries.length 0 placed hs
    fun p hp => ⟨Nat.zero_le _, by simpa using hb p hp⟩
  -- an instruction of the group of index `i` comes with `i`
  have hback : ∀ i, ((placed.filter (·.1 == i)).map (·.2)).map (i, ·) = placed.filter (·.1 == i) := by
    intro i
    rw [List.map_map]
    refine (List.map_congr_left fun p hp => ?_).trans (List.map_id _)
    have := (List.mem_filter.1 hp).2
    simp only [beq_iff_eq] at this
    simp [← this]
  calc indexed (groupsOf entries placed)
      _ = entries.zipIdx.flatMap (fun a => ((placed.filter (·.1 == a.2)).map (·.2)).map (a.2, ·)) := by
        rw [indexed, groupsOf, zipIdx_map_zipIdx, List.flatMap_map]
      _ = (entries.zipIdx.map Prod.snd).flatMap (fun i => placed.filter (·.1 == i)) := by
        rw [List.flatMap_map]
        exact List.flatMap_congr fun a _ => hback a.2
      _ = placed := by rw [List.zipIdx_map_snd, hsplit]

/-- Laid out, the groups of an arrangement are the walk over the code, each instruction at the
offset of its item, then the label at the end of the code. -/
theorem laidOut_arrange (cat : Catalog) (code : Code) {entries : List GroupEntry} (hne : entries ≠ [])
    (start dataLen : Nat) :
    laidOut cat start (code.arrange cat entries start dataLen).1 =
      walkAt cat code.labels (groupEnds entries dataLen) 0 start code.items ++
        labelAt code.labels (entries.length - 1) (endOffset cat start code.items) := by
  obtain ⟨hs, hb⟩ := placed_sorted cat code hne start dataLen
  have hw := walk_out cat code.labels (groupEnds entries dataLen) 0 (locate cat start code.items)
  rw [Code.arrange_eq code cat hne, laidOut, indexed_groupsOf entries _ hs hb, Code.placed,
    layout_append, layout_walk, hw.items, map_fst_locate,
    show start + cat.itemsSize code.items = endOffset cat start code.items from rfl, layout_labelMark]

theorem labelAt_spec (L : LabelTable) (g o : Nat) :
    ∀ x ∈ labelAt L g o, x.group = g ∧ x.offset = o ∧ ∃ l, L.at? o = some l ∧ x.inst = .label l := by
  unfold labelAt labelMark
  split
  · rename_i l hl
    simp [hl]
  · simp

/-- Every instruction of an arrangement other than a label comes from the walk over the code. -/
theorem mem_walkAt_of_mem_laidOut (cat : Catalog) (code : Code) {entries : List GroupEntry}
    {start dataLen : Nat} {x : Located} (hx : x ∈ laidOut cat start (code.arrange cat entries start dataLen).1)
    (hlabel : x.inst.label? = none) :
    x ∈ walkAt cat code.labels (groupEnds entries dataLen) 0 start code.items := by
  rcases eq_or_ne entries [] with rfl | hne
  · simp [Code.arrange, laidOut, indexed, layout] at hx
  rw [laidOut_arrange cat code hne] at hx
  rcases List.mem_append.1 hx with hx | hx
  · exact hx
  · obtain ⟨-, -, l, -, hl⟩ := labelAt_spec code.labels _ _ x hx
    simp [hl, Instruction.label?] at hlabel

/-! ## Facts of every walk -/

section Walk

variable (cat : Catalog) (L : LabelTable) (ends : List Nat)

theorem itemsSize_take_add (items : List Item) (m k : Nat) :
    cat.itemsSize (items.take (m + k)) = cat.itemsSize (items.take m) + cat.itemsSize ((items.drop m).take k) := by
  rw [List.take_add, itemsSize_append]

/-- The instruction an item opens stands for the item and the items it folded in. -/
theorem items_openWith (e : Nat) (o : Nat) (it : Item) (items : List Item) :
    (openWith cat L e it (locate cat o items)).1.items =
      it :: items.take (openWith cat L e it (locate cat o items)).2 := by
  rw [openWith_items, locate_take, map_fst_locate]

/-- Every instruction of a walk stands at the offset of an item and stands for the items from
there on. -/
theorem walkAt_stands (cur o : Nat) (items : List Item) :
    ∀ x ∈ walkAt cat L ends cur o items, x.StandsIn cat o items := by
  fun_induction walkAt cat L ends cur o items with
  | case1 cur o => simp
  | case2 cur o it items g opened ih =>
    intro x hx
    rcases List.mem_append.1 hx with hx | hx
    · -- a label stands for no item
      obtain ⟨-, ho, l, -, hl⟩ := labelAt_spec L g o x hx
      refine ⟨0, by simp, by simp [ho, Catalog.itemsSize], ?_⟩
      simp [hl, Instruction.items, Instruction.commands]
    rcases List.mem_cons.1 hx with rfl | hx
    · -- the instruction the item opens
      have hitems : opened.1.items = it :: items.take opened.2 := items_openWith cat L _ _ it items
      refine ⟨0, by simp, by simp [Catalog.itemsSize], ?_⟩
      rw [hitems]
      exact (List.prefix_cons_inj _).2 <| List.take_prefix _ _
    · -- an instruction further on, past what this one folded in
      obtain ⟨k, hk, ho, hpre⟩ := ih x hx
      simp only [List.length_drop] at hk
      refine ⟨1 + (opened.2 + k), by simp; omega, ?_, ?_⟩
      · rw [ho, Nat.add_comm 1, List.take_succ_cons, Catalog.itemsSize, itemsSize_take_add]
        omega
      · rwa [Nat.add_comm 1, List.drop_succ_cons, ← List.drop_drop]

/-- The items an instruction of a walk folded in lie below the end of its group and are no jump
targets. -/
theorem walkAt_folded (cur o : Nat) (items : List Item) :
    ∀ x ∈ walkAt cat L ends cur o items, ∀ y ∈ (locate cat x.offset x.inst.items).tail,
      y.2 < ends.getD x.group 0 ∧ L.at? y.2 = none := by
  fun_induction walkAt cat L ends cur o items with
  | case1 cur o => simp
  | case2 cur o it items g opened ih =>
    intro x hx
    rcases List.mem_append.1 hx with hx | hx
    · obtain ⟨-, -, l, -, hl⟩ := labelAt_spec L g o x hx
      simp [hl, Instruction.items, Instruction.commands, locate]
    rcases List.mem_cons.1 hx with rfl | hx
    · -- what the item's instruction took, from the located items after it
      intro y hy
      have hitems : opened.1.items = it :: items.take opened.2 := items_openWith cat L _ _ it items
      have htaken := taken_spec cat L (ends.getD g 0) it (locate cat (o + cat.itemSize it) items)
      rw [hitems, locate, List.tail_cons, ← locate_take] at hy
      exact htaken y hy
    · exact ih x hx

end Walk

end DungeonFormats.Script
