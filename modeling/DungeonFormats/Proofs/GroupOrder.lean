import Mathlib
import DungeonFormats.Proofs.Arranged
import DungeonFormats.Proofs.LabelNumbering

/-!
# Groups follow the stream

Walking the code, the current group moves forward past every group whose end an item's offset
has reached, never past the last. Since offsets only grow, every group the walk has left ends at
or before the item at hand, so each instruction lands in the first group that ends past its
offset, or in the last group if none does (`FirstPast`, `walkAt_firstPast`). That makes the group
of an instruction a non-decreasing function of its offset on disk (`FirstPast.mono`), and holds
whatever order the group table gives the starts in; and everything folded into an instruction
lies below the end of its group (`walkAt_folded`). `arrange_groups_in_order` says this of the
groups `Code.arrange` returns.
-/

namespace DungeonFormats.Script

/-- Group `g` is the first group whose end lies past offset `o`, or the last group if no end
does: every group before it ends at or before `o`, and `o` lies below the end of `g` unless `g`
is the last group. -/
structure FirstPast (ends : List Nat) (o g : Nat) : Prop where
  lt_length : g < ends.length
  past : ∀ j < g, ends.getD j 0 ≤ o
  below : g + 1 < ends.length → o < ends.getD g 0

/-- An offset further on lands in the same group or a later one. -/
theorem FirstPast.mono {ends : List Nat} {o o' g g' : Nat} (h : FirstPast ends o g)
    (h' : FirstPast ends o' g') (ho : o ≤ o') : g ≤ g' := by
  by_contra hlt
  -- `g'` ends past `o'`, so it ends past `o`, yet `g` comes after it
  have hend := h'.below (by have := h.lt_length; omega)
  have hpast := h.past g' (by omega)
  omega

/-- The walk moves past a group only if the item has reached its end. -/
theorem getD_le_of_lt_advance {ends : List Nat} {cur o j : Nat} (hcj : cur ≤ j)
    (hj : j < advance ends cur o) : ends.getD j 0 ≤ o := by
  fun_induction advance ends cur o with
  | case1 cur hnext hreach ih =>
    rcases Nat.eq_or_lt_of_le hcj with rfl | hlt
    · rw [List.getD_eq_getElem _ _ (by omega)]
      exact hreach
    · exact ih hlt hj
  | case2 => omega
  | case3 => omega

/-- From a group that every group before it ends at or before `o`, the walk reaches the first
group that ends past `o`. -/
theorem firstPast_advance {ends : List Nat} {cur o : Nat} (hcur : cur < ends.length)
    (hbefore : ∀ j < cur, ends.getD j 0 ≤ o) : FirstPast ends o (advance ends cur o) where
  lt_length := advance_lt o hcur
  past j hj := by
    by_cases hjc : j < cur
    · exact hbefore j hjc
    · exact getD_le_of_lt_advance (by omega) hj
  below := lt_of_advance_eq rfl

section Walk

variable (cat : Catalog) (L : LabelTable) (ends : List Nat)

/-- Every instruction of a walk lies in the first group that ends past its offset, or in the last
group, as long as the walk starts at a group that every group before it ends before. -/
theorem walkAt_firstPast (cur o : Nat) (items : List Item) (hcur : cur < ends.length)
    (hbefore : ∀ j < cur, ends.getD j 0 ≤ o) :
    ∀ x ∈ walkAt cat L ends cur o items, FirstPast ends x.offset x.group := by
  fun_induction walkAt cat L ends cur o items with
  | case1 cur o => simp
  | case2 cur o it items g opened ih =>
    have hg : FirstPast ends o g := firstPast_advance hcur hbefore
    intro x hx
    rcases List.mem_append.1 hx with hx | hx
    · obtain ⟨hxg, hxo, -⟩ := labelAt_spec L g o x hx
      rw [hxg, hxo]
      exact hg
    rcases List.mem_cons.1 hx with rfl | hx
    · exact hg
    · -- the rest of the walk starts further on, from the group the item reached
      exact ih hg.lt_length (fun j hj => Nat.le_trans (hg.past j hj) (by omega)) x hx

end Walk

/-- Where an instruction of groups arranged from `items`, laid out from `start` with group ends
`ends`, stands: on disk for consecutive items from its offset on; in the first group whose end
lies past that offset, or in the last group; and with everything it folded below the end of its
group. -/
structure Located.Grouped (cat : Catalog) (start : Nat) (items : List Item) (ends : List Nat)
    (x : Located) : Prop where
  stands : x.StandsIn cat start items
  first_past : FirstPast ends x.offset x.group
  folded_below : ∀ y ∈ (locate cat x.offset x.inst.items).tail, y.2 < ends.getD x.group 0

/-- Arranging puts instructions into groups in the order of the stream. Every instruction of the
groups other than a label is `Grouped`: it stands on disk for consecutive items of the code, lies
in the first group that ends past its offset or in the last group, whatever the order of the
starts in the group table, and folds nothing past the end of its group; and an instruction that
starts later lies in the same group or a later one. -/
theorem arrange_groups_in_order (cat : Catalog) (code : Code) (entries : List GroupEntry)
    (start dataLen : Nat) :
    (∀ x ∈ laidOut cat start (code.arrange cat entries start dataLen).1, x.inst.label? = none →
      x.Grouped cat start code.items (groupEnds entries dataLen)) ∧
    (∀ x ∈ laidOut cat start (code.arrange cat entries start dataLen).1,
      ∀ y ∈ laidOut cat start (code.arrange cat entries start dataLen).1,
        x.inst.label? = none → y.inst.label? = none → x.offset < y.offset → x.group ≤ y.group) := by
  rcases eq_or_ne entries [] with rfl | hne
  · simp [Code.arrange, laidOut, layout, indexed]
  have hlen := length_groupEnds dataLen hne
  have hfirst := walkAt_firstPast cat code.labels (groupEnds entries dataLen) 0 start code.items
    (by rw [hlen]; exact List.length_pos_iff.2 hne) (by simp)
  refine ⟨fun x hx hlabel => ?_, fun x hx y hy hxl hyl hxy => ?_⟩
  · have hxw := mem_walkAt_of_mem_laidOut cat code hx hlabel
    exact ⟨walkAt_stands cat code.labels _ 0 start code.items x hxw, hfirst x hxw,
      fun y hy => (walkAt_folded cat code.labels _ 0 start code.items x hxw y hy).1⟩
  · exact (hfirst x (mem_walkAt_of_mem_laidOut cat code hx hxl)).mono
      (hfirst y (mem_walkAt_of_mem_laidOut cat code hy hyl)) (Nat.le_of_lt hxy)

/-- Three groups starting at words `11`, `13` and `13` of a block of `36` bytes whose code starts
at byte `22`. -/
def splitEntries : List GroupEntry :=
  [⟨11, 0, 0⟩, ⟨13, 1, 0⟩, ⟨13, 2, 0⟩]

/-- A message, an entity accessor with an attribute command, and a data word. -/
def splitCode : Code :=
  ⟨[.command ⟨1, [1]⟩, .command ⟨7, [1]⟩, .command ⟨8, [2]⟩, .data 0x8000], LabelTable.empty⟩

/-- The message, which ends the first group. -/
def splitMessage : Located :=
  ⟨0, 22, .command ⟨1, [1]⟩⟩

/-- The accessor, which starts where the second, empty, group ends, and so lies in the last
group, attribute command folded in. -/
def splitAccessor : Located :=
  ⟨2, 26, .accessor ⟨7, [1]⟩ ⟨8, [2]⟩⟩

theorem arrange_groups_in_order_split :
    (splitAccessor ∈ laidOut exampleCatalog 22 (splitCode.arrange exampleCatalog splitEntries 22 36).1 ∧
      splitAccessor.inst.label? = none ∧
      splitAccessor.Grouped exampleCatalog 22 splitCode.items (groupEnds splitEntries 36)) ∧
    (splitMessage ∈ laidOut exampleCatalog 22 (splitCode.arrange exampleCatalog splitEntries 22 36).1 ∧
      splitAccessor ∈ laidOut exampleCatalog 22 (splitCode.arrange exampleCatalog splitEntries 22 36).1 ∧
      splitMessage.inst.label? = none ∧ splitAccessor.inst.label? = none ∧
      splitMessage.offset < splitAccessor.offset ∧ splitMessage.group ≤ splitAccessor.group) :=
  have hx : splitAccessor ∈
      laidOut exampleCatalog 22 (splitCode.arrange exampleCatalog splitEntries 22 36).1 := by
    decide +kernel
  have hy : splitMessage ∈
      laidOut exampleCatalog 22 (splitCode.arrange exampleCatalog splitEntries 22 36).1 := by
    decide +kernel
  have horder := arrange_groups_in_order exampleCatalog splitCode splitEntries 22 36
  ⟨⟨hx, rfl, horder.1 _ hx rfl⟩,
    ⟨hy, hx, rfl, rfl, by decide, horder.2 _ hy _ hx rfl rfl (by decide)⟩⟩

end DungeonFormats.Script
