import Mathlib
import DungeonFormats.Proofs.Labels

/-!
# Where items, groups and labels fall in a laid-out code

Items lie one after another from the start of the code; their offsets and the end of the code
are the code's *boundaries*. A label the writer places stands at a boundary, before the item
after it or at the end. Reading the code back, the walk hands out a label at every boundary
that is a jump target, in order (`labelOffsets_placed_eq`), and under group ends that are
boundaries it cuts every group exactly at its end (`cutAt_walk`).
-/

namespace DungeonFormats.Script

/-- The offsets of items laid out from `o`, then the offset past them all. -/
def boundaries (cat : Catalog) (o : Nat) (items : List Item) : List Nat :=
  (locate cat o items).map (·.2) ++ [endOffset cat o items]

section Boundaries

variable (cat : Catalog)

theorem locate_append (o : Nat) (xs ys : List Item) :
    locate cat o (xs ++ ys) = locate cat o xs ++ locate cat (o + cat.itemsSize xs) ys := by
  induction xs generalizing o with
  | nil => simp [locate, Catalog.itemsSize]
  | cons x xs ih => simp [locate, ih, Catalog.itemsSize, Nat.add_assoc]

theorem boundaries_append (o : Nat) (xs ys : List Item) :
    boundaries cat o (xs ++ ys) =
      (locate cat o xs).map (·.2) ++ boundaries cat (o + cat.itemsSize xs) ys := by
  simp [boundaries, locate_append, endOffset, Nat.add_assoc]

theorem boundaries_cons (o : Nat) (it : Item) (items : List Item) :
    boundaries cat o (it :: items) = o :: boundaries cat (o + cat.itemSize it) items := by
  simp [boundaries, locate, endOffset, Catalog.itemsSize, Nat.add_assoc]

theorem boundaries_nil (o : Nat) : boundaries cat o [] = [o] := by
  simp [boundaries, locate, endOffset, Catalog.itemsSize]

theorem start_mem_boundaries (o : Nat) (items : List Item) : o ∈ boundaries cat o items := by
  cases items with
  | nil => simp [boundaries_nil]
  | cons it items => simp [boundaries_cons]

theorem le_of_mem_boundaries : ∀ {o : Nat} {items : List Item} {b : Nat},
    b ∈ boundaries cat o items → o ≤ b
  | o, [], b, h => by simp [boundaries_nil] at h; omega
  | o, it :: items, b, h => by
    rw [boundaries_cons, List.mem_cons] at h
    rcases h with rfl | h
    · exact le_rfl
    · have := le_of_mem_boundaries h
      omega

/-- Every item takes whole words, so from an even start every boundary is even. -/
theorem even_of_mem_boundaries : ∀ {o : Nat} {items : List Item} {b : Nat}, o % 2 = 0 →
    b ∈ boundaries cat o items → b % 2 = 0
  | o, [], b, ho, h => by simp [boundaries_nil] at h; omega
  | o, it :: items, b, ho, h => by
    rw [boundaries_cons, List.mem_cons] at h
    rcases h with rfl | h
    · exact ho
    · have hsize := itemSize_even cat it
      exact even_of_mem_boundaries (by omega) h

/-- Boundaries increase strictly. -/
theorem boundaries_sorted : ∀ (o : Nat) (items : List Item), (boundaries cat o items).Pairwise (· < ·)
  | o, [] => by simp [boundaries_nil]
  | o, it :: items => by
    have hpos := itemSize_pos cat it
    rw [boundaries_cons]
    refine List.Pairwise.cons (fun b hb => ?_) (boundaries_sorted _ items)
    have := le_of_mem_boundaries cat hb
    omega

/-- A boundary past the items a prefix of them starts at is a boundary of the rest. -/
theorem mem_boundaries_drop {o b : Nat} {items : List Item} (m : Nat) (hb : b ∈ boundaries cat o items)
    (hbefore : ∀ y ∈ locate cat o (items.take m), y.2 < b) :
    b ∈ boundaries cat (o + cat.itemsSize (items.take m)) (items.drop m) := by
  rw [← List.take_append_drop m items, boundaries_append, List.mem_append] at hb
  rcases hb with hb | hb
  · obtain ⟨y, hy, rfl⟩ := List.mem_map.1 hb
    exact absurd (hbefore y hy) (lt_irrefl _)
  · exact hb

/-- Every label the writer places stands at a boundary of the items of the instructions. -/
theorem mem_boundaries_of_labelOffsets : ∀ (o : Nat) (is : List Instruction),
    ∀ p ∈ labelOffsets cat o is, p.2 ∈ boundaries cat o (is.flatMap Instruction.items)
  | _, [], p, hp => by simp [labelOffsets] at hp
  | o, i :: is, p, hp => by
    simp only [labelOffsets, List.mem_append] at hp
    rw [List.flatMap_cons, boundaries_append]
    rcases hp with hp | hp
    · -- a label, met at the offset of what follows it
      cases i
      case label l =>
        simp only [Instruction.label?, Option.map_some, Option.toList_some, List.mem_singleton] at hp
        subst hp
        simpa [Instruction.items, Instruction.commands, Catalog.itemsSize, locate] using
          start_mem_boundaries cat o (is.flatMap Instruction.items)
      all_goals simp [Instruction.label?] at hp
    · rw [instructionSize_eq] at hp
      exact List.mem_append_right _ (mem_boundaries_of_labelOffsets _ is p hp)

end Boundaries

/-! ## What a walk takes into a fold -/

section Taken

variable (cat : Catalog) (L : LabelTable)

theorem joins_spec {e : Nat} {accepts : Category → Bool} {y : Item × Nat}
    (h : joins cat L e accepts y = true) : y.2 < e ∧ L.at? y.2 = none := by
  obtain ⟨it, o⟩ := y
  cases it with
  | command c =>
    simp only [joins, Bool.and_eq_true, decide_eq_true_eq, Option.isNone_iff_eq_none] at h
    exact ⟨h.1.1, h.1.2⟩
  | data w => simp [joins] at h

/-- The items a command folds in lie below the group end and are no jump targets. -/
theorem taken_spec (e : Nat) (it : Item) (rest : List (Item × Nat)) :
    ∀ y ∈ rest.take (openWith cat L e it rest).2, y.2 < e ∧ L.at? y.2 = none := by
  -- the branches a switch or special process takes are a prefix that joins
  have harms : ∀ y ∈ rest.take (rest.takeWhile (joins cat L e Category.isArm)).length,
      y.2 < e ∧ L.at? y.2 = none := by
    intro y hy
    rw [← List.prefix_iff_eq_take.1 (List.takeWhile_prefix _)] at hy
    exact joins_spec cat L (List.mem_takeWhile_imp hy)
  cases it with
  | data w => simp [openWith]
  | command c =>
    simp only [openWith]
    unfold gather
    split
    · dsimp only
      split
      · simp
      · exact harms
    · dsimp only
      split
      · simp
      · exact harms
    · split
      · rename_i a o tail
        split
        · rename_i hj
          intro y hy
          simp only [List.take_succ_cons, List.take_zero, List.mem_singleton] at hy
          subst hy
          exact joins_spec cat L hj
        · simp
      · simp
    · simp

end Taken

/-! ## The labels a walk hands out -/

section Labels

variable (cat : Catalog) (L : LabelTable)

/-- A jump target, with its label and offset, if `o` is one. -/
def targetAt (o : Nat) : Option (LabelId × Nat) :=
  (L.at? o).map (·, o)

theorem labelOffsets_labelMark_eq (g o : Nat) :
    labelOffsets cat o ((labelMark L g o).map (·.2)) = (targetAt L o).toList := by
  unfold labelMark targetAt
  split <;> simp_all [labelOffsets, Instruction.label?]

/-- A walk hands out a label at each located item that is a jump target, in order, each
standing where its item does. -/
theorem labelOffsets_walk_eq (ends : List Nat) :
    ∀ (n cur o : Nat) (items : List Item), items.length ≤ n →
      labelOffsets cat o ((walk cat L ends cur (locate cat o items)).map (·.2)) =
        ((locate cat o items).map (·.2)).filterMap (targetAt L)
  | _, _, _, [], _ => by simp [locate, walk, labelOffsets]
  | 0, _, _, _ :: _, hn => absurd hn (by simp)
  | n + 1, cur, o, it :: items, hn => by
    obtain ⟨⟨inst, k⟩, hfold⟩ : ∃ p, openWith cat L (ends.getD (advance ends cur o) 0) it
        (locate cat (o + cat.itemSize it) items) = p := ⟨_, rfl⟩
    have hinst := items_of_openWith cat L hfold
    have hlabel : inst.label? = none := by
      have := label?_openWith cat L (ends.getD (advance ends cur o) 0) it (locate cat (o + cat.itemSize it) items)
      rwa [hfold] at this
    -- the items folded in are no jump targets
    have htaken : ((locate cat (o + cat.itemSize it) (items.take k)).map (·.2)).filterMap (targetAt L) = [] := by
      have := taken_spec cat L (ends.getD (advance ends cur o) 0) it (locate cat (o + cat.itemSize it) items)
      rw [hfold, locate_take] at this
      simp only [List.filterMap_map, List.filterMap_eq_nil_iff]
      intro y hy
      simp [targetAt, (this y hy).2]
    have hnone : ((labelMark L (advance ends cur o) o).map (·.2)).flatMap Instruction.items = [] := by
      simp only [List.flatMap_map]
      exact List.flatMap_eq_nil_iff.2 fun p hp => (labelMark_spec L _ o p hp).2
    have ih := labelOffsets_walk_eq ends n (advance ends cur o)
      (o + cat.itemSize it + cat.itemsSize (items.take k)) (items.drop k) (by simp at hn ⊢; omega)
    rw [locate_cons, walk_cons, hfold, locate_drop, List.map_append, List.map_cons, labelOffsets_append,
      hnone, labelOffsets, hlabel, instructionSize_eq, hinst, labelOffsets_labelMark_eq]
    simp only [Option.map_none, Option.toList_none, List.nil_append]
    rw [show o + cat.itemsSize [] + cat.itemsSize (it :: items.take k) =
      o + cat.itemSize it + cat.itemsSize (items.take k) by simp [Catalog.itemsSize, Nat.add_assoc], ih,
      ← List.take_append_drop k items, locate_append]
    simp only [List.take_append_drop, List.map_cons, List.map_append, List.filterMap_cons,
      List.filterMap_append, htaken, List.nil_append]
    cases targetAt L o <;> simp

/-- The labels arranging hands out are the jump targets among the boundaries of the code, in
order, each standing at its target. -/
theorem labelOffsets_placed_eq (code : Code) (entries : List GroupEntry) (start dataLen : Nat) :
    labelOffsets cat start ((code.placed cat entries start dataLen).map (·.2)) =
      (boundaries cat start code.items).filterMap (targetAt code.labels) := by
  have hw := walk_out cat code.labels (groupEnds entries dataLen) 0 (locate cat start code.items)
  have hitems : (walk cat code.labels (groupEnds entries dataLen) 0 (locate cat start code.items)).flatMap
      (fun a => a.2.items) = code.items := by rw [hw.items, map_fst_locate]
  rw [Code.placed, List.map_append, labelOffsets_append, List.flatMap_map, hitems,
    labelOffsets_walk_eq cat code.labels _ _ 0 start code.items le_rfl,
    show start + cat.itemsSize code.items = endOffset cat start code.items from rfl,
    labelOffsets_labelMark_eq, boundaries, List.filterMap_append]
  cases h : targetAt code.labels (endOffset cat start code.items) <;> simp [h]

end Labels

/-! ## Where a walk cuts its groups -/

section Cut

variable (cat : Catalog) (L : LabelTable)

/-- An item below the end of a group reaches that group or an earlier one. -/
theorem advance_le_of_lt {ends : List Nat} {cur o j : Nat} (hcj : cur ≤ j) (hj : j < ends.length)
    (ho : o < ends.getD j 0) : advance ends cur o ≤ j := by
  fun_induction advance ends cur o with
  | case1 cur hnext hreach ih =>
    have hne : cur ≠ j := by
      rintro rfl
      rw [List.getD_eq_getElem _ _ hj] at ho
      omega
    exact ih (by omega)
  | case2 => exact hcj
  | case3 => exact hcj

/-- An item at or past the end of a group that is not the last, under ends in order up to it,
reaches a later group. -/
theorem lt_advance_of_le {ends : List Nat} {cur o j : Nat} (hj : j + 1 < ends.length)
    (hsorted : ∀ i, i ≤ j → ends.getD i 0 ≤ ends.getD j 0) (ho : ends.getD j 0 ≤ o) :
    j < advance ends cur o := by
  by_contra hle
  have hlt := lt_of_advance_eq (rfl : advance ends cur o = _) (by omega)
  have := hsorted (advance ends cur o) (by omega)
  omega

/-- Under group ends in order, a walk over located items cuts a group that is not the last at
its end, when that end is a boundary of the items. -/
theorem cutAt_walk {ends : List Nat} {j : Nat} (hj : j + 1 < ends.length)
    (hsorted : ∀ i, i ≤ j → ends.getD i 0 ≤ ends.getD j 0) :
    ∀ (n cur o : Nat) (items : List Item), items.length ≤ n → cur ≤ j →
      ends.getD j 0 ∈ boundaries cat o items →
      cutAt cat o (walk cat L ends cur (locate cat o items)) j = ends.getD j 0
  | _, _, o, [], _, _, hb => by
    rw [boundaries_nil, List.mem_singleton] at hb
    rw [hb]
    simp [locate, walk, cutAt, Catalog.itemsSize]
  | 0, _, _, _ :: _, hn, _, _ => absurd hn (by simp)
  | n + 1, cur, o, it :: items, hn, hcj, hb => by
    rw [boundaries_cons, List.mem_cons] at hb
    rcases hb with hb | hb
    · -- the group ends at the item: the walk hands out nothing up to it
      rw [hb, cutAt_of_lt fun p hp => ?_]
      have h1 := advance_le_of_mem_walk p hp
      have h2 : j < advance ends cur o := lt_advance_of_le hj hsorted (le_of_eq hb)
      omega
    · -- the item lies in a group up to `j`, and so do the items it folds in
      have hpos := itemSize_pos cat it
      have hlt : o < ends.getD j 0 := by
        have := le_of_mem_boundaries cat hb
        omega
      obtain ⟨g, hg⟩ : ∃ g, advance ends cur o = g := ⟨_, rfl⟩
      have hgj : g ≤ j := hg ▸ advance_le_of_lt hcj (by omega) hlt
      obtain ⟨⟨inst, k⟩, hfold⟩ : ∃ p, openWith cat L (ends.getD g 0) it
          (locate cat (o + cat.itemSize it) items) = p := ⟨_, rfl⟩
      have htaken : ∀ y ∈ locate cat (o + cat.itemSize it) (items.take k), y.2 < ends.getD j 0 := by
        have hspec := taken_spec cat L (ends.getD g 0) it (locate cat (o + cat.itemSize it) items)
        rw [hfold, locate_take] at hspec
        intro y hy
        have := (hspec y hy).1
        have := hsorted g hgj
        omega
      have ih := cutAt_walk hj hsorted n g _ (items.drop k) (by simp at hn ⊢; omega) hgj
        (mem_boundaries_drop cat k hb htaken)
      rw [cutAt_walk_cons cat L hg hfold hgj]
      exact ih

end Cut

end DungeonFormats.Script
