import Mathlib
import DungeonFormats.Script.Grouping

/-!
# What grouping keeps

`Code.arrange` loses, repeats and reorders no item of the code. A walk over the located items
hands out group indices that start at its group, never decrease, and stay below the number of
groups; and its instructions stand, in order, for exactly the items it walked: a label for none,
a folded instruction for its head and the commands it took after it (`walk_out`). Splitting such
a list by index and joining the parts in index order gives it back (`flatMap_range'_filter`), so
the groups of `Code.arrange`, one for each entry of the group table and with that entry's words,
stand together for the code's items (`arrange_keeps_items`).
-/

namespace DungeonFormats.Script

/-- The items a group's instructions stand for on disk, in order. -/
def Group.items (g : Group) : List Item :=
  g.instructions.flatMap Instruction.items

/-! ## Moving through the groups -/

theorem le_advance (ends : List Nat) (cur o : Nat) : cur ≤ advance ends cur o := by
  fun_induction advance ends cur o with
  | case1 cur _ _ ih => omega
  | case2 => exact Nat.le_refl _
  | case3 => exact Nat.le_refl _

/-- The walk never moves past the last group. -/
theorem advance_lt {ends : List Nat} {cur : Nat} (o : Nat) (h : cur < ends.length) :
    advance ends cur o < ends.length := by
  fun_induction advance ends cur o with
  | case1 cur hnext _ ih => exact ih hnext
  | case2 => exact h
  | case3 => exact h

theorem length_groupEnds {entries : List GroupEntry} (dataLen : Nat) (h : entries ≠ []) :
    (groupEnds entries dataLen).length = entries.length := by
  have := List.length_pos_iff.2 h
  simp only [groupEnds, List.length_append, List.length_map, List.length_drop, List.length_singleton]
  omega

/-! ## Folding -/

/-- Commands that joined a fold stand for the items they were. -/
theorem map_commandsOf {cat : Catalog} {labels : LabelTable} {e : Nat} {accepts : Category → Bool}
    {xs : List (Item × Nat)} (h : ∀ x ∈ xs, joins cat labels e accepts x = true) :
    (commandsOf xs).map Item.command = xs.map Prod.fst := by
  induction xs with
  | nil => rfl
  | cons x xs ih =>
    obtain ⟨it, o⟩ := x
    have hrest := ih fun y hy => h y (List.mem_cons_of_mem _ hy)
    cases it with
    | command c => simpa [commandsOf] using hrest
    | data w => simp [joins] at h

/-- The branches a switch or special process takes are the items right after it. -/
theorem items_arms {cat : Catalog} {labels : LabelTable} {e : Nat} {rest : List (Item × Nat)} :
    (commandsOf (rest.takeWhile (joins cat labels e Category.isArm))).map Item.command =
      (rest.take (rest.takeWhile (joins cat labels e Category.isArm)).length).map Prod.fst := by
  rw [map_commandsOf fun x hx => List.mem_takeWhile_imp hx,
    ← List.prefix_iff_eq_take.1 (List.takeWhile_prefix _)]

/-- The instruction a command opens stands for the command and the items it took. -/
theorem gather_items (cat : Catalog) (labels : LabelTable) (e : Nat) (c : Command)
    (rest : List (Item × Nat)) :
    (gather cat labels e c rest).1.items =
      .command c :: (rest.take (gather cat labels e c rest).2).map Prod.fst := by
  unfold gather
  split
  · -- a switch
    dsimp only
    split <;> simp [Instruction.items, Instruction.commands, items_arms]
  · -- a special process
    dsimp only
    split <;> simp [Instruction.items, Instruction.commands, items_arms]
  · -- an entity accessor
    split
    · split <;> simp [Instruction.items, Instruction.commands]
    · simp [Instruction.items, Instruction.commands]
  · simp [Instruction.items, Instruction.commands]

/-! ## The walk -/

/-- What a walk from group `cur` over the located items `xs` hands out: instructions standing for
the items in order, with group indices from `cur` on, in non-decreasing order, and below the
number of groups when `cur` is. -/
structure WalkOut (ends : List Nat) (cur : Nat) (xs : List (Item × Nat))
    (w : List (Nat × Instruction)) : Prop where
  items : w.flatMap (·.2.items) = xs.map Prod.fst
  from_cur : ∀ p ∈ w, cur ≤ p.1
  below : cur < ends.length → ∀ p ∈ w, p.1 < ends.length
  sorted : w.Pairwise (·.1 ≤ ·.1)

/-- One step of a walk: instructions for the item at `o` and the items `taken` after it, all in
group `g`, before a walk from `g` over the rest. -/
theorem WalkOut.step {ends : List Nat} {cur g : Nat} {it : Item} {rest : List (Item × Nat)}
    {head w : List (Nat × Instruction)} (o : Nat) (taken : List (Item × Nat)) (hg : cur ≤ g) (hlt : cur < ends.length → g < ends.length)
    (hidx : ∀ p ∈ head, p.1 = g) (hitems : head.flatMap (·.2.items) = it :: taken.map Prod.fst)
    (hw : WalkOut ends g rest w) : WalkOut ends cur ((it, o) :: (taken ++ rest)) (head ++ w) where
  items := by simp [List.flatMap_append, hitems, hw.items]
  from_cur := by
    intro p hp
    rcases List.mem_append.1 hp with hp | hp
    · exact (hidx p hp).symm ▸ hg
    · exact Nat.le_trans hg (hw.from_cur p hp)
  below := by
    intro hcur p hp
    rcases List.mem_append.1 hp with hp | hp
    · exact (hidx p hp).symm ▸ hlt hcur
    · exact hw.below (hlt hcur) p hp
  sorted := by
    refine List.pairwise_append.2 ⟨?_, hw.sorted, ?_⟩
    · exact List.Pairwise.imp_of_mem (fun ha hb _ => by rw [hidx _ ha, hidx _ hb])
        (List.pairwise_of_forall (fun _ _ => trivial))
    · intro a ha b hb
      exact (hidx a ha).symm ▸ hw.from_cur b hb

/-- An item's instruction, after the label a walk may put before it, all in one group; only the
instruction stands for items. -/
theorem head_of_mark {mark : List (Nat × Instruction)} {g : Nat} (x : Instruction)
    (h : ∀ p ∈ mark, p.1 = g ∧ p.2.items = []) :
    (∀ p ∈ mark ++ [(g, x)], p.1 = g) ∧ (mark ++ [(g, x)]).flatMap (·.2.items) = x.items := by
  constructor
  · intro p hp
    rcases List.mem_append.1 hp with hp | hp
    · exact (h p hp).1
    · simp_all
  · rw [List.flatMap_append, List.flatMap_eq_nil_iff.2 fun p hp => (h p hp).2]
    simp

theorem walk_out (cat : Catalog) (labels : LabelTable) (ends : List Nat) (cur : Nat)
    (xs : List (Item × Nat)) : WalkOut ends cur xs (walk cat labels ends cur xs) := by
  fun_induction walk cat labels ends cur xs with
  | case1 cur =>
    exact ⟨rfl, by simp, by simp, List.Pairwise.nil⟩
  | case2 cur o rest g mark w ih =>
    have hmark : ∀ p ∈ mark, p.1 = g ∧ p.2.items = [] := by
      simp only [mark]
      split <;> simp [Instruction.items, Instruction.commands]
    obtain ⟨hidx, hitems⟩ := head_of_mark (.data w) hmark
    have hstep := WalkOut.step o [] (le_advance ends cur o) (advance_lt o) hidx
      hitems ih
    rwa [List.append_assoc] at hstep
  | case3 cur o rest g mark c inst k hgather ih =>
    have hmark : ∀ p ∈ mark, p.1 = g ∧ p.2.items = [] := by
      simp only [mark]
      split <;> simp [Instruction.items, Instruction.commands]
    obtain ⟨hidx, hitems⟩ := head_of_mark inst hmark
    have hinst := gather_items cat labels (ends.getD g 0) c rest
    rw [hgather] at hinst
    have hstep := WalkOut.step o (rest.take k) (le_advance ends cur o)
      (advance_lt o) hidx (hitems.trans hinst) ih
    rwa [List.append_assoc, List.take_append_drop] at hstep

/-! ## Splitting by group index -/

/-- In a list sorted by index from `a` on, the entries of index `a` come first. -/
theorem filter_eq_append_filter_ne {β : Type} {a : Nat} :
    ∀ {xs : List (Nat × β)}, xs.Pairwise (·.1 ≤ ·.1) → (∀ p ∈ xs, a ≤ p.1) →
      xs.filter (·.1 == a) ++ xs.filter (·.1 != a) = xs
  | [], _, _ => rfl
  | p :: xs, hs, hb => by
    obtain ⟨hp, hs⟩ := List.pairwise_cons.1 hs
    by_cases hpa : p.1 = a
    · have ih := filter_eq_append_filter_ne hs (fun q hq => hpa ▸ hp q hq)
      simp [hpa, ih]
    · have hlt : a < p.1 := Nat.lt_of_le_of_ne (hb p List.mem_cons_self) (Ne.symm hpa)
      have h1 : xs.filter (·.1 == a) = [] :=
        List.filter_eq_nil_iff.2 fun q hq => by have := hp q hq; simp; omega
      have h2 : xs.filter (·.1 != a) = xs :=
        List.filter_eq_self.2 fun q hq => by have := hp q hq; simp; omega
      simp [hpa, h1, h2]

/-- A list sorted by index, with indices in `[a, a + n)`, is the join of its parts of each index
in that range, in order. -/
theorem flatMap_range'_filter {β : Type} (n : Nat) :
    ∀ (a : Nat) (xs : List (Nat × β)), xs.Pairwise (·.1 ≤ ·.1) →
      (∀ p ∈ xs, a ≤ p.1 ∧ p.1 < a + n) →
      (List.range' a n).flatMap (fun i => xs.filter (·.1 == i)) = xs := by
  induction n with
  | zero =>
    intro a xs _ hb
    cases xs with
    | nil => rfl
    | cons p _ => have := hb p List.mem_cons_self; omega
  | succ n ih =>
    intro a xs hs hb
    rw [List.range'_succ, List.flatMap_cons]
    -- the rest, past index `a`, splits by the induction
    have hrest := ih (a + 1) (xs.filter (·.1 != a)) (hs.filter _) (by
      intro p hp
      obtain ⟨hp, hne⟩ := List.mem_filter.1 hp
      have := hb p hp
      simp only [bne_iff_ne, ne_eq] at hne
      omega)
    have hsame : ∀ i ∈ List.range' (a + 1) n,
        (xs.filter (·.1 != a)).filter (·.1 == i) = xs.filter (·.1 == i) := by
      intro i hi
      rw [List.filter_filter]
      congr 1
      funext p
      have := (List.mem_range'_1.1 hi).1
      by_cases h : p.1 = i <;> simp [h]; omega
    rw [List.flatMap_congr hsame] at hrest
    rw [hrest]
    exact filter_eq_append_filter_ne hs (fun p hp => (hb p hp).1)

/-! ## Arranging -/

theorem locate_cons (cat : Catalog) (o : Nat) (it : Item) (items : List Item) :
    locate cat o (it :: items) = (it, o) :: locate cat (o + cat.itemSize it) items := rfl

theorem map_fst_locate (cat : Catalog) (o : Nat) (xs : List Item) :
    (locate cat o xs).map Prod.fst = xs := by
  induction xs generalizing o with
  | nil => rfl
  | cons x xs ih => simp [locate, ih]

/-- Groups that take the instructions of each index from a list sorted by index, one group per
entry, stand together for what the list stands for. -/
theorem flatMap_items_groups (entries : List GroupEntry) (all : List (Nat × Instruction))
    (hs : all.Pairwise (·.1 ≤ ·.1)) (hb : ∀ p ∈ all, p.1 < entries.length) :
    entries.zipIdx.flatMap
        (fun a => (Group.mk a.1.kind a.1.unk2 ((all.filter (·.1 == a.2)).map (·.2))).items) =
      all.flatMap (·.2.items) := by
  have hsplit := flatMap_range'_filter entries.length 0 all hs (fun p hp => ⟨Nat.zero_le _, by
    simpa using hb p hp⟩)
  calc entries.zipIdx.flatMap
          (fun a => (Group.mk a.1.kind a.1.unk2 ((all.filter (·.1 == a.2)).map (·.2))).items)
      _ = entries.zipIdx.flatMap (fun a => (all.filter (·.1 == a.2)).flatMap (·.2.items)) := by
        simp only [Group.items, List.flatMap_map]
      _ = (List.range' 0 entries.length).flatMap
            (fun i => (all.filter (·.1 == i)).flatMap (·.2.items)) := by
        rw [← List.zipIdx_map_snd 0 entries, List.flatMap_map]
      _ = ((List.range' 0 entries.length).flatMap (fun i => all.filter (·.1 == i))).flatMap
            (·.2.items) := by
        rw [List.flatMap_assoc]
      _ = all.flatMap (·.2.items) := by rw [hsplit]

/-- Grouping keeps the code: there is one group per entry of the group table, with that entry's
kind and spare word; without entries there are neither groups nor raw targets; and otherwise the
groups, joined in order, stand for exactly the items of the code, each once and in order, labels
standing for none and folded instructions for the commands they hold. -/
theorem arrange_keeps_items (code : Code) (cat : Catalog) (entries : List GroupEntry)
    (start dataLen : Nat) :
    (code.arrange cat entries start dataLen).1.map (fun g => (g.kind, g.unk2)) =
        entries.map (fun e => (e.kind, e.unk2)) ∧
      (entries = [] → code.arrange cat entries start dataLen = ([], [])) ∧
      (entries ≠ [] → (code.arrange cat entries start dataLen).1.flatMap Group.items = code.items) := by
  unfold Code.arrange
  by_cases he : entries = []
  · subst he
    simp
  · have hne : entries.isEmpty = false := List.isEmpty_eq_false_iff.2 he
    simp only [hne, Bool.false_eq_true, if_false]
    refine ⟨?_, fun h => absurd h he, fun _ => ?_⟩
    · have hfst : entries.map (fun e => (e.kind, e.unk2)) =
          entries.zipIdx.map (fun a => (a.1.kind, a.1.unk2)) := by
        rw [← List.zipIdx_map_fst 0 entries, List.map_map, List.zipIdx_map_fst]
        rfl
      rw [hfst, List.map_map]
      rfl
    · have hends := length_groupEnds dataLen he
      have hpos := List.length_pos_iff.2 he
      have hw := walk_out cat code.labels (groupEnds entries dataLen) 0 (locate cat start code.items)
      have hbelow : ∀ p ∈ walk cat code.labels (groupEnds entries dataLen) 0
          (locate cat start code.items), p.1 < entries.length :=
        fun p hp => hends ▸ hw.below (by omega) p hp
      simp only [List.flatMap_map]
      -- a label at the end of the code goes last, into the last group
      rcases hlab : code.labels.at? (endOffset cat start code.items) with _ | l
      · rw [flatMap_items_groups entries _ (by simpa using hw.sorted) (by simpa using hbelow)]
        simpa [map_fst_locate] using hw.items
      · have hs : (walk cat code.labels (groupEnds entries dataLen) 0 (locate cat start code.items) ++
            [(entries.length - 1, Instruction.label l)]).Pairwise (·.1 ≤ ·.1) :=
          List.pairwise_append.2 ⟨hw.sorted, List.pairwise_singleton _ _, by
            intro a ha b hb
            simp only [List.mem_singleton] at hb
            have := hbelow a ha
            rw [hb]
            omega⟩
        rw [flatMap_items_groups entries _ hs (by
          intro p hp
          rcases List.mem_append.1 hp with hp | hp
          · exact hbelow p hp
          · simp only [List.mem_singleton] at hp
            rw [hp]
            omega)]
        rw [List.flatMap_append, hw.items, map_fst_locate]
        simp [Instruction.items, Instruction.commands]

/-- Two groups, the second starting past the end of the code, keep a command, a data word and
another command in order. -/
theorem arrange_keeps_items_two_groups :
    [(⟨5, 0, 0⟩ : GroupEntry), ⟨7, 1, 0⟩] ≠ [] ∧
      ((Code.mk [.command ⟨1, [2]⟩, .data 0x20, .command ⟨0, []⟩] LabelTable.empty).arrange
          (Catalog.empty .sky 16) [⟨5, 0, 0⟩, ⟨7, 1, 0⟩] 10 20).1.flatMap Group.items =
        [.command ⟨1, [2]⟩, .data 0x20, .command ⟨0, []⟩] :=
  ⟨by decide, (arrange_keeps_items _ _ _ 10 20).2.2 (by decide)⟩

end DungeonFormats.Script
