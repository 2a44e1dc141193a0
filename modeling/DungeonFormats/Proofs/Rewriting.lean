import Mathlib
import DungeonFormats.Proofs.Rereading
import DungeonFormats.Proofs.Boundaries

/-!
# Writing again the script read from written bytes

A script need not be in the form reading gives: its labels may be numbered in any order, stand
where no jump lands, share an offset or close a group, and its commands may be folded in part
or not at all. Writing it, reading the bytes back and writing what was read gives the same
bytes, provided its data words read as data, every raw target word that lands on a boundary of
the code is a plain offset, and raw words that land on one target are one word. The bytes hold
the same items; reading labels every jump target on a boundary, so writing again places each of
those labels where the first writing placed the jumps' target; every other target stays raw
with the word it was first written as; and the groups are cut where they were.
-/

namespace DungeonFormats.Script

/-! ## Images from their parts -/

theorem regionTables_congr {s s' : Script} (h : s'.strings = s.strings) (r : Region) :
    regionTables s' r = regionTables s r := by
  unfold regionTables
  rw [h]

/-- A script whose tables, labels and groups the writer takes in turn has the image they make. -/
theorem image_of_parts {game : Game} {s : Script} {im : Image} (hreg : im.region = game.region)
    (hconst : im.constants = s.constants) (hunk : im.unk1 = s.unk1)
    (htables : regionTables s game.region = .ok im.tables)
    (hsame : ∀ t ∈ im.tables, t.length = im.stringCount) {targets : List (LabelId × Nat)}
    (hplace : placeLabels game.catalog s.rawTargets (s.groups.flatMap (·.instructions))
      (4 + 6 * s.groups.length) [] = .ok targets)
    (hgroups : s.groups.mapM (resolveGroup game.catalog targets s.rawTargets) = .ok im.groups) :
    Script.image game s = .ok im := by
  obtain ⟨-, t, ts, hts⟩ := exists_cons_of_regionTables htables
  obtain ⟨region, groups, constants, tables, unk1⟩ := im
  simp only at hreg hconst hunk htables hsame hts hgroups
  subst hreg hconst hunk hts
  have hany : ¬ ((t :: ts).any fun u => decide (u.length ≠ t.length)) = true := by
    simpa [Image.stringCount] using hsame
  unfold Script.image
  simp only [htables, bind, Except.bind]
  rw [if_neg hany, hplace]
  simp only [hgroups]
  rfl

/-! ## Lists of items told apart by their sizes -/

section Sizes

variable (cat : Catalog)

theorem eq_nil_of_itemsSize_eq_zero {xs : List Item} (h : cat.itemsSize xs = 0) : xs = [] := by
  cases xs with
  | nil => rfl
  | cons x xs =>
    have := itemSize_pos cat x
    simp only [Catalog.itemsSize] at h
    omega

/-- Two splits of one list of items whose first parts take the same room are one split. -/
theorem append_inj_of_itemsSize {xs ys xs' ys' : List Item} (h : xs ++ ys = xs' ++ ys')
    (hs : cat.itemsSize xs = cat.itemsSize xs') : xs = xs' ∧ ys = ys' := by
  rcases List.append_eq_append_iff.1 h with ⟨a, rfl, rfl⟩ | ⟨c, rfl, rfl⟩
  · rw [itemsSize_append] at hs
    obtain rfl := eq_nil_of_itemsSize_eq_zero cat (by omega : cat.itemsSize a = 0)
    simp
  · rw [itemsSize_append] at hs
    obtain rfl := eq_nil_of_itemsSize_eq_zero cat (by omega : cat.itemsSize c = 0)
    simp

/-- Lists of item lists that join to one list and whose prefixes take the same room are equal. -/
theorem eq_of_flatten_eq : ∀ {A B : List (List Item)}, A.length = B.length → A.flatten = B.flatten →
    (∀ j, j + 1 < A.length → cat.itemsSize (A.take (j + 1)).flatten = cat.itemsSize (B.take (j + 1)).flatten) →
      A = B
  | [], [], _, _, _ => rfl
  | [a], [b], _, hf, _ => by simpa using hf
  | a :: a' :: A, b :: b' :: B, hl, hf, hs => by
    have h0 := hs 0 (by simp)
    simp only [List.take_succ_cons, List.take_zero, List.flatten_cons, List.flatten_nil,
      List.append_nil] at h0
    rw [List.flatten_cons, List.flatten_cons] at hf
    obtain ⟨rfl, hrest⟩ := append_inj_of_itemsSize cat hf h0
    rw [eq_of_flatten_eq (A := a' :: A) (B := b' :: B) (by simpa using hl) hrest fun j hj => ?_]
    have := hs (j + 1) (by simp at hj ⊢; omega)
    simp only [List.take_succ_cons, List.flatten_cons, itemsSize_append] at this ⊢
    omega
  | [], _ :: _, hl, _, _ => absurd hl (by simp)
  | _ :: _, [], hl, _, _ => absurd hl (by simp)
  | [_], _ :: _ :: _, hl, _, _ => absurd hl (by simp)
  | _ :: _ :: _, [_], hl, _, _ => absurd hl (by simp)

end Sizes

/-! ## Tables of targets read from written bytes -/

namespace LabelTable

theorem mem_targets_noteAll : ∀ {t : LabelTable} {ws : List UInt16} {p : Int × UInt16},
    p ∈ (t.noteAll ws).targets → p ∈ t.targets ∨ p.2 ∈ ws
  | _, [], _, h => .inl h
  | t, w :: ws, p, h => by
    rw [noteAll_cons] at h
    rcases mem_targets_noteAll h with h | h
    · rw [targets_note, List.mem_append] at h
      rcases h with h | h
      · exact .inl h
      · split at h
        · simp at h
        · simp only [List.mem_singleton] at h
          subst h
          exact .inr List.mem_cons_self
    · exact .inr (List.mem_cons_of_mem _ h)

/-- In a sound table of at most `65536` targets, a label stands for one offset. -/
theorem Sound.at?_inj {t : LabelTable} (ht : t.Sound) (hn : t.targets.length ≤ 65536) {o o' : Nat}
    {l : LabelId} (h : t.at? o = some l) (h' : t.at? o' = some l) : o = o' := by
  obtain ⟨i, hi, rfl⟩ := at?_eq_some_iff.1 h
  obtain ⟨i', hi', hl⟩ := at?_eq_some_iff.1 h'
  obtain ⟨hlt, ho⟩ := ht.idOf?_eq_some_iff.1 hi
  obtain ⟨hlt', ho'⟩ := ht.idOf?_eq_some_iff.1 hi'
  obtain rfl : i = i' := toUInt16_inj (by omega) (by omega) (congrArg LabelId.val hl)
  exact_mod_cast ho.symm.trans ho'

/-- A label placed by arranging is none of the raw targets. -/
theorem lookup_unplaced_of_mem {t : LabelTable} {placed : List LabelId} {l : LabelId} (h : l ∈ placed) :
    (t.unplaced placed).lookup l = none := by
  cases hl : (t.unplaced placed).lookup l with
  | none => rfl
  | some w =>
    have hmem := mem_of_lookup_eq_some hl
    simp only [unplaced, List.mem_filterMap] at hmem
    obtain ⟨p, -, hsome⟩ := hmem
    split at hsome
    · cases hsome
    · rename_i hnot
      simp only [Option.some.injEq, Prod.mk.injEq] at hsome
      rw [← hsome.1] at h
      simp [h] at hnot

end LabelTable

theorem mem_filterMap_targetAt {t : LabelTable} {bs : List Nat} {p : LabelId × Nat} :
    p ∈ bs.filterMap (targetAt t) ↔ p.2 ∈ bs ∧ t.at? p.2 = some p.1 := by
  simp only [List.mem_filterMap, targetAt, Option.map_eq_some_iff]
  constructor
  · rintro ⟨b, hb, l, hl, rfl⟩
    exact ⟨hb, hl⟩
  · rintro ⟨hb, hl⟩
    exact ⟨p.2, hb, p.1, hl, rfl⟩

/-- The jump targets among offsets in increasing order carry distinct labels. -/
theorem nodup_targetAt {t : LabelTable} (ht : t.Sound) (hn : t.targets.length ≤ 65536) :
    ∀ {bs : List Nat}, bs.Pairwise (· < ·) → ((bs.filterMap (targetAt t)).map (·.1)).Nodup
  | [], _ => by simp
  | b :: bs, hs => by
    rw [List.pairwise_cons] at hs
    have ih := nodup_targetAt ht hn hs.2
    rw [List.filterMap_cons]
    cases hb : targetAt t b with
    | none => exact ih
    | some p =>
      refine List.nodup_cons.2 ⟨fun hmem => ?_, ih⟩
      -- a later target with the same label would stand at the same offset
      obtain ⟨q, hq, hql⟩ := List.mem_map.1 hmem
      obtain ⟨hqb, hqat⟩ := mem_filterMap_targetAt.1 hq
      simp only [targetAt, Option.map_eq_some_iff] at hb
      obtain ⟨l, hl, rfl⟩ := hb
      have := ht.at?_inj hn hl (hql ▸ hqat)
      have := hs.1 _ hqb
      omega

/-! ## Labels read from written bytes, written again -/

section Again

variable {ws : List UInt16} {bs : List Nat}

/-- The words of jumps read back into one table and written again from the labels placed at
boundaries `bs`, the other targets raw: a word that lands on a boundary and is a plain offset
is written as itself, and so is a word that lands elsewhere when every word landing there is
the same. -/
theorem resolvedWord_reread (hn : (LabelTable.empty.noteAll ws).targets.length ≤ 65536)
    (hs : bs.Pairwise (· < ·))
    (hnear : ∀ w ∈ ws, (∃ b ∈ bs, (b : Int) = jumpTarget w) → w.toNat < 0x4000)
    (hmerge : ∀ w ∈ ws, ∀ w' ∈ ws, jumpTarget w = jumpTarget w' →
      (¬ ∃ b ∈ bs, (b : Int) = jumpTarget w) → w = w')
    {w : UInt16} (hw : w ∈ ws) :
    Resolvable (bs.filterMap (targetAt (LabelTable.empty.noteAll ws))).reverse
        ((LabelTable.empty.noteAll ws).unplaced ((bs.filterMap (targetAt (LabelTable.empty.noteAll ws))).map (·.1)))
        ((LabelTable.empty.noteAll ws).labelOf w) ∧
      resolvedWord (bs.filterMap (targetAt (LabelTable.empty.noteAll ws))).reverse
        ((LabelTable.empty.noteAll ws).unplaced ((bs.filterMap (targetAt (LabelTable.empty.noteAll ws))).map (·.1)))
        ((LabelTable.empty.noteAll ws).labelOf w) = w := by
  generalize ht : LabelTable.empty.noteAll ws = t at hn ⊢
  have hsound : t.Sound := ht ▸ LabelTable.sound_empty.noteAll ws
  obtain ⟨i, hi⟩ := Option.isSome_iff_exists.1 (ht ▸ LabelTable.isSome_idOf?_noteAll LabelTable.empty hw)
  obtain ⟨hilt, hio⟩ := hsound.idOf?_eq_some_iff.1 hi
  rw [LabelTable.labelOf_eq hi]
  by_cases hb : ∃ b ∈ bs, (b : Int) = jumpTarget w
  · -- a target on a boundary: its label is placed there, and the word is half the offset
    obtain ⟨b, hbm, hbw⟩ := hb
    have hmem : (⟨i.toUInt16⟩, b) ∈ bs.filterMap (targetAt t) :=
      mem_filterMap_targetAt.2 ⟨hbm, by simp [LabelTable.at?, hbw, hi]⟩
    have hlook : (bs.filterMap (targetAt t)).reverse.lookup ⟨i.toUInt16⟩ = some b :=
      lookup_eq_some_of_mem (by rw [List.map_reverse, List.nodup_reverse]; exact nodup_targetAt hsound hn hs)
        (List.mem_reverse.2 hmem)
    have hlt := hnear w hw ⟨b, hbm, hbw⟩
    have hb2 : (b : Int) = 2 * w.toNat := by
      rw [hbw, jumpTarget, paramValue_of_lt hlt]
    unfold Resolvable resolvedWord
    rw [hlook]
    dsimp only
    refine ⟨by omega, ?_⟩
    rw [show b / 2 = w.toNat by omega]
    exact UInt16.ofNat_toNat
  · -- elsewhere: the target stays raw with the word it was first read from
    have hnot : ⟨i.toUInt16⟩ ∉ (bs.filterMap (targetAt t)).map (·.1) := by
      intro hmem
      obtain ⟨q, hq, hql⟩ := List.mem_map.1 hmem
      obtain ⟨hqb, hqat⟩ := mem_filterMap_targetAt.1 hq
      obtain ⟨i', hi', hl⟩ := LabelTable.at?_eq_some_iff.1 hqat
      obtain ⟨hilt', hio'⟩ := hsound.idOf?_eq_some_iff.1 hi'
      obtain rfl : i = i' := toUInt16_inj (by omega) (by omega) (congrArg LabelId.val (hql ▸ hl))
      exact hb ⟨q.2, hqb, hio'.symm.trans hio⟩
    have hlookT : (bs.filterMap (targetAt t)).reverse.lookup ⟨i.toUInt16⟩ = none := by
      rw [List.lookup_eq_none_iff]
      intro p hp
      have hne : p.1 ≠ ⟨i.toUInt16⟩ := fun h => hnot (List.mem_map.2 ⟨p, List.mem_reverse.1 hp, h⟩)
      simp only [bne_iff_ne, ne_eq]
      exact fun h => hne h.symm
    have hraw := LabelTable.lookup_unplaced_of_not_mem hn hilt
      (Bool.eq_false_iff.2 fun h => hnot (List.contains_iff_mem.1 h))
    have hw0 : t.targets[i].2 ∈ ws := by
      have hmemT : t.targets[i] ∈ (LabelTable.empty.noteAll ws).targets := by
        rw [ht]
        exact List.getElem_mem hilt
      rcases LabelTable.mem_targets_noteAll hmemT with h | h
      · simp [LabelTable.empty] at h
      · exact h
    have hjt : jumpTarget t.targets[i].2 = jumpTarget w :=
      (hsound.target_word _ (List.getElem_mem hilt)).symm.trans hio
    unfold Resolvable resolvedWord
    rw [hlookT, hraw]
    exact ⟨rfl, (hmerge w hw _ hw0 hjt.symm hb).symm⟩

end Again

/-! ## The groups of written bytes read back -/

theorem boundaries_map_mapItem (cat : Catalog) (f : UInt16 → UInt16) :
    ∀ (o : Nat) (items : List Item), boundaries cat o (items.map (cat.mapItem f)) = boundaries cat o items
  | o, [] => rfl
  | o, it :: items => by
    rw [List.map_cons, boundaries_cons, boundaries_cons, Catalog.itemSize_mapItem,
      boundaries_map_mapItem cat f _ items]

theorem itemsSize_take_mono (cat : Catalog) (gs : List GroupCode) {i j : Nat} (h : i ≤ j) :
    cat.itemsSize ((gs.take i).flatMap (·.items)) ≤ cat.itemsSize ((gs.take j).flatMap (·.items)) := by
  have hsplit : gs.take j = gs.take i ++ (gs.take j).drop i := by
    conv_lhs => rw [← List.take_append_drop i (gs.take j)]
    rw [List.take_take, Nat.min_eq_left h]
  rw [hsplit, List.flatMap_append, itemsSize_append]
  omega

/-- Group codes with the same header words and the same items are the same. -/
theorem eq_of_headers_of_items : ∀ {xs ys : List GroupCode},
    xs.map (fun g => (g.kind, g.unk2)) = ys.map (fun g => (g.kind, g.unk2)) →
      xs.map (·.items) = ys.map (·.items) → xs = ys
  | [], [], _, _ => rfl
  | x :: xs, y :: ys, hh, hi => by
    simp only [List.map_cons, List.cons.injEq, Prod.mk.injEq] at hh hi
    rw [eq_of_headers_of_items hh.2 hi.2]
    cases x
    cases y
    simp_all
  | [], _ :: _, hh, _ => by simp at hh
  | _ :: _, [], hh, _ => by simp at hh

/-- The commands among an instruction's items are its commands. -/
@[simp] theorem Instruction.command_mem_items {i : Instruction} {c : Command} :
    Item.command c ∈ i.items ↔ c ∈ i.commands := by
  cases i <;> simp [Instruction.items, Instruction.commands]

/-- Instructions handed out by a walk can be written when every command among the items they
stand for can. -/
theorem writable_of_items {cat : Catalog} {targets : List (LabelId × Nat)} {raw : List (LabelId × UInt16)}
    {entries : List GroupEntry} {P : List (Nat × Instruction)}
    (h : ∀ c, Item.command c ∈ P.flatMap (·.2.items) →
      cat.ReadableItem (.command c) ∧ ∀ p ∈ cat.commandJumps c, Resolvable targets raw p) :
    ∀ g ∈ groupsOf entries P, ∀ i ∈ g.instructions, Writable cat targets raw i := by
  intro g hg i hi c hc
  obtain ⟨a, -, rfl⟩ := List.mem_map.1 hg
  obtain ⟨q, hq, rfl⟩ := List.mem_map.1 hi
  exact h c (List.mem_flatMap.2 ⟨q, List.mem_of_mem_filter hq, Instruction.command_mem_items.2 hc⟩)

/-- The walk over an image's items, whatever their jump words are renamed to, cuts its groups
where the image's groups end. -/
theorem Image.cutAt_placed {cat : Catalog} {im : Image} (hdl : im.dataLen cat < 131072)
    (f : UInt16 → UInt16) (L : LabelTable) {j : Nat} (hj : j + 1 < im.groups.length) :
    cutAt cat im.codeStart (Code.placed ⟨im.items.map (cat.mapItem f), L⟩ cat (im.entries cat)
      im.codeStart (im.dataLen cat)) j =
      im.codeStart + cat.itemsSize ((im.groups.take (j + 1)).flatMap (·.items)) := by
  have hlenE : (im.entries cat).length = im.groups.length := by
    simp [Image.entries, length_groupStarts]
  have hE : im.entries cat ≠ [] := fun h => by
    rw [h, List.length_nil] at hlenE
    omega
  have hends := fun i (hi : i + 1 < im.groups.length) => Image.getD_groupEnds_entries cat im hdl hi
  have hmem : im.codeStart + cat.itemsSize ((im.groups.take (j + 1)).flatMap (·.items)) ∈
      boundaries cat im.codeStart im.items := by
    have := boundaries_append cat im.codeStart ((im.groups.take (j + 1)).flatMap (·.items))
      ((im.groups.drop (j + 1)).flatMap (·.items))
    rw [← List.flatMap_append, List.take_append_drop] at this
    rw [Image.items, this]
    exact List.mem_append_right _ (start_mem_boundaries cat _ _)
  rw [Code.placed, cutAt_append_labelMark, ← hends j hj]
  refine cutAt_walk cat _ (by rw [length_groupEnds _ hE, hlenE]; exact hj) (fun i hi => ?_) _ 0 _ _
    le_rfl (Nat.zero_le j) ?_
  · rw [hends i (by omega), hends j hj]
    have := itemsSize_take_mono cat im.groups (by omega : i + 1 ≤ j + 1)
    omega
  · rw [hends j hj, boundaries_map_mapItem]
    exact hmem

/-- Instructions that hold an image's items with renamed jump words, sorted into the image's
groups and cut where its groups end, are written back as the image's groups by a renaming that
undoes the first. -/
theorem Image.groups_of_placed {cat : Catalog} {im : Image} {P : List (Nat × Instruction)}
    {f W : UInt16 → UInt16} (hsorted : P.Pairwise (·.1 ≤ ·.1))
    (hbelow : ∀ p ∈ P, p.1 < (im.entries cat).length)
    (hitems : P.flatMap (·.2.items) = im.items.map (cat.mapItem f))
    (hback : ∀ w ∈ cat.jumps im.items, W (f w) = w)
    (hcut : ∀ j, j + 1 < im.groups.length →
      cutAt cat im.codeStart P j = im.codeStart + cat.itemsSize ((im.groups.take (j + 1)).flatMap (·.items))) :
    im.groups = (groupsOf (im.entries cat) P).map
      fun g => ⟨g.kind, g.unk2, g.items.map (cat.mapItem W)⟩ := by
  have hlenG : (groupsOf (im.entries cat) P).length = im.groups.length := by
    simp [groupsOf, Image.entries, length_groupStarts]
  have hitemsG : (groupsOf (im.entries cat) P).flatMap Group.items = im.items.map (cat.mapItem f) := by
    rw [groupsOf, List.flatMap_map, flatMap_items_groups _ P hsorted hbelow, hitems]
  have hfix : (im.items.map (cat.mapItem f)).map (cat.mapItem W) = im.items := by
    rw [List.map_map]
    refine (List.map_congr_left fun it hit => ?_).trans (List.map_id _)
    refine (cat.mapItem_mapItem _ _ it).trans ((cat.mapItem_congr _ _ it fun w hw => ?_).trans (cat.mapItem_id it))
    exact hback w (List.mem_flatMap.2 ⟨it, hit, hw⟩)
  -- the same headers, the same items, cut at the same places
  refine eq_of_headers_of_items ?_ (eq_of_flatten_eq cat (by simp [hlenG]) ?_ fun j hj => ?_)
  · rw [List.map_map]
    exact (Image.headers_entries cat im).symm.trans (headers_groupsOf _ P).symm
  · rw [← List.flatMap_def, ← List.flatMap_def, flatMap_items_resolved, hitemsG, hfix]
    rfl
  · simp only [List.length_map] at hj
    rw [← List.map_take, ← List.map_take, ← List.map_take, ← List.flatMap_def, ← List.flatMap_def,
      flatMap_items_resolved, Catalog.itemsSize_map_mapItem, items_take_groupsOf _ P hsorted hbelow]
    have := hcut j hj
    rw [cutAt] at this
    omega

/-- Groups and raw targets read back from the bytes of an image are written as the image's
groups, when its items read back as themselves, its jump words that land on a boundary of the
code are plain offsets, and its jump words that land on one other target are one word. -/
theorem rewrite_arranged {cat : Catalog} {im : Image} (hread : ∀ it ∈ im.items, cat.ReadableItem it)
    (hdl : im.dataLen cat < 131072)
    (hnear : ∀ w ∈ cat.jumps im.items,
      (∃ b ∈ boundaries cat im.codeStart im.items, (b : Int) = jumpTarget w) → w.toNat < 0x4000)
    (hmerge : ∀ w ∈ cat.jumps im.items, ∀ w' ∈ cat.jumps im.items, jumpTarget w = jumpTarget w' →
      (¬ ∃ b ∈ boundaries cat im.codeStart im.items, (b : Int) = jumpTarget w) → w = w')
    {C1 : Code} (hC1 : Code.decode cat (im.dataBlock cat) im.codeStart = .ok C1)
    {groups : List Group} {raw : List (LabelId × UInt16)}
    (harr : C1.arrange cat (im.entries cat) im.codeStart (im.dataLen cat) = (groups, raw)) :
    ∃ targets, placeLabels cat raw (groups.flatMap (·.instructions)) (4 + 6 * groups.length) [] = .ok targets ∧
      groups.mapM (resolveGroup cat targets raw) = .ok im.groups := by
  rw [Image.decode_dataBlock cat im hread, Except.ok.injEq] at hC1
  subst hC1
  have hlenE : (im.entries cat).length = im.groups.length := by
    simp [Image.entries, length_groupStarts]
  by_cases hne : im.groups = []
  · -- without groups nothing is read, and nothing is written
    have hE : im.entries cat = [] := List.length_eq_zero_iff.1 (by rw [hlenE, hne]; rfl)
    rw [hE] at harr
    simp only [Code.arrange, List.isEmpty_nil, if_true, Prod.mk.injEq] at harr
    obtain ⟨rfl, rfl⟩ := harr
    exact ⟨[], (placeLabels_eq_ok_iff cat [] [] _ [] []).2 ⟨by simp [labelOffsets], by simp [labelOffsets],
      by simp [labelOffsets]⟩, by simp [hne, pure, Except.pure]⟩
  have hE : im.entries cat ≠ [] := fun h => hne (List.length_eq_zero_iff.1 (hlenE ▸ h ▸ rfl))
  have hT := LabelTable.sound_empty.noteAll (cat.jumps im.items)
  have hn : (LabelTable.empty.noteAll (cat.jumps im.items)).targets.length ≤ 65536 := by
    have h1 := LabelTable.length_noteAll_le LabelTable.empty (cat.jumps im.items)
    have h2 := cat.length_jumps_le im.items
    rw [show LabelTable.empty.targets.length = 0 from rfl, Nat.zero_add] at h1
    simp only [Image.dataLen] at hdl
    omega
  -- where the walk over the items read back cuts its groups: where the image's groups end
  have hcut := fun j (hj : j + 1 < im.groups.length) => Image.cutAt_placed hdl
    (LabelTable.empty.noteAll (cat.jumps im.items)).labelOf (LabelTable.empty.noteAll (cat.jumps im.items)) hj
  obtain ⟨hsorted, hbelow⟩ := placed_sorted cat ⟨im.items.map (cat.mapItem (LabelTable.empty.noteAll
    (cat.jumps im.items)).labelOf), LabelTable.empty.noteAll (cat.jumps im.items)⟩ hE im.codeStart (im.dataLen cat)
  have hitems := placed_items cat ⟨im.items.map (cat.mapItem (LabelTable.empty.noteAll
    (cat.jumps im.items)).labelOf), LabelTable.empty.noteAll (cat.jumps im.items)⟩ (im.entries cat) im.codeStart
    (im.dataLen cat)
  have hlabels := labelOffsets_placed_eq cat ⟨im.items.map (cat.mapItem (LabelTable.empty.noteAll
    (cat.jumps im.items)).labelOf), LabelTable.empty.noteAll (cat.jumps im.items)⟩ (im.entries cat) im.codeStart
    (im.dataLen cat)
  simp only at hitems hlabels
  rw [boundaries_map_mapItem] at hlabels
  -- every jump word read back is written again as itself
  have hres := fun w (hw : w ∈ cat.jumps im.items) => resolvedWord_reread hn
    (boundaries_sorted cat im.codeStart im.items) hnear hmerge hw
  rw [Code.arrange_eq _ cat hE, Prod.mk.injEq] at harr
  obtain ⟨rfl, rfl⟩ := harr
  generalize Code.placed _ cat (im.entries cat) im.codeStart (im.dataLen cat) = P at hcut hsorted hbelow hitems hlabels ⊢
  generalize LabelTable.empty.noteAll (cat.jumps im.items) = T at hT hn hres hitems hlabels ⊢
  have hlenG : (groupsOf (im.entries cat) P).length = im.groups.length := by simp [groupsOf, hlenE]
  rw [instructions_groupsOf _ P hsorted hbelow, hlenG, show 4 + 6 * im.groups.length = im.codeStart from rfl,
    labelsOf_eq_labelOffsets cat im.codeStart, hlabels]
  dsimp only
  refine ⟨((boundaries cat im.codeStart im.items).filterMap (targetAt T)).reverse,
    (placeLabels_eq_ok_iff cat _ _ _ _ _).2 ⟨?_, fun l hl => ?_, ?_⟩, ?_⟩
  · rw [hlabels]
    exact nodup_targetAt hT hn (boundaries_sorted cat _ _)
  · rw [hlabels] at hl
    exact ⟨rfl, LabelTable.lookup_unplaced_of_mem hl⟩
  · rw [hlabels, List.append_nil]
  refine (mapM_resolveGroup_eq_ok_iff cat _ _ _ _).2 ⟨writable_of_items fun c hc => ?_,
    Image.groups_of_placed hsorted hbelow hitems (fun w hw => (hres w hw).2) hcut⟩
  -- each command read back is an item of the image relabelled
  rw [hitems] at hc
  obtain ⟨it, hit, hitc⟩ := List.mem_map.1 hc
  refine ⟨hitc ▸ cat.readableItem_mapItem _ (hread it hit), fun p hp => ?_⟩
  have hp' : p ∈ cat.itemJumps (cat.mapItem T.labelOf it) := by
    rw [hitc]
    exact hp
  rw [Catalog.itemJumps_mapItem] at hp'
  obtain ⟨w, hw, rfl⟩ := List.mem_map.1 hp'
  exact (hres w (List.mem_flatMap.2 ⟨it, hit, hw⟩)).1

/-! ## Writing, reading and writing again -/

/-- A jump word written for a script either points, as a plain offset, at a boundary of the
code, or is the raw word its label names. -/
theorem resolvedWord_cases {cat : Catalog} {raw : List (LabelId × UInt16)} {is : List Instruction} {o : Nat}
    (ho : o % 2 = 0) {p : UInt16} (hp : Resolvable (labelOffsets cat o is).reverse raw p) :
    ((resolvedWord (labelOffsets cat o is).reverse raw p).toNat < 0x4000 ∧
      ∃ b ∈ boundaries cat o (is.flatMap Instruction.items),
        (b : Int) = jumpTarget (resolvedWord (labelOffsets cat o is).reverse raw p)) ∨
      raw.lookup ⟨p⟩ = some (resolvedWord (labelOffsets cat o is).reverse raw p) := by
  unfold Resolvable at hp
  unfold resolvedWord
  split at hp
  · -- placed: half the offset of the instruction after the label, a boundary
    rename_i b hb
    have hbd := mem_boundaries_of_labelOffsets cat o is _ (List.mem_reverse.1 (mem_of_lookup_eq_some hb))
    have heven := even_of_mem_boundaries cat ho hbd
    refine Or.inl ⟨?_, b, hbd, (jumpTarget_half heven hp).symm⟩
    rw [toNat_toUInt16_of_lt (by omega)]
    exact hp
  · -- raw: the word the script gives for the label
    obtain ⟨v, hv⟩ := Option.isSome_iff_exists.1 hp
    rw [hv]
    exact Or.inr rfl

/-- Writing a script, reading the bytes back and writing what was read gives the same bytes,
when the script's data words read as data, each raw word one of its jumps uses is a plain
offset if it lands on a boundary of the code, and raw words its jumps use that land on one
target are one word. -/
theorem encode_decode_encode {game : Game} {s : Script} {b : List UInt8}
    (henc : Script.encode game s = .ok b)
    (hdata : ∀ w, Item.data w ∈ s.groups.flatMap Group.items → game.catalog.count ≤ w)
    (hnear : ∀ p ∈ game.catalog.jumps (s.groups.flatMap Group.items), ∀ w,
      s.rawTargets.lookup ⟨p⟩ = some w →
      (∃ o ∈ boundaries game.catalog (4 + 6 * s.groups.length) (s.groups.flatMap Group.items),
        (o : Int) = jumpTarget w) → w ≤ 0x3FFF)
    (hmerge : ∀ p ∈ game.catalog.jumps (s.groups.flatMap Group.items),
      ∀ q ∈ game.catalog.jumps (s.groups.flatMap Group.items), ∀ v w,
      s.rawTargets.lookup ⟨p⟩ = some v → s.rawTargets.lookup ⟨q⟩ = some w → jumpTarget v = jumpTarget w → v = w) :
    ∃ s', Script.decode game b = .ok s' ∧ Script.encode game s' = .ok b := by
  obtain ⟨im, him, hfit, rfl⟩ := image_of_encode henc
  obtain ⟨hreg, -, -, htables, hsame, targets, hplace, hgroups⟩ := image_parts him
  obtain ⟨hwrit, hcodes⟩ := (mapM_resolveGroup_eq_ok_iff _ _ _ _ _).1 hgroups
  obtain ⟨-, -, htargets⟩ := (placeLabels_eq_ok_iff _ _ _ _ _ _).1 hplace
  rw [List.append_nil] at htargets
  subst htargets
  have hitems := congrArg (List.flatMap (·.items)) hcodes
  rw [flatMap_items_resolved, ← Image.items] at hitems
  have hcs : im.codeStart = 4 + 6 * s.groups.length := by simp [Image.codeStart, hcodes]
  have hsplit : (s.groups.flatMap (·.instructions)).flatMap Instruction.items = s.groups.flatMap Group.items := by
    rw [List.flatMap_assoc]
    rfl
  have hB : boundaries game.catalog im.codeStart im.items =
      boundaries game.catalog (4 + 6 * s.groups.length) (s.groups.flatMap Group.items) := by
    rw [hitems, boundaries_map_mapItem, hcs]
  -- every word the image jumps with: a plain offset of a boundary, or a raw word of the script
  have hcases : ∀ w ∈ game.catalog.jumps im.items,
      (w.toNat < 0x4000 ∧ ∃ o ∈ boundaries game.catalog im.codeStart im.items, (o : Int) = jumpTarget w) ∨
        ∃ p ∈ game.catalog.jumps (s.groups.flatMap Group.items), s.rawTargets.lookup ⟨p⟩ = some w := by
    intro w hw
    rw [hitems, Catalog.jumps_map_mapItem] at hw
    obtain ⟨p, hp, rfl⟩ := List.mem_map.1 hw
    rcases resolvedWord_cases (by omega) (resolvable_of_writable hwrit p hp) with h | h
    · rw [hsplit, ← hB] at h
      exact Or.inl h
    · exact Or.inr ⟨p, hp, h⟩
  have hnear' : ∀ w ∈ game.catalog.jumps im.items,
      (∃ o ∈ boundaries game.catalog im.codeStart im.items, (o : Int) = jumpTarget w) → w.toNat < 0x4000 := by
    intro w hw hon
    rcases hcases w hw with h | ⟨p, hp, hv⟩
    · exact h.1
    · have hle : w.toNat ≤ 0x3FFF := UInt16.le_iff_toNat_le.1 (hnear p hp w hv (hB ▸ hon))
      omega
  have hmerge' : ∀ w ∈ game.catalog.jumps im.items, ∀ w' ∈ game.catalog.jumps im.items,
      jumpTarget w = jumpTarget w' →
      (¬ ∃ o ∈ boundaries game.catalog im.codeStart im.items, (o : Int) = jumpTarget w) → w = w' := by
    intro w hw w' hw' heq hoff
    rcases hcases w hw with h | ⟨p, hp, hv⟩
    · exact absurd h.2 hoff
    rcases hcases w' hw' with h' | ⟨q, hq, hv'⟩
    · obtain ⟨o, ho, hot⟩ := h'.2
      exact absurd ⟨o, ho, hot.trans heq.symm⟩ hoff
    · exact hmerge p hp q hq w w' hv hv' heq
  have hread : ∀ it ∈ im.items, game.catalog.ReadableItem it := by
    intro it hit
    rw [hitems] at hit
    obtain ⟨it0, hit0, rfl⟩ := List.mem_map.1 hit
    cases it0 with
    | data w => exact hdata w hit0
    | command c =>
      refine game.catalog.readableItem_mapItem _ ?_
      obtain ⟨g, hg, hgi⟩ := List.mem_flatMap.1 hit0
      obtain ⟨i, hi, hic⟩ := List.mem_flatMap.1 hgi
      exact (hwrit g hg i hi c (Instruction.command_mem_items.1 hic)).1
  have hdl : im.dataLen game.catalog < 131072 := by
    have := hfit.spans.scriptLen
    omega
  obtain ⟨C1, hC1⟩ : ∃ C1, Code.decode game.catalog (im.dataBlock game.catalog) im.codeStart = .ok C1 :=
    ⟨_, Image.decode_dataBlock game.catalog im hread⟩
  obtain ⟨targets', hplace', hgroups'⟩ := rewrite_arranged hread hdl hnear' hmerge' hC1 rfl
  have hlen : im.tables.length = im.region.languages.length := by
    rw [hreg]
    exact (exists_cons_of_regionTables htables).1
  have hstrings : PerLanguage.ofList (im.region.languages.zip im.tables) = s.strings := by
    rw [hreg]
    exact regionTables_ofList htables
  refine ⟨⟨(C1.arrange game.catalog (im.entries game.catalog) im.codeStart (im.dataLen game.catalog)).1,
    im.constants, PerLanguage.ofList (im.region.languages.zip im.tables),
    (C1.arrange game.catalog (im.entries game.catalog) im.codeStart (im.dataLen game.catalog)).2, im.unk1⟩,
    ?_, encode_of_image (image_of_parts hreg rfl rfl ?_ hsame hplace' hgroups') hfit⟩
  · rw [decode_bytes game im hreg hfit hlen hsame, hC1]
    rfl
  · rw [regionTables_congr hstrings]
    exact htables

/-- A script reading does not give: its label is numbered `7`, and its second jump goes to the
raw target `9`, far past the code. -/
def looseScript : Script :=
  ⟨[⟨5, 0, [.label ⟨7⟩, .data 0x20, .command ⟨1, [7]⟩, .command ⟨1, [9]⟩]⟩], [],
    PerLanguage.ofList [(.english, [[0x61]])], [(⟨9⟩, 0x0100)], 0⟩

/-- The bytes `looseScript` is written as. -/
def looseBytes : List UInt8 :=
  [0, 0, 1, 0, 10, 0, 0, 0, 2, 0, 0, 0, 10, 0, 1, 0, 5, 0, 5, 0, 0, 0, 32, 0, 1, 0, 5, 0, 1, 0, 0, 1, 2, 0,
    97, 0]

theorem encode_decode_encode_loose :
    Script.encode sampleGame looseScript = .ok looseBytes ∧
      ∃ s', Script.decode sampleGame looseBytes = .ok s' ∧ Script.encode sampleGame s' = .ok looseBytes := by
  have henc : Script.encode sampleGame looseScript = .ok looseBytes := by decide +kernel
  -- the one raw target is the word `0x0100`, which lands on byte `0x200`
  have hraw : ∀ (l : LabelId) (w : UInt16), looseScript.rawTargets.lookup l = some w → w = 0x0100 := by
    intro l w hw
    simp only [looseScript, List.lookup] at hw
    split at hw
    · exact (Option.some.inj hw).symm
    · cases hw
  refine ⟨henc, encode_decode_encode henc (fun w hw => ?_) (fun p _ w hw _ => ?_)
    (fun p _ q _ v w hv hw _ => (hraw _ v hv).trans (hraw _ w hw).symm)⟩
  · have hitems : looseScript.groups.flatMap Group.items =
        [.data 0x20, .command ⟨1, [7]⟩, .command ⟨1, [9]⟩] := rfl
    rw [hitems] at hw
    simp only [List.mem_cons, Item.data.injEq, reduceCtorEq, List.not_mem_nil, or_false] at hw
    rw [hw]
    decide
  · rw [hraw _ w hw]
    decide

end DungeonFormats.Script
