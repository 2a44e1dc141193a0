import Mathlib
import DungeonFormats.Proofs.Labels

/-!
# Reading a written script back

A script read from bytes and written again reads back as itself. Reading normalises: label ids
are numbered by first use, a jump target on no item becomes a raw target with the word it was
first read from, and folding and group membership follow the group table read. Writing places
every label before the instruction it marks, resolves each jump parameter to half its label's
offset or to its raw target's word, and lays the groups out one after another. The bytes written
then hold the same items at the same offsets, with jump words that point where the words read
pointed (`jumpTarget_resolvedWord`), so the reader meets the same targets in the same order; the
new group table ends each group where the first walk handed out its last item
(`placed_recut`), so the walk places the same instructions in the same groups; and the raw
targets keep their words (`resolvedWord_unplaced`).
-/

namespace DungeonFormats

theorem Cursor.length_of_times {β : Type} {read : Cursor → Except ReadFault (β × Cursor)} :
    ∀ {n : Nat} {c d : Cursor} {xs : List β}, c.times read n = .ok (xs, d) → xs.length = n
  | 0, _, _, _, h => by
    simp only [Cursor.times, Except.ok.injEq, Prod.mk.injEq] at h
    rw [← h.1]
    rfl
  | n + 1, c, d, xs, h => by
    rw [Cursor.times] at h
    obtain ⟨⟨x, c1⟩, -, h⟩ := Except.bind_eq_ok_iff.1 h
    obtain ⟨⟨xs', c2⟩, h2, h⟩ := Except.bind_eq_ok_iff.1 h
    cases h
    simp [Cursor.length_of_times h2]

namespace PerLanguage

variable {α : Type}

theorem ext_get {t t' : PerLanguage α} (h : ∀ l, t.get l = t'.get l) : t = t' := by
  cases t
  cases t'
  simp only [mk.injEq]
  exact ⟨h .english, h .french, h .german, h .italian, h .spanish, h .japanese⟩

/-- Setting each language of `ls` to `f` of it gives those languages their values and leaves
the others as they were. -/
theorem get_foldl_zip_map (f : Language → α) (l : Language) :
    ∀ (ls : List Language) (acc : PerLanguage α),
      ((ls.zip (ls.map f)).foldl (fun t p => t.set p.1 p.2) acc).get l =
        if l ∈ ls then some (f l) else acc.get l
  | [], acc => by simp
  | a :: ls, acc => by
    rw [List.map_cons, List.zip_cons_cons, List.foldl_cons, get_foldl_zip_map f l ls]
    by_cases hl : l ∈ ls
    · simp [hl]
    · by_cases ha : l = a
      · subst ha
        simp
      · simp [hl, ha, get_set_of_ne _ _ ha]

theorem forall₂_get_eq_some {t : PerLanguage α} {d : α} {ls : List Language} {vs : List α}
    (h : List.Forall₂ (fun l v => t.get l = some v) ls vs) :
    (∀ l ∈ ls, (t.get l).isSome) ∧ vs = ls.map fun l => (t.get l).getD d := by
  induction h with
  | nil => simp
  | cons hlv _ ih => exact ⟨by simpa [hlv] using ih.1, by simp [hlv, ih.2]⟩

end PerLanguage

namespace Script

/-! ## What reading and writing are made of -/

/-- The tables the writer takes for the region's languages, set again per language, are the
script's string tables: the script has a table for each language of the region and none
other. -/
theorem regionTables_ofList {s : Script} {r : Region} {tables : List (List (List UInt8))}
    (h : regionTables s r = .ok tables) : PerLanguage.ofList (r.languages.zip tables) = s.strings := by
  unfold regionTables at h
  split at h
  · cases h
  rename_i hkeys
  dsimp only at h
  -- each language of the region has its table
  have hget : List.Forall₂ (fun l t => s.strings.get l = some t) r.languages tables :=
    (Except.mapM_eq_ok_iff.1 h).imp fun {l t} hlt => by
      split at hlt
      · rename_i v hv
        simp only [pure, Except.pure, Except.ok.injEq] at hlt
        rw [hv, hlt]
      · simp [throw, throwThe, MonadExceptOf.throw] at hlt
  obtain ⟨hall, rfl⟩ := PerLanguage.forall₂_get_eq_some (d := []) hget
  have hmem : ∀ l : Language, l ∈ Language.all := fun l => by cases l <;> decide
  -- the keys are the region's languages: each of those is a key, and there are as many keys
  have hsub : r.languages ⊆ s.strings.keys := fun l hl =>
    List.mem_filter.2 ⟨hmem l, hall l hl⟩
  have hperm : r.languages.Perm s.strings.keys :=
    (List.subperm_of_subset (by cases r <;> decide) hsub).perm_of_length_le (by omega)
  refine PerLanguage.ext_get fun l => ?_
  rw [PerLanguage.ofList, PerLanguage.get_foldl_zip_map]
  split
  · rename_i hl
    obtain ⟨v, hv⟩ := Option.isSome_iff_exists.1 (hall l hl)
    simp [hv]
  · rename_i hl
    have hkey : l ∉ s.strings.keys := fun hk => hl (hperm.mem_iff.2 hk)
    have hnone : s.strings.get l = none := by
      simpa [PerLanguage.keys, hmem l] using hkey
    rw [hnone]
    cases l <;> rfl

/-- What a script read from bytes is made of: groups and raw targets arranged from the code of a
data block of at most `2 * 0xFFFF` bytes, over a group table of `entries`. -/
theorem decode_parts {game : Game} {data : List UInt8} {s : Script}
    (h : Script.decode game data = .ok s) :
    ∃ (entries : List GroupEntry) (block : List UInt8) (code : Code),
      block.length ≤ 2 * 0xFFFF ∧ Code.decode game.catalog block (4 + 6 * entries.length) = .ok code ∧
        code.arrange game.catalog entries (4 + 6 * entries.length) block.length = (s.groups, s.rawTargets) := by
  unfold Script.decode at h
  dsimp only at h
  obtain ⟨⟨hd, c1⟩, -, h1⟩ := Except.bind_eq_ok_iff.1 h
  obtain ⟨⟨dh, c2⟩, -, h2⟩ := Except.bind_eq_ok_iff.1 h1
  dsimp only at h2
  split at h2
  · simp [throw, throwThe, MonadExceptOf.throw, bind, Except.bind] at h2
  obtain ⟨⟨entries, c3⟩, hent, h3⟩ := Except.bind_eq_ok_iff.1 h2
  obtain ⟨c4, -, h4⟩ := Except.bind_eq_ok_iff.1 h3
  obtain ⟨⟨block, c5⟩, hblock, h5⟩ := Except.bind_eq_ok_iff.1 h4
  obtain ⟨consts, -, h6⟩ := Except.bind_eq_ok_iff.1 h5
  obtain ⟨strings, -, h7⟩ := Except.bind_eq_ok_iff.1 h6
  obtain ⟨code, hcode, h8⟩ := Except.bind_eq_ok_iff.1 h7
  simp only [pure, Except.pure, Except.ok.injEq] at h8
  subst h8
  have hcount := Cursor.length_of_times (Except.mapError_eq_ok_iff.1 hent)
  obtain ⟨hle, hb, -, -⟩ := Cursor.take_eq_ok_iff.1 (Except.mapError_eq_ok_iff.1 hblock)
  -- the block is as long as its head says
  have hlen : block.length = 2 * dh.dataLen.toNat := by
    rw [hb, List.length_take, Cursor.length_rest]
    omega
  refine ⟨entries, block, code, ?_, ?_, ?_⟩
  · have := dh.dataLen.toNat_lt
    omega
  · rw [hcount]
    exact hcode
  · rw [hcount, hlen]

/-- What the image of a script is made of: the script's constants and spare word, its tables in
the region's order, all of one length, and its groups resolved against the offsets its labels
are placed at. -/
theorem image_parts {game : Game} {s : Script} {im : Image} (h : Script.image game s = .ok im) :
    im.region = game.region ∧ im.constants = s.constants ∧ im.unk1 = s.unk1 ∧
      regionTables s game.region = .ok im.tables ∧ (∀ t ∈ im.tables, t.length = im.stringCount) ∧
      ∃ targets, placeLabels game.catalog s.rawTargets (s.groups.flatMap (·.instructions))
          (4 + 6 * s.groups.length) [] = .ok targets ∧
        s.groups.mapM (resolveGroup game.catalog targets s.rawTargets) = .ok im.groups := by
  unfold Script.image at h
  obtain ⟨tables, hr, h⟩ := Except.bind_eq_ok_iff.1 h
  obtain ⟨-, t, ts, rfl⟩ := exists_cons_of_regionTables hr
  simp only [bind, Except.bind] at h
  split at h
  · cases h
  rename_i hsame
  split at h; · cases h
  rename_i targets hp
  split at h; · cases h
  rename_i codes hcodes
  cases h
  refine ⟨rfl, rfl, rfl, hr, fun u hu => ?_, targets, hp, hcodes⟩
  simp only [List.any_eq_true, decide_eq_true_eq, not_exists, not_and, not_not] at hsame
  exact hsame u hu

/-! ## Items, their jumps and their sizes -/

namespace Catalog

variable (cat : Catalog)

theorem jumps_map_mapItem (f : UInt16 → UInt16) (items : List Item) :
    cat.jumps (items.map (cat.mapItem f)) = (cat.jumps items).map f := by
  simp [jumps, List.flatMap_map, itemJumps_mapItem, List.map_flatMap]

theorem readableItem_mapItem (f : UInt16 → UInt16) {it : Item} (h : cat.ReadableItem it) :
    cat.ReadableItem (cat.mapItem f it) := by
  cases it with
  | data w => exact h
  | command c =>
    obtain ⟨info, hinfo, harity⟩ := h
    show cat.ReadableItem (.command (cat.mapCommand f c))
    refine ⟨info, by simpa using hinfo, ?_⟩
    unfold checkArity at harity ⊢
    rw [length_mapCommand_params]
    exact harity

theorem length_jumpParams_le (info : OpcodeInfo) :
    ∀ (i : Nat) (ps : List UInt16), (jumpParams info i ps).length ≤ ps.length
  | _, [] => le_rfl
  | i, _ :: ps => by
    have := length_jumpParams_le info (i + 1) ps
    simp only [jumpParams, List.length_append, List.length_cons]
    split <;> simp <;> omega

/-- Every jump parameter takes a word of its own. -/
theorem length_jumps_le (items : List Item) : 2 * (cat.jumps items).length ≤ cat.itemsSize items := by
  induction items with
  | nil => simp
  | cons it items ih =>
    have hit : 2 * (cat.itemJumps it).length ≤ cat.itemSize it := by
      cases it with
      | data w => simp [itemJumps]
      | command c =>
        simp only [itemJumps, commandJumps, itemSize, commandSize]
        split
        · rename_i info _
          have := length_jumpParams_le info 0 c.params
          omega
        · simp
    simp only [jumps_cons, List.length_append, itemsSize]
    omega

end Catalog

/-- Labels a script's groups can be written with: the jump parameters of all its items. -/
theorem resolvable_of_writable {cat : Catalog} {targets : List (LabelId × Nat)}
    {raw : List (LabelId × UInt16)} {gs : List Group}
    (h : ∀ g ∈ gs, ∀ i ∈ g.instructions, Writable cat targets raw i) :
    ∀ p ∈ cat.jumps (gs.flatMap Group.items), Resolvable targets raw p := by
  intro p hp
  obtain ⟨it, hit, hp⟩ := List.mem_flatMap.1 hp
  obtain ⟨g, hg, hit⟩ := List.mem_flatMap.1 hit
  obtain ⟨i, hi, hit⟩ := List.mem_flatMap.1 hit
  -- a jump sits in a command of the instruction
  obtain ⟨c, hc, rfl⟩ : ∃ c ∈ i.commands, it = .command c := by
    cases i
    case data w =>
      simp only [Instruction.items, List.mem_singleton] at hit
      subst hit
      simp [Catalog.itemJumps] at hp
    all_goals
      obtain ⟨c, hc, he⟩ := List.mem_map.1 hit
      exact ⟨c, hc, he.symm⟩
  exact (h g hg i hi c hc).2 p hp

/-! ## The data block of an image -/

namespace Image

variable (cat : Catalog) (im : Image)

theorem drop_codeStart_dataBlock : (im.dataBlock cat).drop im.codeStart = cat.codeBytes im.items := by
  unfold dataBlock
  exact List.drop_left' (by simp [groupTable, codeStart, length_groupStarts]; omega)

/-- The data block of an image whose items read back as themselves decodes as its items,
relabelled in the table of their own jumps. -/
theorem decode_dataBlock (hread : ∀ it ∈ im.items, cat.ReadableItem it) :
    Code.decode cat (im.dataBlock cat) im.codeStart =
      .ok ⟨im.items.map (cat.mapItem (LabelTable.empty.noteAll (cat.jumps im.items)).labelOf),
        LabelTable.empty.noteAll (cat.jumps im.items)⟩ := by
  unfold Code.decode
  rw [if_pos (by rw [length_dataBlock]; simp [dataLen]), drop_codeStart_dataBlock,
    decodeItems_codeBytes cat _ hread]

theorem getElem_groupStarts :
    ∀ (n : Nat) (gs : List GroupCode) (i : Nat) (h : i < (groupStarts cat n gs).length),
      (groupStarts cat n gs)[i] = n + cat.itemsSize ((gs.take i).flatMap (·.items))
  | _, [], _, h => by simp [groupStarts] at h
  | n, g :: gs, 0, _ => by simp [groupStarts, Catalog.itemsSize]
  | n, g :: gs, i + 1, h => by
    simp only [groupStarts, List.getElem_cons_succ]
    rw [getElem_groupStarts]
    simp only [List.take_succ_cons, List.flatMap_cons, itemsSize_append]
    omega

/-- The group table of an image ends each group but the last where the items of the groups up
to it end. -/
theorem getD_groupEnds_entries (hdl : im.dataLen cat < 131072) {j : Nat} (hj : j + 1 < im.groups.length) :
    (groupEnds (im.entries cat) (im.dataLen cat)).getD j 0 =
      im.codeStart + cat.itemsSize ((im.groups.take (j + 1)).flatMap (·.items)) := by
  have hstarts := length_groupStarts cat im.codeStart im.groups
  have hcs : im.codeStart = 4 + 6 * im.groups.length := rfl
  have hsplit := congrArg cat.itemsSize (congrArg (List.flatMap (·.items)) (List.take_append_drop (j + 1) im.groups))
  have heven := itemsSize_even cat ((im.groups.take (j + 1)).flatMap (·.items))
  simp only [List.flatMap_append, itemsSize_append] at hsplit
  simp only [dataLen, items] at hdl
  unfold groupEnds entries
  rw [List.getD_eq_getElem _ _ (by simp [hstarts]; omega), List.getElem_append_left (by simp [hstarts]; omega)]
  simp only [List.getElem_map, List.getElem_drop, List.getElem_zip]
  rw [getElem_groupStarts, Nat.add_comm 1 j, toNat_toUInt16_of_lt (by omega)]
  omega

end Image

/-! ## Codes as read -/

/-- A code that is the items `X` relabelled: every jump parameter replaced by the index of its
target among the targets of `X` in the order they are first met, each item one that reads back
as itself. -/
structure Code.Relabels (cat : Catalog) (code : Code) (X : List Item) : Prop where
  readable : ∀ it ∈ X, cat.ReadableItem it
  items : code.items = X.map (cat.mapItem code.labels.labelOf)
  labels : code.labels = LabelTable.empty.noteAll (cat.jumps X)

section Relabels

variable {cat : Catalog} {code : Code} {X : List Item}

theorem Code.Relabels.sound (h : code.Relabels cat X) : code.labels.Sound :=
  h.labels ▸ LabelTable.sound_empty.noteAll _

/-- A code decoded from a block relabels items that lie within the block past the start. -/
theorem Code.decode_relabels {block : List UInt8} {start : Nat} (h : Code.decode cat block start = .ok code) :
    ∃ X, code.Relabels cat X ∧ start + cat.itemsSize X ≤ block.length := by
  unfold Code.decode at h
  split at h
  · rename_i hstart
    split at h
    · rename_i items labels hitems
      cases h
      obtain ⟨X, hX, hsize, rfl, rfl⟩ := decodeItems_relabels cat hitems
      refine ⟨X, ⟨hX, rfl, rfl⟩, ?_⟩
      simp only [List.length_drop] at hsize
      omega
    · cases h
  · cases h

/-- A code read from a block of at most `2 * 0xFFFF` bytes has fewer than `65536` targets: each
takes a jump word. -/
theorem Code.Relabels.length_targets_le (h : code.Relabels cat X) {start n : Nat}
    (hsize : start + cat.itemsSize X ≤ n) (hn : n ≤ 2 * 0xFFFF) : code.labels.targets.length ≤ 65536 := by
  have h1 := LabelTable.length_noteAll_le LabelTable.empty (cat.jumps X)
  have h2 := cat.length_jumps_le X
  rw [show LabelTable.empty.targets.length = 0 from rfl, Nat.zero_add] at h1
  rw [h.labels]
  omega

/-- The labels of a code with every jump parameter replaced by `f`, where the words `f` gives
point where the words read did, are the code's own targets with those words. -/
theorem Code.Relabels.noteAll_map (h : code.Relabels cat X) {f : UInt16 → UInt16}
    (hf : ∀ w ∈ cat.jumps X, jumpTarget (f (code.labels.labelOf w)) = jumpTarget w) :
    LabelTable.empty.noteAll (cat.jumps (code.items.map (cat.mapItem f))) =
      code.labels.mapWords (f ∘ code.labels.labelOf) := by
  have hitems : code.items.map (cat.mapItem f) = X.map (cat.mapItem (f ∘ code.labels.labelOf)) := by
    rw [h.items, List.map_map]
    exact List.map_congr_left fun it _ => cat.mapItem_mapItem _ _ it
  calc LabelTable.empty.noteAll (cat.jumps (code.items.map (cat.mapItem f)))
      _ = (LabelTable.empty.mapWords (f ∘ code.labels.labelOf)).noteAll
          ((cat.jumps X).map (f ∘ code.labels.labelOf)) := by
        rw [hitems, Catalog.jumps_map_mapItem]
        rfl
      _ = (LabelTable.empty.noteAll (cat.jumps X)).mapWords (f ∘ code.labels.labelOf) :=
        LabelTable.noteAll_map _ _ _ hf
      _ = code.labels.mapWords (f ∘ code.labels.labelOf) := by rw [← h.labels]

/-- Relabelling again, after every jump parameter is replaced by a word pointing where it
pointed, gives the code's items back. -/
theorem Code.Relabels.relabel_map (h : code.Relabels cat X) {f g : UInt16 → UInt16}
    (hf : ∀ w ∈ cat.jumps X, jumpTarget (f (code.labels.labelOf w)) = jumpTarget w) :
    (code.items.map (cat.mapItem f)).map (cat.mapItem (code.labels.mapWords g).labelOf) = code.items := by
  rw [LabelTable.labelOf_mapWords, h.items, List.map_map, List.map_map]
  refine List.map_congr_left fun it hit => ?_
  simp only [Function.comp_apply, Catalog.mapItem_mapItem]
  refine cat.mapItem_congr _ _ it fun w hw => ?_
  have hj : w ∈ cat.jumps X := List.mem_flatMap.2 ⟨it, hit, hw⟩
  show ((code.labels.idOf? (jumpTarget (f (code.labels.labelOf w)))).getD 0).toUInt16 =
    code.labels.labelOf w
  rw [hf w hj]
  rfl

end Relabels

/-! ## Groups as written -/

theorem flatMap_items_resolved (cat : Catalog) (f : UInt16 → UInt16) (gs : List Group) :
    (gs.map fun g => (⟨g.kind, g.unk2, g.items.map (cat.mapItem f)⟩ : GroupCode)).flatMap (·.items) =
      (gs.flatMap Group.items).map (cat.mapItem f) := by
  simp [List.flatMap_map, List.map_flatMap]

theorem headers_groupsOf (entries : List GroupEntry) (placed : List (Nat × Instruction)) :
    (groupsOf entries placed).map (fun g => (g.kind, g.unk2)) = entries.map (fun e => (e.kind, e.unk2)) := by
  calc (groupsOf entries placed).map (fun g => (g.kind, g.unk2))
      _ = (entries.zipIdx.map Prod.fst).map (fun e => (e.kind, e.unk2)) := by
        rw [groupsOf, List.map_map, List.map_map]
        rfl
      _ = entries.map (fun e => (e.kind, e.unk2)) := by rw [List.zipIdx_map_fst]

/-- The group table of an image holds the header words of its groups. -/
theorem Image.headers_entries (cat : Catalog) (im : Image) :
    (im.entries cat).map (fun e => (e.kind, e.unk2)) = im.groups.map (fun g => (g.kind, g.unk2)) := by
  have hfst := @List.map_fst_zip _ _ im.groups (groupStarts cat im.codeStart im.groups)
    (by rw [length_groupStarts])
  calc (im.entries cat).map (fun e => (e.kind, e.unk2))
      _ = ((im.groups.zip (groupStarts cat im.codeStart im.groups)).map Prod.fst).map
          (fun g => (g.kind, g.unk2)) := by
        simp [Image.entries, List.map_map, Function.comp_def]
      _ = im.groups.map (fun g => (g.kind, g.unk2)) := by rw [hfst]

/-! ## Arranging what was written -/

section Reread

variable {cat : Catalog} {targets : List (LabelId × Nat)}

/-- The jump words written for a code read from bytes point where the words read did, where each
label written is placed before the instruction at its target or is kept raw with its first
word. -/
theorem Code.Relabels.jumpTarget_written {code : Code} {X : List Item} {placed : List LabelId}
    (h : code.Relabels cat X) (hn : code.labels.targets.length ≤ 65536)
    (htargets : ∀ p ∈ targets, code.labels.at? p.2 = some p.1)
    (hres : ∀ p ∈ cat.jumps code.items, Resolvable targets (code.labels.unplaced placed) p) :
    ∀ w ∈ cat.jumps X,
      jumpTarget (resolvedWord targets (code.labels.unplaced placed) (code.labels.labelOf w)) = jumpTarget w := by
  intro w hw
  refine jumpTarget_resolvedWord h.sound hn (fun l o hl => htargets _ (mem_of_lookup_eq_some hl))
    (fun l v hl => LabelTable.lookup_unplaced hl)
    (by rw [h.labels]; exact LabelTable.isSome_idOf?_noteAll _ hw) (hres _ ?_)
  rw [h.items, Catalog.jumps_map_mapItem]
  exact List.mem_map_of_mem hw

/-- The group table written ends each group but the last where the walk that made the groups
handed out the last item of it. -/
theorem groupEnds_written {entries : List GroupEntry} {P : List (Nat × Instruction)} {f : UInt16 → UInt16}
    {im : Image} (hs : P.Pairwise (·.1 ≤ ·.1)) (hb : ∀ p ∈ P, p.1 < entries.length)
    (hcodes : im.groups = (groupsOf entries P).map fun g => ⟨g.kind, g.unk2, g.items.map (cat.mapItem f)⟩)
    (hdl : im.dataLen cat < 131072) {j : Nat} (hj : j + 1 < entries.length) :
    (groupEnds (im.entries cat) (im.dataLen cat)).getD j 0 = cutAt cat im.codeStart P j := by
  have hlen : im.groups.length = entries.length := by simp [hcodes, groupsOf]
  rw [Image.getD_groupEnds_entries cat im hdl (by omega), hcodes, ← List.map_take, flatMap_items_resolved,
    Catalog.itemsSize_map_mapItem, items_take_groupsOf entries P hs hb j]
  rfl

/-- Without groups, nothing is written and nothing is read back. -/
theorem arrange_reread_nil {C0 : Code} {start dataLen : Nat} {groups : List Group}
    {raw : List (LabelId × UInt16)} {im : Image} (harr : C0.arrange cat [] start dataLen = (groups, raw))
    (hgroups : groups.mapM (resolveGroup cat targets raw) = .ok im.groups) :
    ∃ C1, Code.decode cat (im.dataBlock cat) im.codeStart = .ok C1 ∧
      C1.arrange cat (im.entries cat) im.codeStart (im.dataLen cat) = (groups, raw) := by
  simp only [Code.arrange, List.isEmpty_nil, if_true, Prod.mk.injEq] at harr
  obtain ⟨rfl, rfl⟩ := harr
  have hnil : im.groups = [] := by
    simp only [List.mapM_nil, pure, Except.pure, Except.ok.injEq] at hgroups
    exact hgroups.symm
  refine ⟨_, Image.decode_dataBlock cat im (by simp [Image.items, hnil]), ?_⟩
  simp [Code.arrange, Image.entries, hnil]

/-- Groups and raw targets arranged from a code read from bytes, written, read back and arranged
over the group table written, are the same groups and raw targets. -/
theorem arrange_reread {C0 : Code} {block : List UInt8} {entries : List GroupEntry} {groups : List Group}
    {raw : List (LabelId × UInt16)} {im : Image} (hdl : block.length ≤ 2 * 0xFFFF)
    (hcode : Code.decode cat block (4 + 6 * entries.length) = .ok C0)
    (harr : C0.arrange cat entries (4 + 6 * entries.length) block.length = (groups, raw))
    (hplace : placeLabels cat raw (groups.flatMap (·.instructions)) (4 + 6 * groups.length) [] = .ok targets)
    (hgroups : groups.mapM (resolveGroup cat targets raw) = .ok im.groups) :
    ∃ C1, Code.decode cat (im.dataBlock cat) im.codeStart = .ok C1 ∧
      C1.arrange cat (im.entries cat) im.codeStart (im.dataLen cat) = (groups, raw) := by
  by_cases hne : entries = []
  · subst hne
    exact arrange_reread_nil harr hgroups
  generalize hcs : 4 + 6 * entries.length = cs at hcode harr
  obtain ⟨X, hX, hsize⟩ := Code.decode_relabels hcode
  have hn := hX.length_targets_le hsize hdl
  -- what was read: the walk's instructions split by group, the other targets raw
  rw [Code.arrange_eq C0 cat hne, Prod.mk.injEq] at harr
  obtain ⟨rfl, rfl⟩ := harr
  obtain ⟨hsorted, hbelow⟩ := placed_sorted cat C0 hne cs block.length
  have hat := labelOffsets_placed cat C0 entries cs block.length
  have hitems := placed_items cat C0 entries cs block.length
  generalize hP : C0.placed cat entries cs block.length = P at hsorted hbelow hat hitems hplace hgroups ⊢
  have hlenG : (groupsOf entries P).length = entries.length := by simp [groupsOf]
  have hitemsG : (groupsOf entries P).flatMap Group.items = C0.items := by
    rw [groupsOf, List.flatMap_map, flatMap_items_groups entries P hsorted hbelow, hitems]
  -- what was written: the labels placed, the jump words resolved
  rw [instructions_groupsOf entries P hsorted hbelow, hlenG, hcs] at hplace
  obtain ⟨-, -, htargets⟩ := (placeLabels_eq_ok_iff cat _ _ _ _ _).1 hplace
  rw [List.append_nil] at htargets
  subst htargets
  obtain ⟨hwrit, hcodes⟩ := (mapM_resolveGroup_eq_ok_iff cat _ _ _ _).1 hgroups
  generalize hW : resolvedWord (labelOffsets cat cs (P.map (·.2))).reverse
    (C0.labels.unplaced (labelsOf (P.map (·.2)))) = W at hcodes
  have hK := hX.jumpTarget_written hn (fun p hp => hat p (List.mem_reverse.1 hp))
    (hitemsG ▸ resolvable_of_writable hwrit)
  rw [hW] at hK
  have hwritten : im.items = C0.items.map (cat.mapItem W) := by
    rw [Image.items, hcodes, flatMap_items_resolved, hitemsG]
  have hcs1 : im.codeStart = cs := by simp [Image.codeStart, hcodes, hlenG, ← hcs]
  have hdl1 : im.dataLen cat = cs + cat.itemsSize C0.items := by
    rw [Image.dataLen, hcs1, hwritten, Catalog.itemsSize_map_mapItem]
  have hsizeX : cat.itemsSize C0.items = cat.itemsSize X := by
    rw [hX.items, Catalog.itemsSize_map_mapItem]
  have hend : endOffset cat cs C0.items ≤ block.length := by
    rw [endOffset, hsizeX]
    omega
  have hlenE : (im.entries cat).length = entries.length := by
    simp [Image.entries, length_groupStarts, hcodes, hlenG]
  have hneE : im.entries cat ≠ [] := fun h => hne (List.length_eq_zero_iff.1 (hlenE ▸ h ▸ rfl))
  have hread : ∀ it ∈ im.items, cat.ReadableItem it := by
    rw [hwritten, hX.items, List.map_map]
    intro it hit
    obtain ⟨x, hx, rfl⟩ := List.mem_map.1 hit
    exact cat.readableItem_mapItem _ (cat.readableItem_mapItem _ (hX.readable x hx))
  -- what is read back: the same items, the same targets with the words written
  refine ⟨_, Image.decode_dataBlock cat im hread, ?_⟩
  rw [hwritten, hX.noteAll_map hK, hX.relabel_map hK, Code.arrange_eq _ cat hneE, hcs1]
  have hplaced : Code.placed ⟨C0.items, C0.labels.mapWords (W ∘ C0.labels.labelOf)⟩
      cat (im.entries cat) cs (im.dataLen cat) = P := by
    rw [← hP]
    refine placed_recut cat hne hlenE rfl (by funext o; simp [LabelTable.at?]) (fun j hj => ?_) hend
      (by rw [hdl1]; exact le_rfl)
    rw [hP, ← hcs1]
    exact groupEnds_written hsorted hbelow hcodes (by rw [hdl1, hsizeX]; omega) hj
  have hheaders : (im.entries cat).map (fun e => (e.kind, e.unk2)) = entries.map (fun e => (e.kind, e.unk2)) := by
    rw [Image.headers_entries, hcodes, List.map_map]
    exact headers_groupsOf entries P
  rw [hplaced, groupsOf_congr hheaders P]
  -- the raw targets keep the words they were read from
  rw [unplaced_mapWords C0.labels _ _ fun i hi hnot => ?_]
  rw [← hW]
  refine resolvedWord_unplaced hX.sound hn (fun l o hl => ?_) hi hnot
  have hmem := List.mem_reverse.1 (mem_of_lookup_eq_some hl)
  rw [labelsOf_eq_labelOffsets cat cs]
  exact List.mem_map_of_mem hmem

end Reread

/-! ## Reading a written script back -/

/-- A script read from bytes, written and read again, is the script read: the same groups with
the same instructions, labels and folding, the same raw targets, constants, string tables and
spare word. -/
theorem decode_encode_decode {game : Game} {b b' : List UInt8} {s : Script}
    (hdec : Script.decode game b = .ok s) (henc : Script.encode game s = .ok b') :
    Script.decode game b' = .ok s := by
  obtain ⟨entries, block, C0, hdl, hcode, harr⟩ := decode_parts hdec
  obtain ⟨im, him, hfit, rfl⟩ := image_of_encode henc
  obtain ⟨hreg, hconst, hunk, htables, hsame, targets, hplace, hgroups⟩ := image_parts him
  obtain ⟨C1, hC1, harr1⟩ := arrange_reread hdl hcode harr hplace hgroups
  have hlen : im.tables.length = im.region.languages.length := by
    rw [hreg]
    exact (exists_cons_of_regionTables htables).1
  rw [decode_bytes game im hreg hfit hlen hsame, hC1]
  simp only [Except.map, harr1, hreg, regionTables_ofList htables, hconst, hunk]

/-- A North American game whose catalog knows one opcode: a jump with one parameter. -/
def sampleGame : Game :=
  ⟨.northAmerica, .sky, ⟨.sky, 16, [(1, ⟨"Jump", .fixed 1, [.instructionOffset], .other⟩)], by decide⟩, rfl⟩

/-- One group: a label, a data word and a jump back to the label. -/
def sampleScript : Script :=
  ⟨[⟨5, 0, [.label ⟨0⟩, .data 0x20, .command ⟨1, [0]⟩]⟩], [], PerLanguage.ofList [(.english, [[0x61]])], [], 0⟩

/-- The bytes `sampleScript` is written as. -/
def sampleBytes : List UInt8 :=
  [0, 0, 1, 0, 8, 0, 0, 0, 2, 0, 0, 0, 8, 0, 1, 0, 5, 0, 5, 0, 0, 0, 32, 0, 1, 0, 5, 0, 2, 0, 97, 0]

theorem decode_encode_decode_sample :
    Script.decode sampleGame sampleBytes = .ok sampleScript ∧
      Script.encode sampleGame sampleScript = .ok sampleBytes ∧
      Script.decode sampleGame sampleBytes = .ok sampleScript :=
  have hdec : Script.decode sampleGame sampleBytes = .ok sampleScript := by decide +kernel
  have henc : Script.encode sampleGame sampleScript = .ok sampleBytes := by decide +kernel
  ⟨hdec, henc, decode_encode_decode hdec henc⟩

end Script

end DungeonFormats
