import Mathlib
import DungeonFormats.Proofs.Rewriting

/-!
# How reading numbers jump targets

Reading a data block names each jump parameter by a label for its target, the byte offset its
word points to. That is a raw reading of the items, jump words as they stand on disk, followed
by a renaming of every jump word by the index of its target in the table of targets noted in
order (`decodeItems_eq_rawItems`). A jump word points to one of `32768` even offsets, so the
table, which holds each target once, has at most `32768` targets (`LabelTable.Sound.length_le`)
and its indices never wrap as labels. Hence two jump words get one label exactly when they
point to one offset, the labels in the order of their first use count up from `0`, the table
holds the targets of the jumps read and nothing else, and each target keeps the word of its
first use (`decode_labels_by_first_use`).
-/

namespace DungeonFormats.Script

/-! ## Reading without naming targets -/

/-- The items of `bs`, which starts at offset `pos` of the data block, each jump parameter
holding the word written for it: what `decodeItems` reads before it names targets. -/
def rawItems (cat : Catalog) (pos : Nat) (bs : List UInt8) : Except DecodeError (List Item) :=
  match bs with
  | a :: b :: r =>
    let w := wordOf a b
    if cat.count ≤ w then (Item.data w :: ·) <$> rawItems cat (pos + 2) r
    else
      match cat.info w with
      | none => .error (.unknownOpcode w pos)
      | some info =>
        match paramWords info r with
        | none => .ok []
        | some (ws, k) => (Item.command ⟨w, ws⟩ :: ·) <$> rawItems cat (pos + 2 + k) (r.drop k)
  | _ => .ok []
termination_by bs.length
decreasing_by
  all_goals simp only [List.length_cons, List.length_drop]
  all_goals omega

/-- Reading names targets after the fact: it gives the raw items with each jump word replaced by
the index of its target among the targets of all the jump words, noted in order. -/
theorem decodeItems_eq_rawItems (cat : Catalog) (pos : Nat) (bs : List UInt8) (t : LabelTable) :
    decodeItems cat pos bs t = (rawItems cat pos bs).map fun X =>
      (X.map (cat.mapItem (t.noteAll (cat.jumps X)).labelOf), t.noteAll (cat.jumps X)) := by
  fun_induction rawItems cat pos bs generalizing t with
  | case1 pos a b r w hw ih =>
    rw [decodeItems.eq_1, if_pos hw, ih]
    cases rawItems cat (pos + 2) r <;>
      simp [w, Functor.map, Except.map, Catalog.mapItem, Catalog.itemJumps]
  | case2 pos a b r w hw hinfo =>
    rw [decodeItems.eq_1, if_neg hw]
    simp only [w] at hinfo
    simp [w, hinfo, Except.map]
  | case3 pos a b r w hw info hinfo hparams =>
    rw [decodeItems.eq_1, if_neg hw]
    simp only [w] at hinfo
    simp [hinfo, hparams, Except.map]
  | case4 pos a b r w hw info hinfo ws k hparams ih =>
    rw [decodeItems.eq_1, if_neg hw]
    simp only [w] at hinfo
    simp only [hinfo, hparams, labelJumps_eq, ih]
    cases rawItems cat (pos + 2 + k) (r.drop k) <;>
      simp [w, Functor.map, Except.map, Catalog.mapItem, Catalog.mapCommand, Catalog.itemJumps,
        Catalog.commandJumps, hinfo, LabelTable.noteAll_append, mapParams_labelOf_noteAll]
  | case5 pos bs hshort =>
    rw [decodeItems.eq_2 _ _ _ _ hshort]
    rfl

/-! ## The table of targets -/

/-- Values of parameter words lie at or above `-0x4000`: dividing by `256` towards zero moves a
value towards zero. -/
theorem neg_le_paramValue (w : UInt16) : -0x4000 ≤ paramValue w := by
  unfold paramValue
  dsimp only
  generalize hv : (((w.toNat % 0x8000 : Nat) : Int).bmod 0x8000) = v
  have hle : -0x4000 ≤ v := hv ▸ Int.le_bmod (by decide)
  split
  · by_cases h : 0 ≤ v
    · have := Int.tdiv_nonneg (a := v) (b := 256) h (by decide)
      omega
    · have h1 : (-v).tdiv 256 = -(v.tdiv 256) := Int.neg_tdiv v 256
      have h2 := Int.tdiv_le_self 256 (a := -v) (by omega)
      omega
  · exact hle

namespace LabelTable

/-- A sound table holds at most `32768` targets: each is twice the value of its word, and those
values lie in `[-0x4000, 0x4000)`. -/
theorem Sound.length_le {t : LabelTable} (ht : t.Sound) : t.targets.length ≤ 32768 := by
  have hvalues : (t.targets.map fun p => paramValue p.2).Nodup := by
    have htwice : t.targets.map (·.1) = (t.targets.map fun p => paramValue p.2).map (2 * ·) := by
      rw [List.map_map]
      exact List.map_congr_left fun p hp => by simpa [jumpTarget] using ht.target_word p hp
    exact List.Nodup.of_map (2 * ·) (htwice ▸ ht.nodup)
  have hsub : (t.targets.map fun p => paramValue p.2).toFinset ⊆ Finset.Ico (-0x4000) 0x4000 := by
    intro v hv
    obtain ⟨p, -, rfl⟩ := List.mem_map.1 (List.mem_toFinset.1 hv)
    exact Finset.mem_Ico.2 ⟨neg_le_paramValue p.2, paramValue_lt p.2⟩
  calc t.targets.length
      _ = (t.targets.map fun p => paramValue p.2).toFinset.card := by
        rw [List.toFinset_card_of_nodup hvalues, List.length_map]
      _ ≤ (Finset.Ico (-0x4000 : Int) 0x4000).card := Finset.card_le_card hsub
      _ = 32768 := by simp

section Sound

variable {t : LabelTable}

/-- The label of a jump word in a sound table is the index of its target, which never wraps. -/
theorem Sound.toNat_labelOf (ht : t.Sound) {w : UInt16} {i : Nat} (h : t.idOf? (jumpTarget w) = some i) :
    (t.labelOf w).toNat = i := by
  have hlt := (ht.idOf?_eq_some_iff.1 h).1
  have := ht.length_le
  rw [labelOf_eq h, toNat_toUInt16_of_lt (by omega)]

/-- Two jump words whose targets a sound table holds get one label exactly when they point to one
offset. -/
theorem Sound.labelOf_eq_iff (ht : t.Sound) {w w' : UInt16} (hw : (t.idOf? (jumpTarget w)).isSome)
    (hw' : (t.idOf? (jumpTarget w')).isSome) :
    t.labelOf w = t.labelOf w' ↔ jumpTarget w = jumpTarget w' := by
  obtain ⟨i, hi⟩ := Option.isSome_iff_exists.1 hw
  obtain ⟨i', hi'⟩ := Option.isSome_iff_exists.1 hw'
  constructor
  · intro h
    -- one label, so one index, so one target
    have hii' : i = i' := by rw [← ht.toNat_labelOf hi, ← ht.toNat_labelOf hi', h]
    subst hii'
    obtain ⟨_, ho⟩ := ht.idOf?_eq_some_iff.1 hi
    obtain ⟨_, ho'⟩ := ht.idOf?_eq_some_iff.1 hi'
    exact ho.symm.trans ho'
  · intro h
    simp [labelOf, h]

end Sound

/-- The table noted from jump words holds the targets of those words and no other. -/
theorem isSome_idOf?_noteAll_iff {ws : List UInt16} {o : Int} :
    ((empty.noteAll ws).idOf? o).isSome ↔ ∃ w ∈ ws, jumpTarget w = o := by
  constructor
  · intro h
    obtain ⟨i, hi⟩ := Option.isSome_iff_exists.1 h
    have ht := sound_empty.noteAll ws
    obtain ⟨hlt, ho⟩ := ht.idOf?_eq_some_iff.1 hi
    have hmem := List.getElem_mem hlt
    rcases mem_targets_noteAll hmem with hnil | hw
    · simp [empty] at hnil
    · exact ⟨_, hw, (ht.target_word _ hmem).symm.trans ho⟩
  · rintro ⟨w, hw, rfl⟩
    exact empty.isSome_idOf?_noteAll hw

/-- Noting a word whose target is already there changes nothing. -/
theorem note_of_isSome {t : LabelTable} {o : Int} {w : UInt16} (h : (t.idOf? o).isSome) :
    (t.note o w).1 = t := by
  obtain ⟨i, hi⟩ := Option.isSome_iff_exists.1 h
  simp [note, hi]

/-- Noting a word whose target is new appends the target with that word. -/
theorem note_of_idOf?_eq_none {t : LabelTable} {o : Int} {w : UInt16} (h : t.idOf? o = none) :
    (t.note o w).1 = ⟨t.targets ++ [(o, w)]⟩ := by
  simp [note, h]

/-- A new target takes the next index. -/
theorem idOf?_note_of_eq_none {t : LabelTable} {o : Int} {w : UInt16} (h : t.idOf? o = none) :
    (t.note o w).1.idOf? o = some t.targets.length := by
  have hnone : t.targets.findIdx? (·.1 == o) = none := h
  rw [note_of_idOf?_eq_none h]
  simp [idOf?, List.findIdx?_append, hnone]

/-- A target first met at the word `w` keeps `w` as its word. -/
theorem wordOf?_labelOf_of_first {pre post : List UInt16} {w : UInt16}
    (hfirst : ∀ v ∈ pre, jumpTarget v ≠ jumpTarget w) :
    (empty.noteAll (pre ++ w :: post)).wordOf? ⟨(empty.noteAll (pre ++ w :: post)).labelOf w⟩ =
      some w := by
  have ht := sound_empty.noteAll (pre ++ w :: post)
  have hnew : (empty.noteAll pre).idOf? (jumpTarget w) = none := by
    rw [← Option.not_isSome_iff_eq_none, isSome_idOf?_noteAll_iff]
    rintro ⟨v, hv, hvw⟩
    exact hfirst v hv hvw
  -- `w` adds its target at the end of the table of the words before it, and later words only
  -- add more
  have hT : empty.noteAll (pre ++ w :: post) = ((empty.noteAll pre).note (jumpTarget w) w).1.noteAll post := by
    rw [noteAll_append, noteAll_cons]
  obtain ⟨more, hmore⟩ := ((empty.noteAll pre).note (jumpTarget w) w).1.exists_targets_noteAll post
  rw [targets_note, hnew] at hmore
  simp only [Option.isSome_none, Bool.false_eq_true, if_false] at hmore
  have hlen := ht.length_le
  rw [hT, hmore] at hlen
  simp only [List.length_append, List.length_singleton] at hlen
  rw [hT, labelOf_eq (idOf?_noteAll _ (idOf?_note_of_eq_none hnew) post), wordOf?, hmore,
    toNat_toUInt16_of_lt (by omega)]
  simp

/-- The words a table was noted from have labels below its length, so none has the label the next
new target takes. -/
theorem labelOf_ne_length {ws : List UInt16} (hlen : (empty.noteAll ws).targets.length < 65536) :
    ∀ a ∈ ws, (empty.noteAll ws).labelOf a ≠ (empty.noteAll ws).targets.length.toUInt16 := by
  intro a ha heq
  obtain ⟨i, hi⟩ := Option.isSome_iff_exists.1 (isSome_idOf?_noteAll _ ha)
  have hlt := ((sound_empty.noteAll ws).idOf?_eq_some_iff.1 hi).1
  rw [labelOf_eq hi] at heq
  have := toUInt16_inj (by omega) (by omega) heq
  omega

/-- Labels count up from `0` in the order of their first use. -/
theorem eraseDups_labelOf_noteAll (ws : List UInt16) :
    (ws.map (empty.noteAll ws).labelOf).eraseDups =
      (List.range (empty.noteAll ws).targets.length).map Nat.toUInt16 := by
  induction ws using List.reverseRecOn with
  | nil => rfl
  | append_singleton vs w ih =>
    have hT : empty.noteAll (vs ++ [w]) = ((empty.noteAll vs).note (jumpTarget w) w).1 := by
      rw [noteAll_append]
      rfl
    -- the words before `w` keep their labels
    have hkeep : vs.map (empty.noteAll (vs ++ [w])).labelOf = vs.map (empty.noteAll vs).labelOf := by
      rw [noteAll_append]
      exact List.map_congr_left fun v hv => labelOf_noteAll _ (isSome_idOf?_noteAll _ hv) _
    rw [List.map_append, hkeep, List.eraseDups_append, ih]
    by_cases hold : ((empty.noteAll vs).idOf? (jumpTarget w)).isSome
    · -- `w` points to a target met before, and so takes the label of an earlier word
      obtain ⟨v, hv, hvw⟩ := isSome_idOf?_noteAll_iff.1 hold
      rw [hT, note_of_isSome hold]
      have hin : ∃ a ∈ vs, (empty.noteAll vs).labelOf a = (empty.noteAll vs).labelOf w :=
        ⟨v, hv, by simp [labelOf, hvw]⟩
      simp [List.removeAll, hin]
    · -- a new target takes the next label, which no earlier word has
      have hnew := Option.not_isSome_iff_eq_none.1 hold
      have hlen := (sound_empty.noteAll (vs ++ [w])).length_le
      rw [hT, note_of_idOf?_eq_none hnew] at hlen
      simp only [List.length_append, List.length_singleton] at hlen
      have hnot : ¬ ∃ a ∈ vs, (empty.noteAll vs).labelOf a = UInt16.ofNat (empty.noteAll vs).targets.length := by
        rintro ⟨a, ha, h⟩
        exact labelOf_ne_length (by omega) a ha h
      rw [hT, List.map_singleton, labelOf_eq (idOf?_note_of_eq_none hnew), note_of_idOf?_eq_none hnew]
      simp [List.removeAll, List.range_succ, hnot, List.eraseDups_cons]

/-- How a table numbers the targets of jump words `ws`, taken in order: two words get one label
exactly when they point to one offset; the labels, in the order of their first use, count up from
`0` to below the number of targets, which is at most `32768`, so labels never wrap; the table
holds the target of each word, under the word's label, and no other; and a label keeps the word
of its first use. -/
structure NumbersByFirstUse (T : LabelTable) (ws : List UInt16) : Prop where
  label_eq_iff : ∀ w ∈ ws, ∀ w' ∈ ws, T.labelOf w = T.labelOf w' ↔ jumpTarget w = jumpTarget w'
  dense : (ws.map T.labelOf).eraseDups = (List.range T.targets.length).map Nat.toUInt16
  length_le : T.targets.length ≤ 32768
  targets : ∀ o, (T.idOf? o).isSome ↔ ∃ w ∈ ws, jumpTarget w = o
  idOf?_target : ∀ w ∈ ws, T.idOf? (jumpTarget w) = some (T.labelOf w).toNat
  first_word : ∀ i (hi : i < ws.length), (∀ j (hj : j < i), T.labelOf ws[j] ≠ T.labelOf ws[i]) →
    T.wordOf? ⟨T.labelOf ws[i]⟩ = some ws[i]

/-- The table noted from jump words numbers their targets by first use. -/
theorem numbersByFirstUse_noteAll (ws : List UInt16) : (empty.noteAll ws).NumbersByFirstUse ws := by
  have ht := sound_empty.noteAll ws
  have hlabel : ∀ w ∈ ws, ∀ w' ∈ ws,
      (empty.noteAll ws).labelOf w = (empty.noteAll ws).labelOf w' ↔ jumpTarget w = jumpTarget w' :=
    fun w hw w' hw' => ht.labelOf_eq_iff (isSome_idOf?_noteAll _ hw) (isSome_idOf?_noteAll _ hw')
  refine ⟨hlabel, eraseDups_labelOf_noteAll ws, ht.length_le, fun o => isSome_idOf?_noteAll_iff,
    fun w hw => ?_, fun i hi hfirst => ?_⟩
  · obtain ⟨i, hi⟩ := Option.isSome_iff_exists.1 (isSome_idOf?_noteAll _ hw)
    rw [hi, ht.toNat_labelOf hi]
  · -- the words before slot `i` point elsewhere, so slot `i` noted its target
    have hbefore : ∀ v ∈ ws.take i, jumpTarget v ≠ jumpTarget ws[i] := by
      intro v hv htv
      obtain ⟨j, hj, rfl⟩ := List.getElem_of_mem hv
      have hji : j < i := by simp at hj; omega
      rw [List.getElem_take] at htv
      exact hfirst j hji ((hlabel _ (List.getElem_mem _) _ (List.getElem_mem _)).2 htv)
    have hsplit : ws.take i ++ ws[i] :: ws.drop (i + 1) = ws := by
      rw [List.getElem_cons_drop, List.take_append_drop]
    have := @wordOf?_labelOf_of_first (ws.take i) (ws.drop (i + 1)) ws[i] hbefore
    rwa [hsplit] at this

end LabelTable

/-! ## Labels as read -/

/-- The catalog of the examples: opcodes of every arity, parameter kind and category. -/
def exampleCatalog : Catalog :=
  ⟨.sky, 16, [
    (0, ⟨"Nop", .fixed 0, [], .other⟩),
    (1, ⟨"Message", .fixed 1, [.string], .other⟩),
    (2, ⟨"Jump", .fixed 1, [.instructionOffset], .other⟩),
    (3, ⟨"Switch", .fixed 1, [.integer], .switch⟩),
    (4, ⟨"Case", .fixed 2, [.integer, .caseJumpOffset], .caseArm⟩),
    (5, ⟨"CaseDefault", .fixed 1, [.caseJumpOffset], .defaultArm⟩),
    (6, ⟨"ProcessSpecial", .fixed 3, [], .special⟩),
    (7, ⟨"lives", .fixed 1, [.integer], .accessor⟩),
    (8, ⟨"SetAnimation", .fixed 1, [.integer], .attribute⟩),
    (9, ⟨"CallCommon", .variadic, [.constant, .instructionOffset], .other⟩),
    (10, ⟨"End", .fixed 0, [], .other⟩)], by decide⟩

/-- Reading a data block numbers jump targets densely by first use. The jump words as they stand
on disk, slot by slot (`cat.jumps X`), are read as their labels in the table read: two slots get
one label exactly when their words point to one offset, the labels count up from `0` in the
order of first use and never wrap, the table holds the target of every slot read and nothing
else, so a command cut short notes no target, and each label keeps the word of its first slot. -/
theorem decode_labels_by_first_use {cat : Catalog} {block : List UInt8} {start : Nat} {code : Code}
    (h : Code.decode cat block start = .ok code) :
    ∃ X, rawItems cat start (block.drop start) = .ok X ∧
      code.items = X.map (cat.mapItem code.labels.labelOf) ∧
      cat.jumps code.items = (cat.jumps X).map code.labels.labelOf ∧
      code.labels.NumbersByFirstUse (cat.jumps X) := by
  -- reading is the raw reading, renamed through the table of its jump words
  obtain ⟨X, hX, rfl⟩ : ∃ X, rawItems cat start (block.drop start) = .ok X ∧
      code = ⟨X.map (cat.mapItem (LabelTable.empty.noteAll (cat.jumps X)).labelOf),
        LabelTable.empty.noteAll (cat.jumps X)⟩ := by
    unfold Code.decode at h
    split at h
    · rw [decodeItems_eq_rawItems] at h
      cases hraw : rawItems cat start (block.drop start) with
      | error e => simp [hraw, Except.map] at h
      | ok X =>
        simp only [hraw, Except.map, Except.ok.injEq] at h
        exact ⟨X, rfl, h.symm⟩
    · cases h
  exact ⟨X, hX, rfl, Catalog.jumps_map_mapItem cat _ X, LabelTable.numbersByFirstUse_noteAll _⟩

/-- Three jumps, the first and the last to word `8`, the second to word `4`, then an end. -/
def threeJumps : List UInt8 :=
  [2, 0, 8, 0, 2, 0, 4, 0, 2, 0, 8, 0, 10, 0]

/-- What `threeJumps` reads as: the jumps to word `8` get label `0`, first used there, and the
jump to word `4` label `1`. -/
def threeJumpsCode : Code :=
  ⟨[.command ⟨2, [0]⟩, .command ⟨2, [1]⟩, .command ⟨2, [0]⟩, .command ⟨10, []⟩], ⟨[(16, 8), (8, 4)]⟩⟩

theorem decode_labels_by_first_use_three_jumps :
    Code.decode exampleCatalog threeJumps 0 = .ok threeJumpsCode ∧
      ∃ X, rawItems exampleCatalog 0 (threeJumps.drop 0) = .ok X ∧
        threeJumpsCode.items = X.map (exampleCatalog.mapItem threeJumpsCode.labels.labelOf) ∧
        exampleCatalog.jumps threeJumpsCode.items =
          (exampleCatalog.jumps X).map threeJumpsCode.labels.labelOf ∧
        threeJumpsCode.labels.NumbersByFirstUse (exampleCatalog.jumps X) :=
  have h : Code.decode exampleCatalog threeJumps 0 = .ok threeJumpsCode := by decide +kernel
  ⟨h, decode_labels_by_first_use h⟩

end DungeonFormats.Script
