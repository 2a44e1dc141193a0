import Mathlib
import DungeonFormats.Proofs.Rereading
import DungeonFormats.Proofs.PanicFreedom

/-!
# When writing a script fails

Writing a script refuses it for one of a fixed list of reasons, each a property of the script
(`Unwritable`): string tables that are not those of the region's languages or that differ in
length, counts that a word cannot hold, a spare header word in a European script, a label placed
twice or placed and raw, a command that does not fit its opcode, a jump that leads nowhere the
writer can point to, a NUL in a string, and a string pointer or a length in the header or the
group table that a word cannot hold. Writing fails exactly when one of them holds
(`encode_fails_iff`).

The proof goes through the image of the script (`Script.image`): it resolves exactly when the
first reasons are absent (`image_eq_ok_iff`), and its layout fits exactly when the others are.
The fields the writer fills in last never fail for want of an anchor or because a span is odd:
every anchor they name is placed once and every span is a whole number of words, so the only
error finishing can give is a length too large for its word (`fill_encodePieces_eq_error`), and
no step of the writer stops outright (`encode_fault_tooWide`).
-/

namespace DungeonFormats.Script

/-! ## What the writer computes from a script -/

/-- The script's instructions, group after group. -/
def instructions (s : Script) : List Instruction :=
  s.groups.flatMap (·.instructions)

/-- The commands of the script's instructions, folded ones opened up. -/
def commands (s : Script) : List Command :=
  s.instructions.flatMap Instruction.commands

/-- The string tables of the region's languages, in the region's order, a missing one empty. -/
def regionStrings (s : Script) (r : Region) : List (List (List UInt8)) :=
  r.languages.map fun l => (s.strings.get l).getD []

/-- The number of strings per language, taken from the first of the region's tables. -/
def stringCount (s : Script) (r : Region) : Nat :=
  match s.regionStrings r with
  | t :: _ => t.length
  | [] => 0

/-- Each placed label with the offset in the data block of the instruction after it. -/
def placements (cat : Catalog) (s : Script) : List (LabelId × Nat) :=
  labelOffsets cat (4 + 6 * s.groups.length) s.instructions

/-- The length of the data block: its head, the group table and the code. -/
def dataLen (cat : Catalog) (s : Script) : Nat :=
  4 + 6 * s.groups.length + cat.itemsSize (s.groups.flatMap Group.items)

/-- What string pointers count from past the start of their table: the constants' table. -/
def stringBias (s : Script) : Nat :=
  2 * s.constants.length + (tableBody s.constants).length

/-- The image of a script that can be written: its groups with every jump resolved to the label's
place or raw word, its constants, the region's string tables and its spare word. -/
def resolvedImage (game : Game) (s : Script) : Image :=
  ⟨game.region, s.groups.map fun g => ⟨g.kind, g.unk2, g.items.map
      (game.catalog.mapItem (resolvedWord (s.placements game.catalog).reverse s.rawTargets))⟩,
    s.constants, s.regionStrings game.region, s.unk1⟩

/-- A command the writer refuses: its opcode is not described, or it has other than `n`
parameters for a fixed arity `n`, or `0x4000` or more behind a count word. -/
def Catalog.Unfit (cat : Catalog) (c : Command) : Prop :=
  match cat.info c.opcode with
  | none => True
  | some info =>
    match info.arity with
    | .fixed n => c.params.length ≠ n.toNat
    | .variadic => 0x4000 ≤ c.params.length

/-- A jump parameter holding label `p` leads nowhere the writer can point to: the label is
neither placed nor raw, or it is placed `0x8000` bytes or more into the data block. -/
def Unreachable (cat : Catalog) (s : Script) (p : UInt16) : Prop :=
  (⟨p⟩ ∉ (s.placements cat).map (·.1) ∧ s.rawTargets.lookup ⟨p⟩ = none) ∨
    ∃ o, (⟨p⟩, o) ∈ s.placements cat ∧ 0x8000 ≤ o

/-- The reasons a script cannot be written for a game. -/
inductive Unwritable (game : Game) (s : Script) : Prop
  /-- The script's string tables are not exactly those of the region's languages. -/
  | languages : s.strings.keys ≠ game.region.languages → Unwritable game s
  /-- Two of the region's string tables differ in length. -/
  | tablesDiffer {t t' : List (List UInt8)} : t ∈ s.regionStrings game.region →
      t' ∈ s.regionStrings game.region → t.length ≠ t'.length → Unwritable game s
  /-- More groups, constants or strings per language than a word counts. -/
  | tooMany : 0xFFFF < s.groups.length ∨ 0xFFFF < s.constants.length ∨
      0xFFFF < s.stringCount game.region → Unwritable game s
  /-- A European script whose spare header word is not zero. -/
  | europeanUnk1 : game.region = .europe → s.unk1 ≠ 0 → Unwritable game s
  /-- A label placed by two label instructions. -/
  | placedTwice {l : LabelId} : 2 ≤ (labelsOf s.instructions).count l → Unwritable game s
  /-- A label both placed and a raw target. -/
  | placedAndRaw {l : LabelId} : l ∈ labelsOf s.instructions → (s.rawTargets.lookup l).isSome →
      Unwritable game s
  /-- A command the catalog does not describe, or whose parameters do not fit its arity. -/
  | unfitCommand {c : Command} : c ∈ s.commands → game.catalog.Unfit c → Unwritable game s
  /-- A jump parameter that leads nowhere the writer can point to. -/
  | unreachableJump {c : Command} {p : UInt16} : c ∈ s.commands →
      p ∈ game.catalog.commandJumps c → s.Unreachable game.catalog p → Unwritable game s
  /-- A constant or a string that holds a NUL byte. -/
  | nulInString {str : List UInt8} :
      (str ∈ s.constants ∨ ∃ t ∈ s.regionStrings game.region, str ∈ t) → 0 ∈ str →
      Unwritable game s
  /-- A string pointer past `0xFFFF`. -/
  | pointerTooLarge {p : Nat} :
      (p ∈ pointerValues (2 * s.stringCount game.region) (2 * s.constants.length) s.constants ∨
        ∃ t ∈ s.regionStrings game.region, p ∈ pointerValues s.stringBias (2 * t.length) t) →
      0xFFFF < p → Unwritable game s
  /-- A length in words that the header or the group table cannot hold: the data block with the
  constants' pointers, the constants' strings, a language's table, or the code up to the start
  of a group or to its end. -/
  | spanTooLong :
      (0xFFFF < (s.dataLen game.catalog + 2 * s.constants.length) / 2 ∨
        0xFFFF < (tableBody s.constants).length / 2 ∨
        (∃ t ∈ s.regionStrings game.region, 0xFFFF < (tableBytes t s.stringBias).length / 2) ∨
        ∃ j ≤ s.groups.length, 0xFFFF < (4 + 6 * s.groups.length +
          game.catalog.itemsSize ((s.groups.take j).flatMap Group.items)) / 2) →
      Unwritable game s

/-! ## String tables by language -/

theorem forall₂_get_map {α : Type} {t : PerLanguage α} (d : α) :
    ∀ {ls : List Language}, (∀ l ∈ ls, (t.get l).isSome) →
      List.Forall₂ (fun l v => t.get l = some v) ls (ls.map fun l => (t.get l).getD d)
  | [], _ => .nil
  | l :: ls, h => by
    obtain ⟨v, hv⟩ := Option.isSome_iff_exists.1 (h l List.mem_cons_self)
    refine .cons (by simp [hv]) (forall₂_get_map d fun l' hl' => h l' (List.mem_cons_of_mem _ hl'))

/-- The tables are those of the region's languages exactly when there are as many as it has
languages and each of those has one: the languages of both are in the languages' order. -/
theorem keys_eq_languages_iff {α : Type} (t : PerLanguage α) (r : Region) :
    t.keys = r.languages ↔ t.keys.length = r.languages.length ∧ ∀ l ∈ r.languages, (t.get l).isSome := by
  constructor
  · intro h
    refine ⟨by rw [h], fun l hl => ?_⟩
    rw [← h] at hl
    exact (List.mem_filter.1 hl).2
  · rintro ⟨hlen, hall⟩
    have hregion : r.languages = Language.all.filter (fun l => decide (l ∈ r.languages)) := by
      cases r <;> decide
    have hsub : r.languages.Sublist t.keys := by
      rw [hregion]
      exact List.monotone_filter_right _ fun l hl => hall l (by simpa using hl)
    exact (hsub.eq_of_length hlen.symm).symm

/-- The string tables are taken exactly when they are those of the region's languages. -/
theorem regionTables_eq_ok_iff (s : Script) (r : Region) (tables : List (List (List UInt8))) :
    regionTables s r = .ok tables ↔ s.strings.keys = r.languages ∧ tables = s.regionStrings r := by
  rw [keys_eq_languages_iff]
  unfold regionTables
  split
  · rename_i hlen
    simp only [throw, throwThe, MonadExceptOf.throw, bind, Except.bind, reduceCtorEq, false_iff]
    exact fun h => hlen h.1.1
  · rename_i hlen
    dsimp only
    rw [Except.mapM_eq_ok_iff]
    constructor
    · intro h
      -- each language of the region has its table
      have hget : List.Forall₂ (fun l t => s.strings.get l = some t) r.languages tables :=
        h.imp fun {l t} hlt => by
          split at hlt
          · rename_i v hv
            simp only [pure, Except.pure, Except.ok.injEq] at hlt
            rw [hv, hlt]
          · simp [throw, throwThe, MonadExceptOf.throw] at hlt
      obtain ⟨hall, rfl⟩ := PerLanguage.forall₂_get_eq_some (d := []) hget
      exact ⟨⟨by omega, hall⟩, rfl⟩
    · rintro ⟨⟨-, hall⟩, rfl⟩
      refine (forall₂_get_map [] hall).imp fun {l t} hlt => ?_
      rw [hlt]
      rfl

/-! ## The image of a script -/

section Image

variable (game : Game) (s : Script)

theorem labelsOf_instructions (cat : Catalog) :
    labelsOf s.instructions = (s.placements cat).map (·.1) :=
  labelsOf_eq_labelOffsets cat _ _

/-- The region's tables are all of one length exactly when none differs from the first. -/
theorem any_length_ne_eq_false_iff :
    ((s.regionStrings game.region).any fun t => decide (t.length ≠ s.stringCount game.region)) = false ↔
      ∀ t ∈ s.regionStrings game.region, t.length = s.stringCount game.region := by
  simp

/-- The image of a script resolves exactly when its tables are the region's and all of one
length, no label is placed twice or placed and raw, and every instruction can be written with
the labels at their places; it then holds the groups with their jumps resolved. -/
theorem image_eq_ok_iff (im : Image) :
    Script.image game s = .ok im ↔
      s.strings.keys = game.region.languages ∧
      (∀ t ∈ s.regionStrings game.region, t.length = s.stringCount game.region) ∧
      (labelsOf s.instructions).Nodup ∧
      (∀ l ∈ labelsOf s.instructions, s.rawTargets.lookup l = none) ∧
      (∀ g ∈ s.groups, ∀ i ∈ g.instructions,
        Writable game.catalog (s.placements game.catalog).reverse s.rawTargets i) ∧
      im = s.resolvedImage game := by
  have hdiffer := any_length_ne_eq_false_iff game s
  unfold Script.image
  rw [Except.bind_eq_ok_iff]
  simp only [regionTables_eq_ok_iff]
  constructor
  · rintro ⟨tables, ⟨hkeys, rfl⟩, h⟩
    split_ifs at h with hsame
    · simp [throw, throwThe, MonadExceptOf.throw, bind, Except.bind] at h
    obtain ⟨targets, hp, h⟩ := Except.bind_eq_ok_iff.1 h
    obtain ⟨codes, hm, h⟩ := Except.bind_eq_ok_iff.1 h
    cases h
    obtain ⟨hnd, hfresh, rfl⟩ := (placeLabels_eq_ok_iff _ _ _ _ _ _).1 hp
    obtain ⟨hall, rfl⟩ := (mapM_resolveGroup_eq_ok_iff _ _ _ _ _).1 hm
    rw [List.append_nil] at hall ⊢
    rw [labelsOf_instructions s game.catalog]
    exact ⟨hkeys, hdiffer.1 (Bool.eq_false_iff.2 hsame), hnd, fun l hl => (hfresh l hl).2, hall, rfl⟩
  · rintro ⟨hkeys, hsame, hnd, hfresh, hall, rfl⟩
    refine ⟨_, ⟨hkeys, rfl⟩, ?_⟩
    split_ifs with hd
    · exact absurd ((hdiffer.2 hsame).symm.trans hd) Bool.false_ne_true
    rw [labelsOf_instructions s game.catalog] at hnd hfresh
    -- labels are placed where `placements` says, then every group resolves
    have hp : placeLabels game.catalog s.rawTargets (s.groups.flatMap (·.instructions))
        (4 + 6 * s.groups.length) [] = .ok (s.placements game.catalog).reverse := by
      rw [placeLabels_eq_ok_iff, List.append_nil]
      exact ⟨hnd, fun l hl => ⟨rfl, hfresh l hl⟩, rfl⟩
    have hm := (mapM_resolveGroup_eq_ok_iff game.catalog (s.placements game.catalog).reverse
      s.rawTargets s.groups _).2 ⟨hall, rfl⟩
    rw [hp]
    simp only [bind, Except.bind]
    rw [hm]
    rfl

end Image

/-! ## The layout of the resolved image -/

section Resolved

variable (game : Game) (s : Script)

@[simp] theorem resolvedImage_constants : (s.resolvedImage game).constants = s.constants := rfl

@[simp] theorem resolvedImage_tables :
    (s.resolvedImage game).tables = s.regionStrings game.region := rfl

@[simp] theorem resolvedImage_region : (s.resolvedImage game).region = game.region := rfl

@[simp] theorem resolvedImage_unk1 : (s.resolvedImage game).unk1 = s.unk1 := rfl

@[simp] theorem length_resolvedImage_groups :
    (s.resolvedImage game).groups.length = s.groups.length := by
  simp [Script.resolvedImage]

@[simp] theorem resolvedImage_stringCount :
    (s.resolvedImage game).stringCount = s.stringCount game.region := rfl

@[simp] theorem resolvedImage_stringBias : (s.resolvedImage game).stringBias = s.stringBias := rfl

/-- Resolving jumps leaves every item's size, so the data block keeps its length. -/
@[simp] theorem resolvedImage_dataLen :
    (s.resolvedImage game).dataLen game.catalog = s.dataLen game.catalog := by
  simp only [Image.dataLen, Image.codeStart, Image.items, Script.dataLen, Script.resolvedImage,
    List.flatMap_map, ← List.map_flatMap, Catalog.itemsSize_map_mapItem, List.length_map]

end Resolved

/-! ## Commands and jumps -/

theorem mem_commands {s : Script} {c : Command} :
    c ∈ s.commands ↔ ∃ g ∈ s.groups, ∃ i ∈ g.instructions, c ∈ i.commands := by
  simp only [Script.commands, Script.instructions, List.mem_flatMap]
  constructor
  · rintro ⟨i, ⟨g, hg, hi⟩, hc⟩
    exact ⟨g, hg, i, hi, hc⟩
  · rintro ⟨g, hg, i, hi, hc⟩
    exact ⟨i, ⟨g, hg, hi⟩, hc⟩

/-- A command is unfit exactly when it is not an item that reads back as itself. -/
theorem unfit_iff (cat : Catalog) (c : Command) : cat.Unfit c ↔ ¬ cat.ReadableItem (.command c) := by
  simp only [Catalog.Unfit, Catalog.ReadableItem, checkArity]
  cases hinfo : cat.info c.opcode with
  | none => simp
  | some info =>
    simp only [Option.some.injEq, exists_eq_left']
    cases harity : info.arity with
    | fixed n => by_cases h : c.params.length = n.toNat <;> simp [h]
    | variadic =>
      by_cases h : c.params.length < 0x4000
      · simp [h]
      · simpa [h] using Nat.le_of_not_lt h

/-- With each label placed once, a jump parameter can be written exactly when it does not lead
nowhere: the place the writer finds for its label is the label's only place. -/
theorem resolvable_iff (cat : Catalog) (s : Script) (p : UInt16)
    (hnd : ((s.placements cat).map (·.1)).Nodup) :
    Resolvable (s.placements cat).reverse s.rawTargets p ↔ ¬ s.Unreachable cat p := by
  unfold Resolvable Script.Unreachable
  rw [lookup_reverse_of_nodup hnd]
  cases h : (s.placements cat).lookup ⟨p⟩ with
  | none =>
    -- an unplaced label: only its raw word can be written
    have hnot : ⟨p⟩ ∉ (s.placements cat).map (·.1) := by
      intro hmem
      obtain ⟨⟨k, o⟩, hko, rfl⟩ := List.mem_map.1 hmem
      rw [lookup_eq_some_of_mem hnd hko] at h
      cases h
    have hno : ¬ ∃ o, ((⟨p⟩ : LabelId), o) ∈ s.placements cat ∧ 0x8000 ≤ o := by
      rintro ⟨o, ho, -⟩
      exact hnot (List.mem_map.2 ⟨_, ho, rfl⟩)
    simp only [hnot, not_false_eq_true, true_and, hno, or_false]
    cases s.rawTargets.lookup ⟨p⟩ <;> simp
  | some o =>
    -- a placed label: its one offset must lie below `0x8000`
    have hmem := mem_of_lookup_eq_some h
    have honly : ∀ o', ((⟨p⟩ : LabelId), o') ∈ s.placements cat → o' = o := fun o' ho' => by
      rw [lookup_eq_some_of_mem hnd ho'] at h
      exact Option.some.inj h
    have hin : (⟨p⟩ : LabelId) ∈ (s.placements cat).map (·.1) := List.mem_map.2 ⟨_, hmem, rfl⟩
    constructor
    · rintro hlt (⟨hout, -⟩ | ⟨o', ho', hge⟩)
      · exact hout hin
      · rw [honly o' ho'] at hge
        omega
    · intro hnot
      by_contra hge
      exact hnot (.inr ⟨o, hmem, by omega⟩)

/-! ## Writing fails exactly for a reason -/

section Reasons

variable (game : Game) (s : Script)

/-- A script whose image resolves and fits has none of the reasons not to be written. -/
theorem not_unwritable_of_fits (him : ∃ im, Script.image game s = .ok im ∧ im.Fits game.catalog) :
    ¬ Unwritable game s := by
  obtain ⟨im, him, hfit⟩ := him
  obtain ⟨hkeys, hsame, hnd, hfresh, hall, rfl⟩ := (image_eq_ok_iff game s im).1 him
  obtain ⟨hunk1, hcc, hsc, hgc, hconst, htables, hscript, hconstLen, htableLen⟩ := hfit
  simp only [resolvedImage_region, resolvedImage_unk1, resolvedImage_constants,
    resolvedImage_stringCount, length_resolvedImage_groups, resolvedImage_tables,
    resolvedImage_stringBias, resolvedImage_dataLen, Image.constLen] at *
  have hplaced := hnd
  rw [labelsOf_instructions s game.catalog] at hplaced
  intro hU
  cases hU with
  | languages h => exact h hkeys
  | tablesDiffer ht ht' hne => exact hne ((hsame _ ht).trans (hsame _ ht').symm)
  | tooMany h => omega
  | europeanUnk1 hr hu => exact hu (hunk1 hr)
  | @placedTwice l hcount =>
    have := List.nodup_iff_count_le_one.1 hnd l
    omega
  | placedAndRaw hl hraw => simp [hfresh _ hl] at hraw
  | unfitCommand hc hunfit =>
    obtain ⟨g, hg, i, hi, hci⟩ := mem_commands.1 hc
    exact (unfit_iff _ _).1 hunfit (hall g hg i hi _ hci).1
  | unreachableJump hc hp hun =>
    obtain ⟨g, hg, i, hi, hci⟩ := mem_commands.1 hc
    exact (resolvable_iff _ _ _ hplaced).1 ((hall g hg i hi _ hci).2 _ hp) hun
  | nulInString h hnul =>
    rcases h with h | ⟨t, ht, h⟩
    · exact hconst.no_nul _ h hnul
    · exact (htables t ht).no_nul _ h hnul
  | pointerTooLarge h hp =>
    rcases h with h | ⟨t, ht, h⟩
    · have := hconst.pointers_lt _ h
      omega
    · have := (htables t ht).pointers_lt _ h
      omega
  | spanTooLong h =>
    rcases h with h | h | ⟨t, ht, h⟩ | ⟨j, -, h⟩
    · omega
    · omega
    · have := htableLen t ht
      omega
    · -- the code up to a group, or to its end, lies within the data block
      have hle : game.catalog.itemsSize ((s.groups.take j).flatMap Group.items) ≤
          game.catalog.itemsSize (s.groups.flatMap Group.items) := by
        conv_rhs => rw [← List.take_append_drop j s.groups, List.flatMap_append, itemsSize_append]
        exact Nat.le_add_right _ _
      simp only [Script.dataLen] at hscript
      omega

/-- Without a reason not to be written, a script's image resolves. -/
theorem image_of_not_unwritable (h : ¬ Unwritable game s) :
    Script.image game s = .ok (s.resolvedImage game) := by
  have hnd : (labelsOf s.instructions).Nodup := List.nodup_iff_count_le_one.2 fun l => by
    by_contra hcount
    exact h (.placedTwice (l := l) (by omega))
  refine (image_eq_ok_iff game s _).2 ⟨?_, ?_, hnd, ?_, ?_, rfl⟩
  · by_contra hkeys
    exact h (.languages hkeys)
  · intro t ht
    by_contra hne
    -- the count is the length of the first table
    cases hfirst : s.regionStrings game.region with
    | nil => simp [hfirst] at ht
    | cons t0 rest =>
      have hsc : s.stringCount game.region = t0.length := by simp [Script.stringCount, hfirst]
      exact h (.tablesDiffer ht (by simp [hfirst]) (hsc ▸ hne))
  · intro l hl
    by_contra hraw
    exact h (.placedAndRaw hl (Option.isSome_iff_ne_none.2 hraw))
  · intro g hg i hi c hci
    have hc : c ∈ s.commands := mem_commands.2 ⟨g, hg, i, hi, hci⟩
    rw [labelsOf_instructions s game.catalog] at hnd
    refine ⟨?_, fun p hp => (resolvable_iff _ _ _ hnd).2 fun hun => h (.unreachableJump hc hp hun)⟩
    by_contra hread
    exact h (.unfitCommand hc ((unfit_iff _ _).2 hread))

/-- Without a reason not to be written, a script's resolved image fits the layout. -/
theorem fits_of_not_unwritable (h : ¬ Unwritable game s) : (s.resolvedImage game).Fits game.catalog := by
  refine ⟨fun hr => ?_, ?_, ?_, ?_, ⟨fun str hstr hnul => ?_, fun p hp => ?_⟩,
    fun t ht => ⟨fun str hstr hnul => ?_, fun p hp => ?_⟩, ⟨?_, ?_, fun t ht => ?_⟩⟩ <;>
    simp only [resolvedImage_region, resolvedImage_unk1, resolvedImage_constants,
      resolvedImage_stringCount, length_resolvedImage_groups, resolvedImage_tables,
      resolvedImage_stringBias, resolvedImage_dataLen, Image.constLen] at *
  · by_contra hu
    exact h (.europeanUnk1 hr hu)
  · by_contra hc
    exact h (.tooMany (.inr (.inl (by omega))))
  · by_contra hc
    exact h (.tooMany (.inr (.inr (by omega))))
  · by_contra hc
    exact h (.tooMany (.inl (by omega)))
  · exact h (.nulInString (.inl hstr) hnul)
  · by_contra hlt
    exact h (.pointerTooLarge (.inl hp) (by omega))
  · exact h (.nulInString (.inr ⟨t, ht, hstr⟩) hnul)
  · by_contra hlt
    exact h (.pointerTooLarge (.inr ⟨t, ht, hp⟩) (by omega))
  · by_contra hlong
    exact h (.spanTooLong (.inl (by omega)))
  · by_contra hlong
    exact h (.spanTooLong (.inr (.inl (by omega))))
  · by_contra hlong
    exact h (.spanTooLong (.inr (.inr (.inl ⟨t, ht, by omega⟩))))

/-- Writing fails exactly when one of the reasons holds. -/
theorem encode_error_iff_unwritable : (∃ e, Script.encode game s = .error e) ↔ Unwritable game s := by
  -- writing fails exactly when it does not succeed, that is when the image does not resolve and fit
  have hfail : (∃ e, Script.encode game s = .error e) ↔ ¬ ∃ out, Script.encode game s = .ok out := by
    cases Script.encode game s <;> simp
  rw [hfail]
  constructor
  · intro hnot
    by_contra hU
    exact hnot ⟨_, encode_of_image (image_of_not_unwritable game s hU)
      (fits_of_not_unwritable game s hU)⟩
  · rintro hU ⟨out, hout⟩
    obtain ⟨im, him, hfit, -⟩ := (encode_eq_ok_iff game s out).1 hout
    exact not_unwritable_of_fits game s ⟨im, him, hfit⟩ hU

/-- Writing a script fails exactly when one of the reasons holds. Its error is then never a stop
outright, and never a field that names an unplaced anchor or an odd span: a field the builder
cannot fill is a length of more than `0xFFFF` words. -/
theorem encode_fails_iff :
    ((∃ e, Script.encode game s = .error e) ↔ Unwritable game s) ∧
      ∀ e, Script.encode game s = .error e →
        (∀ p, e ≠ .panic p) ∧ ∀ f, e = .build f → ∃ pos w, 0xFFFF < w ∧ f = .tooWide pos w 16 := by
  refine ⟨encode_error_iff_unwritable game s, fun e h => ⟨?_, ?_⟩⟩
  · rintro p rfl
    exact encode_ne_panic p game s h
  · rintro f rfl
    obtain ⟨pos, w, hw, hf⟩ := encode_fault_tooWide h trivial
    exact ⟨pos, w, hw, EncodeError.build.inj hf⟩

end Reasons

end DungeonFormats.Script
