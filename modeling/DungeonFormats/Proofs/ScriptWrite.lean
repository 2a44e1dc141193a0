import Mathlib
import DungeonFormats.Proofs.ScriptLayout

/-!
# When writing a script succeeds

`Script.encode` succeeds exactly when the script has an image, its string tables lining up with
the region's languages and every opcode and label resolving, and that image fits the words of
the layout; what it writes is then the image's bytes (`encode_eq_ok_iff`). Each step of the
writer is opened by its own lemma of `ScriptEncode`; this module chains them, the one fact
carried between steps being that the builder stays at an even length.
-/

namespace DungeonFormats

/-- A traversal succeeds exactly when each element's step succeeds with the matching result. -/
theorem Except.mapM_eq_ok_iff {ε α β : Type} {f : α → Except ε β} :
    ∀ {xs : List α} {ys : List β},
      xs.mapM f = .ok ys ↔ List.Forall₂ (fun x y => f x = .ok y) xs ys
  | [], ys => by cases ys <;> simp [pure, Except.pure]
  | x :: xs, ys => by
    rw [List.mapM_cons]
    cases ys with
    | nil => simp [Except.bind_eq_ok_iff, pure, Except.pure]
    | cons y ys => simp [Except.bind_eq_ok_iff, pure, Except.pure, Except.mapM_eq_ok_iff]

namespace Builder

variable {α : Type}

@[simp] theorem size_reserve (b : Builder α) (f : Field α) :
    (b.reserve f).size = b.size + f.size := by
  simpa [Piece.raw, put] using size_put b (.field f)

@[simp] theorem size_empty : (Builder.empty : Builder α).size = 0 := rfl

end Builder

namespace Script

theorem toWord_eq_ok_iff {n : Nat} {w : UInt16} : toWord n = .ok w ↔ n < 65536 ∧ w = n.toUInt16 := by
  unfold toWord
  split <;> simp [*, eq_comm]

/-- The region's tables come one per language, so there is a first. -/
theorem exists_cons_of_regionTables {s : Script} {r : Region} {tables : List (List (List UInt8))}
    (h : regionTables s r = .ok tables) :
    tables.length = r.languages.length ∧ ∃ t ts, tables = t :: ts := by
  unfold regionTables at h
  split at h
  · cases h
  have hlen := (Except.mapM_eq_ok_iff.1 h).length_eq.symm
  refine ⟨hlen, List.exists_cons_of_length_pos ?_⟩
  cases r <;> simp [hlen, Region.languages]

section Groups

variable {cat : Catalog} {targets : List (LabelId × Nat)} {raw : List (LabelId × UInt16)}
  {gs : List Group} {codes : List GroupCode}

/-- Resolving groups keeps each group's two header words. -/
theorem headers_of_resolveGroups (h : gs.mapM (resolveGroup cat targets raw) = .ok codes) :
    codes.map (fun g => (g.kind, g.unk2)) = gs.map (fun g => (g.kind, g.unk2)) := by
  have hall := Except.mapM_eq_ok_iff.1 h
  clear h
  induction hall with
  | nil => rfl
  | cons hg _ ih =>
    obtain ⟨items, -, hg⟩ := Except.bind_eq_ok_iff.1 hg
    cases hg
    simp [ih]

theorem length_of_resolveGroups (h : gs.mapM (resolveGroup cat targets raw) = .ok codes) :
    codes.length = gs.length :=
  (Except.mapM_eq_ok_iff.1 h).length_eq.symm

end Groups

/-! ## The writer's builder -/

variable (cat : Catalog)

/-- The data block ends at an even length: the header, the group table and every item are
whole words. -/
theorem size_after_code_even (r : Region) (cc sc : Nat) (unk1 gc : UInt16) (gs : List Group)
    (codes : List GroupCode) :
    ((writeGroupTable ((((Builder.empty.putAll (headerPieces r cc sc unk1)).place .dataStart).reserve
      (.words .dataStart .codeEnd)).u16 gc) gs).putAll (codePieces cat 0 codes)).size % 2 = 0 := by
  have := itemsSize_even cat (codes.flatMap (·.items))
  simp only [writeGroupTable_eq, Builder.size_putAll, Builder.size_place, Builder.u16_eq,
    Builder.size_append, length_word16, length_raw_headerPieces, length_raw_groupTablePieces,
    length_raw_codePieces, Builder.size_reserve, Builder.size_empty, Field.size, List.length_map]
  split <;> omega

/-- Before the code the writer has placed only the start of the data block. -/
theorem find?_beforeCode (r : Region) (cc sc : Nat) (unk1 gc : UInt16) (gs : List Group)
    {a : Anchor} (h1 : a ≠ .dataStart) :
    (writeGroupTable ((((Builder.empty.putAll (headerPieces r cc sc unk1)).place
      .dataStart).reserve (.words .dataStart .codeEnd)).u16 gc) gs).find? a = none := by
  rw [writeGroupTable_eq, find?_putAll_groupTablePieces, Builder.find?_u16, Builder.find?_reserve,
    Builder.find?_place_of_ne _ _ h1, find?_putAll_headerPieces]
  rfl

/-- After the code it has placed the groups' anchors besides. -/
theorem find?_afterCode (r : Region) (cc sc : Nat) (unk1 gc : UInt16) (gs : List Group)
    (codes : List GroupCode) {a : Anchor} (h1 : a ≠ .dataStart) (h2 : ∀ k, a ≠ .group k) :
    ((writeGroupTable ((((Builder.empty.putAll (headerPieces r cc sc unk1)).place
      .dataStart).reserve (.words .dataStart .codeEnd)).u16 gc) gs).putAll
      (codePieces cat 0 codes)).find? a = none := by
  rw [find?_putAll_codePieces _ h2]
  exact find?_beforeCode r cc sc unk1 gc gs h1

/-- Past the code, with its end placed, the constants' anchor is still free. -/
theorem find?_constData_afterCode (r : Region) (cc sc : Nat) (unk1 gc : UInt16) (gs : List Group)
    (codes : List GroupCode) :
    (((writeGroupTable ((((Builder.empty.putAll (headerPieces r cc sc unk1)).place
      .dataStart).reserve (.words .dataStart .codeEnd)).u16 gc) gs).putAll
      (codePieces cat 0 codes)).place .codeEnd).find? .constData = none := by
  rw [Builder.find?_place_of_ne _ _ (show Anchor.constData ≠ .codeEnd by simp)]
  exact find?_afterCode cat r cc sc unk1 gc gs codes (by simp) (by simp)

/-- Past the constants, with the end of the code and the constants' anchors placed, the
languages' anchors are all still free. -/
theorem languagesFree_afterConstants (r : Region) (cc sc : Nat) (unk1 gc : UInt16)
    (gs : List Group) (codes : List GroupCode) (consts : List (List UInt8)) (bias : Nat) :
    LanguagesFree (((((writeGroupTable ((((Builder.empty.putAll (headerPieces r cc sc unk1)).place
      .dataStart).reserve (.words .dataStart .codeEnd)).u16 gc) gs).putAll
      (codePieces cat 0 codes)).place .codeEnd).putAll (tablePieces consts bias .constData)).place
      .constEnd) 0 := by
  intro k _
  refine ⟨?_, ?_, ?_⟩ <;>
  · rw [Builder.find?_place_of_ne _ _ (by simp), find?_putAll_tablePieces _ _ _ (by simp),
      Builder.find?_place_of_ne _ _ (by simp)]
    exact find?_afterCode cat r cc sc unk1 gc gs codes (by simp) (by simp)

theorem size_putAll_tablePieces_even {α : Type} (b : Builder α) (heven : b.size % 2 = 0)
    (ss : List (List UInt8)) (bias : Nat) (data : α) :
    (b.putAll (tablePieces ss bias data)).size % 2 = 0 := by
  have := length_tableBytes_even ss bias
  simp only [Builder.size_putAll, flatMap_raw_tablePieces]
  omega

/-- The builder the writer ends with has been given the pieces of the image it resolved. -/
theorem putAll_writer_eq (r : Region) (codes : List GroupCode) (consts : List (List UInt8))
    (t : List (List UInt8)) (ts : List (List (List UInt8))) (unk1 : UInt16) (gs : List Group)
    (hkinds : codes.map (fun g => (g.kind, g.unk2)) = gs.map (fun g => (g.kind, g.unk2)))
    (hG : gs.length < 65536) :
    (((((writeGroupTable ((((Builder.empty.putAll (headerPieces r consts.length t.length unk1)).place
      .dataStart).reserve (.words .dataStart .codeEnd)).u16 gs.length.toUInt16) gs).putAll
      (codePieces cat 0 codes)).place .codeEnd).putAll
      (tablePieces consts (2 * t.length) .constData)).place .constEnd).putAll
      (languagePieces (2 * consts.length + (tableBody consts).length) 0 (t :: ts)) =
    Builder.empty.putAll (encodePieces cat ⟨r, codes, consts, t :: ts, unk1⟩) := by
  have hG' : codes.length = gs.length := by simpa using congrArg List.length hkinds
  simp only [writeGroupTable_eq, encodePieces, ← hkinds, Builder.putAll_append,
    Builder.putAll_cons, Builder.putAll_nil, Builder.put, Builder.u16_eq, toNat_toUInt16_of_lt hG,
    Image.stringCount, Image.stringBias, Image.constLen, hG']

/-! ## Writing succeeds exactly on fitting images -/

/-- What writing a script gives is the bytes of its image, which fits the layout. -/
theorem image_of_encode {game : Game} {s : Script} {out : List UInt8}
    (h : Script.encode game s = .ok out) :
    ∃ im, Script.image game s = .ok im ∧ im.Fits game.catalog ∧ out = im.bytes game.catalog := by
  unfold Script.encode at h
  obtain ⟨tables, hr, h⟩ := Except.bind_eq_ok_iff.1 h
  obtain ⟨hlen, t, ts, rfl⟩ := exists_cons_of_regionTables hr
  simp only [bind, Except.bind] at h
  -- one step of the writer per match, each failure contradicting the result
  split at h
  · cases h
  rename_i hd
  split at h; · cases h
  rename_i targets hp
  split at h; · cases h
  rename_i b1 hhdr
  split at h; · cases h
  rename_i b1' hds
  split at h; · cases h
  rename_i gc hgc
  split at h; · cases h
  rename_i b2 hgr
  split at h; · cases h
  rename_i b2' hce
  split at h; · cases h
  rename_i r3 htbl
  split at h; · cases h
  rename_i b3' hcn
  split at h; · cases h
  rename_i b4 hlang
  split at h; swap; · cases h
  rename_i bs hfin
  cases h
  obtain ⟨hu, hcc, hsc, rfl⟩ := (writeHeader_eq_ok_iff _ _ _ _ _ _).1 hhdr
  obtain ⟨-, rfl⟩ := Builder.placeOnce_eq_ok_iff.1 (Except.mapError_eq_ok_iff.1 hds)
  obtain ⟨hG, rfl⟩ := toWord_eq_ok_iff.1 hgc
  rw [writeGroups_eq _ _ _ _ _ _ (fun k _ => find?_beforeCode _ _ _ _ _ _ (by simp))] at hgr
  obtain ⟨codes, hcodes, rfl⟩ := Except.map_eq_ok_iff.1 hgr
  obtain ⟨-, rfl⟩ := Builder.placeOnce_eq_ok_iff.1 (Except.mapError_eq_ok_iff.1 hce)
  obtain ⟨b3, cl⟩ := r3
  have heven2 := size_after_code_even game.catalog game.region s.constants.length t.length s.unk1
    s.groups.length.toUInt16 s.groups codes
  have hcd := find?_constData_afterCode game.catalog game.region s.constants.length t.length s.unk1
    s.groups.length.toUInt16 s.groups codes
  obtain ⟨hconst, rfl, rfl⟩ :=
    (writeTable_eq_ok_iff (Builder.place _ Anchor.codeEnd) heven2 _ _ _ hcd _ _).1 htbl
  obtain ⟨-, rfl⟩ := Builder.placeOnce_eq_ok_iff.1 (Except.mapError_eq_ok_iff.1 hcn)
  have heven3 := size_putAll_tablePieces_even (Builder.place _ Anchor.codeEnd) heven2 s.constants
    (2 * t.length) Anchor.constData
  obtain ⟨htables, rfl⟩ := (writeLanguageTables_eq_ok_iff _ _ _ _ _ (by exact heven3)
    (languagesFree_afterConstants _ _ _ _ _ _ _ _ _ _)).1 hlang
  have hkinds := headers_of_resolveGroups hcodes
  rw [putAll_writer_eq _ _ _ _ _ _ _ _ hkinds hG, finish_putAll,
    fill_encodePieces_eq_ok_iff _ _ hlen] at hfin
  obtain ⟨hspans, rfl⟩ := hfin
  refine ⟨⟨game.region, codes, s.constants, t :: ts, s.unk1⟩, ?_,
    ⟨hu, hcc, hsc, length_of_resolveGroups hcodes ▸ hG, hconst, htables, hspans⟩, rfl⟩
  simpa [Script.image, hr, hp, hcodes, bind, Except.bind, pure, Except.pure] using hd

/-- A script whose image fits the layout is written as the image's bytes. -/
theorem encode_of_image {game : Game} {s : Script} {im : Image}
    (him : Script.image game s = .ok im) (hfit : im.Fits game.catalog) :
    Script.encode game s = .ok (im.bytes game.catalog) := by
  unfold Script.image at him
  obtain ⟨tables, hr, him⟩ := Except.bind_eq_ok_iff.1 him
  obtain ⟨hlen, t, ts, rfl⟩ := exists_cons_of_regionTables hr
  simp only [bind, Except.bind] at him
  split at him
  · cases him
  rename_i hd
  split at him; · cases him
  rename_i targets hp
  split at him; · cases him
  rename_i codes hcodes
  cases him
  obtain ⟨hu, hcc, hsc, hG, hconst, htables, hspans⟩ := hfit
  dsimp only [Image.stringCount, Image.stringBias, Image.constLen] at hu hcc hsc hG hconst htables
  have hG' : s.groups.length < 65536 := length_of_resolveGroups hcodes ▸ hG
  have hhdr := (writeHeader_eq_ok_iff Builder.empty game.region s.constants.length t.length
    s.unk1 _).2 ⟨hu, hcc, hsc, rfl⟩
  have heven2 := size_after_code_even game.catalog game.region s.constants.length t.length s.unk1
    s.groups.length.toUInt16 s.groups codes
  -- run the writer step by step, each step succeeding by its lemma and each anchor free
  unfold Script.encode
  simp only [hr, bind, Except.bind]
  rw [if_neg hd, hp]
  simp only
  rw [hhdr]
  simp only
  rw [Builder.placeOnce_eq_ok (by rw [find?_putAll_headerPieces]; rfl)]
  simp only [Except.mapError]
  rw [toWord_eq_ok_iff.2 ⟨hG', rfl⟩]
  simp only
  rw [writeGroups_eq _ _ _ _ _ _ (fun k _ => find?_beforeCode _ _ _ _ _ _ (by simp)), hcodes]
  simp only [Except.map]
  rw [Builder.placeOnce_eq_ok (find?_afterCode _ _ _ _ _ _ _ _ (by simp) (by simp))]
  simp only
  have hcd := find?_constData_afterCode game.catalog game.region s.constants.length t.length s.unk1
    s.groups.length.toUInt16 s.groups codes
  rw [(writeTable_eq_ok_iff (Builder.place _ Anchor.codeEnd) heven2 _ _ _ hcd _ _).2
    ⟨hconst, rfl, rfl⟩]
  simp only
  rw [Builder.placeOnce_eq_ok (by
    rw [find?_putAll_tablePieces _ _ _ (by simp), Builder.find?_place_of_ne _ _ (by simp)]
    exact find?_afterCode _ _ _ _ _ _ _ _ (by simp) (by simp))]
  simp only
  rw [(writeLanguageTables_eq_ok_iff _ _ _ _ _
    (by exact size_putAll_tablePieces_even (Builder.place _ Anchor.codeEnd) heven2 _ _ _)
    (languagesFree_afterConstants _ _ _ _ _ _ _ _ _ _)).2 ⟨htables, rfl⟩]
  simp only
  rw [putAll_writer_eq _ _ _ _ _ _ _ _ (headers_of_resolveGroups hcodes) hG', finish_putAll,
    (fill_encodePieces_eq_ok_iff _ _ hlen _).2 ⟨hspans, rfl⟩]
  rfl

/-- Writing a script succeeds exactly when its image fits the layout, and gives the image's
bytes. -/
theorem encode_eq_ok_iff (game : Game) (s : Script) (out : List UInt8) :
    Script.encode game s = .ok out ↔
      ∃ im, Script.image game s = .ok im ∧ im.Fits game.catalog ∧ out = im.bytes game.catalog := by
  constructor
  · exact image_of_encode
  · rintro ⟨im, him, hfit, rfl⟩
    exact encode_of_image him hfit

end Script

end DungeonFormats
