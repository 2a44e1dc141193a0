import Mathlib
import DungeonFormats.Proofs.CodePositions
import DungeonFormats.Proofs.WriteRefusals

/-!
# Where the writer puts each instruction

Writing a script computes every label's offset in a pass of its own (`placeLabels`), from the
sizes of the instructions before the label, before it writes a byte. This module shows that the
pass and the bytes agree. The writer emits for each instruction exactly as many bytes as its size
(`length_emitted`), one instruction after another from the end of the group table; so a label's
offset is where, past the header, the next byte emitted after it lies, a jump parameter naming the
label holds half that offset, and each entry of the group table holds, in words, where its
group's first byte lies (`encode_lays_out_code`).
-/

namespace DungeonFormats.Script

/-! ## Words of written bytes -/

theorem wordAt?_append_left (xs ys : List UInt8) (o : Nat) :
    wordAt? (xs ++ ys) (xs.length + o) = wordAt? ys o := by
  simp [wordAt?, List.getElem?_append_right, Nat.add_assoc]

theorem wordAt?_wordBytes (r : List UInt8) :
    ∀ (ns : List Nat) (i : Nat) (hi : i < ns.length),
      wordAt? (wordBytes ns ++ r) (2 * i) = some ns[i].toUInt16
  | [], _, hi => absurd hi (Nat.not_lt_zero _)
  | n :: ns, 0, _ => by
    obtain ⟨a, b, hab, hw⟩ := wordOf_word16 n
    simp [wordBytes_cons, hab, wordAt?, hw]
  | n :: ns, i + 1, hi => by
    have hlen : (word16 n).length = 2 := length_word16 n
    rw [wordBytes_cons, List.append_assoc, show 2 * (i + 1) = (word16 n).length + 2 * i by omega,
      wordAt?_append_left, wordAt?_wordBytes r ns i (by simpa using hi), List.getElem_cons_succ]

/-- A parameter of a command the catalog describes is written at its place. -/
theorem wordAt?_codeBytes_param {cat : Catalog} {c : Command} {info : OpcodeInfo}
    (hinfo : cat.info c.opcode = some info) (r : List UInt8) {i : Nat} (hi : i < c.params.length) :
    wordAt? (cat.codeBytes [.command c] ++ r) (info.paramOffset i) = some c.params[i] := by
  have hvar : cat.isVariadic c.opcode = info.isVariadic := isVariadic_of_info cat hinfo
  rw [codeBytes_singleton]
  simp only [Catalog.itemWords, hvar]
  by_cases hv : info.isVariadic
  · have hoff : info.paramOffset i = 2 * (i + 2) := by simp [OpcodeInfo.paramOffset, hv]; omega
    rw [hoff, wordAt?_wordBytes r _ _ (by simp [hv]; omega)]
    simp [hv]
  · have hoff : info.paramOffset i = 2 * (i + 1) := by simp [OpcodeInfo.paramOffset, hv]; omega
    rw [hoff, wordAt?_wordBytes r _ _ (by simp [hv]; omega)]
    simp [hv]

/-! ## The bytes of each instruction -/

/-- The bytes the writer emits for an instruction, each jump resolved through the placed labels
`targets` and the raw targets `raw`: a data word as itself, a label as nothing, any other
instruction as its commands. -/
def emitted (cat : Catalog) (targets : List (LabelId × Nat)) (raw : List (LabelId × UInt16))
    (i : Instruction) : List UInt8 :=
  cat.codeBytes (i.items.map (cat.mapItem (resolvedWord targets raw)))

section Emitted

variable (cat : Catalog) (targets : List (LabelId × Nat)) (raw : List (LabelId × UInt16))

/-- Each instruction is emitted as exactly as many bytes as its size. -/
@[simp] theorem length_emitted (i : Instruction) :
    (emitted cat targets raw i).length = cat.instructionSize i := by
  rw [emitted, length_codeBytes, Catalog.itemsSize_map_mapItem, instructionSize_eq]

/-- Instructions are emitted one after another as the code of their items, resolved. -/
theorem flatten_map_emitted (is : List Instruction) :
    (is.map (emitted cat targets raw)).flatten =
      cat.codeBytes ((is.flatMap Instruction.items).map (cat.mapItem (resolvedWord targets raw))) := by
  induction is with
  | nil => rfl
  | cons i is ih => simp [emitted, ih]

theorem length_flatten_emitted (is : List Instruction) :
    (is.map (emitted cat targets raw)).flatten.length = cat.itemsSize (is.flatMap Instruction.items) := by
  rw [flatten_map_emitted, length_codeBytes, Catalog.itemsSize_map_mapItem]

/-- An instruction with commands stands for them. -/
theorem items_of_commands_eq {i : Instruction} {cs cs' : List Command} {c : Command}
    (h : i.commands = cs ++ c :: cs') : i.items = i.commands.map .command := by
  cases i <;> simp_all [Instruction.commands, Instruction.items]

/-- A jump parameter of a command `c` that an instruction holds after the commands `cs` is
emitted, at its place past them, as the word resolved for it. -/
theorem wordAt?_emitted_jump {i : Instruction} {cs cs' : List Command} {c : Command}
    {info : OpcodeInfo} (h : i.commands = cs ++ c :: cs') (hinfo : cat.info c.opcode = some info)
    (r : List UInt8) {k : Nat} (hk : k < c.params.length) (hjump : (info.kindAt k).isJump) :
    wordAt? (emitted cat targets raw i ++ r) (cat.commandsSize cs + info.paramOffset k) =
      some (resolvedWord targets raw c.params[k]) := by
  have hbefore : cat.commandsSize cs =
      (cat.codeBytes ((cs.map .command).map (cat.mapItem (resolvedWord targets raw)))).length := by
    rw [length_codeBytes, Catalog.itemsSize_map_mapItem, commandsSize_eq]
  rw [emitted, items_of_commands_eq h, h, List.map_append, List.map_append, List.map_cons,
    List.map_cons, Catalog.mapItem_command_of_info _ hinfo, codeBytes_append, codeBytes_cons, hbefore, List.append_assoc,
    wordAt?_append_left, List.append_assoc,
    wordAt?_codeBytes_param (c := ⟨c.opcode, mapParams info (resolvedWord targets raw) 0 c.params⟩)
      hinfo _ (by simpa using hk),
    getElem_mapParams info _ c.params k hk, if_pos hjump]

end Emitted

/-! ## Labels and group starts -/

/-- A label among instructions laid out from `o` is placed at `o` plus the size of the
instructions before it. -/
theorem mem_labelOffsets_of_eq (cat : Catalog) {is before after : List Instruction} {l : LabelId}
    (h : is = before ++ .label l :: after) (o : Nat) :
    (l, o + cat.itemsSize (before.flatMap Instruction.items)) ∈ labelOffsets cat o is := by
  rw [h, labelOffsets_append]
  simp [labelOffsets, Instruction.label?]

/-- The words of the group table, for groups from the start `n` on: per group, its start in
words, its kind and its spare word. The entry of a group holds half of where its items start. -/
theorem getElem?_groupTableWords (cat : Catalog) :
    ∀ (n : Nat) (gs gs' : List GroupCode) (g : GroupCode),
      (((gs ++ g :: gs').zip (groupStarts cat n (gs ++ g :: gs'))).flatMap
        fun p => [p.2 / 2, p.1.kind.toNat, p.1.unk2.toNat])[3 * gs.length]? =
        some ((n + cat.itemsSize (gs.flatMap (·.items))) / 2)
  | n, [], gs', g => by simp [groupStarts, Catalog.itemsSize]
  | n, x :: xs, gs', g => by
    have ih := getElem?_groupTableWords cat (n + cat.itemsSize x.items) xs gs' g
    rw [List.cons_append, groupStarts, List.zip_cons_cons, List.flatMap_cons,
      show 3 * (x :: xs).length = 3 * xs.length + 3 by simp; omega]
    simp only [List.cons_append, List.nil_append, List.getElem?_cons_succ, ih, List.flatMap_cons,
      itemsSize_append, Nat.add_assoc]

theorem Image.length_groupTable (cat : Catalog) (im : Image) :
    (im.groupTable cat).length = 6 * im.groups.length := by
  simp [Image.groupTable, length_groupStarts]
  omega

/-- A header with one string table length per language of its region takes `Header.size`
bytes. -/
theorem Image.length_header (cat : Catalog) (im : Image)
    (h : im.tables.length = im.region.languages.length) :
    (im.header cat).length = Header.size im.region := by
  cases hr : im.region <;> simp [Image.header, h, hr, Region.languages, Header.size]

/-! ## The code in the written bytes -/

/-- How bytes `b` written for the script `s` hold its code, the header taking `h` bytes and each
label placed at its offset in `targets`. -/
structure CodeWritten (cat : Catalog) (s : Script) (targets : List (LabelId × Nat)) (h : Nat)
    (b : List UInt8) : Prop where
  /-- Past the header, the head of the data block and the group table come the bytes emitted
  for the instructions, one after another. -/
  layout : ∃ pre post, pre.length = h + (4 + 6 * s.groups.length) ∧
    b = pre ++ (s.instructions.map (emitted cat targets s.rawTargets)).flatten ++ post
  /-- Each instruction takes as many bytes as its size: none for a label, two for a data word,
  and per command two for the opcode, two per parameter and two for a variadic count word. -/
  size : ∀ i ∈ s.instructions, (emitted cat targets s.rawTargets i).length = cat.instructionSize i
  /-- A label's offset is where, past the header, the next byte emitted after it lies. -/
  label : ∀ before l after, s.instructions = before ++ .label l :: after →
    targets.lookup l =
      some (4 + 6 * s.groups.length + (before.map (emitted cat targets s.rawTargets)).flatten.length)
  /-- A jump parameter naming a placed label holds half the label's offset. -/
  jump : ∀ before i after, s.instructions = before ++ i :: after →
    ∀ cs c cs', i.commands = cs ++ c :: cs' → ∀ info, cat.info c.opcode = some info →
    ∀ k (hk : k < c.params.length), (info.kindAt k).isJump →
    ∀ o, targets.lookup ⟨c.params[k]⟩ = some o →
      (wordAt? b (h + (4 + 6 * s.groups.length) +
        (before.map (emitted cat targets s.rawTargets)).flatten.length + cat.commandsSize cs +
          info.paramOffset k)).map UInt16.toNat = some (o / 2)
  /-- A group's entry in the group table starts with the offset in words, past the header, of
  the first byte emitted for the group. -/
  groupStart : ∀ gs g gs', s.groups = gs ++ g :: gs' →
    (wordAt? b (h + 4 + 6 * gs.length)).map UInt16.toNat =
      some ((4 + 6 * s.groups.length +
        ((gs.flatMap (·.instructions)).map (emitted cat targets s.rawTargets)).flatten.length) / 2)

/-- The code of an image stands in its bytes past the header, the data block's head and the
group table. -/
theorem Image.code_split (cat : Catalog) (im : Image)
    (h : im.tables.length = im.region.languages.length) :
    ∃ pre post, pre.length = Header.size im.region + im.codeStart ∧
      im.bytes cat = pre ++ cat.codeBytes im.items ++ post := by
  refine ⟨im.header cat ++ (wordBytes [im.dataLen cat / 2, im.groups.length] ++ im.groupTable cat),
    tableBytes im.constants (2 * im.stringCount) ++ im.tables.flatMap (tableBytes · im.stringBias),
    ?_, by simp [Image.bytes, Image.dataBlock]⟩
  simp only [List.length_append, Image.length_header cat im h, length_wordBytes, Image.length_groupTable,
    Image.codeStart, List.length_cons, List.length_nil]

/-- The entry of a group in an image's group table starts with half the offset of the group's
items in the data block. -/
theorem Image.wordAt?_groupStart (cat : Catalog) (im : Image)
    (h : im.tables.length = im.region.languages.length) {gs gs' : List GroupCode} {g : GroupCode}
    (hg : im.groups = gs ++ g :: gs') :
    wordAt? (im.bytes cat) (Header.size im.region + 4 + 6 * gs.length) =
      some ((im.codeStart + cat.itemsSize (gs.flatMap (·.items))) / 2).toUInt16 := by
  have hwords : (wordBytes [im.dataLen cat / 2, im.groups.length]).length = 4 := by simp
  rw [Image.bytes, Image.dataBlock, ← Image.length_header cat im h, List.append_assoc, List.append_assoc,
    Nat.add_assoc, wordAt?_append_left, ← hwords, List.append_assoc, List.append_assoc,
    wordAt?_append_left, Image.groupTable, show 6 * gs.length = 2 * (3 * gs.length) by omega]
  have hget := getElem?_groupTableWords cat im.codeStart gs gs' g
  rw [← hg] at hget
  obtain ⟨hlt, hval⟩ := List.getElem?_eq_some_iff.1 hget
  rw [wordAt?_wordBytes _ _ _ hlt, hval]

/-- A jump parameter naming a label placed at `o` is written as half of `o`, a word when the
parameter is resolvable. -/
theorem toNat_resolvedWord {targets : List (LabelId × Nat)} {raw : List (LabelId × UInt16)}
    {p : UInt16} {o : Nat} (ho : targets.lookup ⟨p⟩ = some o) (hres : Resolvable targets raw p) :
    (resolvedWord targets raw p).toNat = o / 2 := by
  simp only [Resolvable, ho] at hres
  simp only [resolvedWord, ho]
  exact toNat_toUInt16_of_lt (by omega)

/-- Every jump parameter of a writable instruction is resolvable. -/
theorem resolvable_of_jump {cat : Catalog} {targets : List (LabelId × Nat)}
    {raw : List (LabelId × UInt16)} {i : Instruction} (hw : Writable cat targets raw i) {c : Command}
    (hc : c ∈ i.commands) {info : OpcodeInfo} (hinfo : cat.info c.opcode = some info) {k : Nat}
    (hk : k < c.params.length) (hjump : (info.kindAt k).isJump) :
    Resolvable targets raw c.params[k] := by
  exact (hw c hc).2 _ (Catalog.getElem_mem_commandJumps hinfo hk hjump)

/-- The groups of a resolved image split where the script's groups do, the groups before the
split holding as many bytes of items as the script's. -/
theorem resolvedImage_groups_split (game : Game) (s : Script) {gs gs' : List Group} {g : Group}
    (hg : s.groups = gs ++ g :: gs') :
    ∃ rs r rs', (s.resolvedImage game).groups = rs ++ r :: rs' ∧ rs.length = gs.length ∧
      game.catalog.itemsSize (rs.flatMap (·.items)) = game.catalog.itemsSize (gs.flatMap Group.items) := by
  obtain ⟨R, hR, hitems⟩ : ∃ R : Group → GroupCode, (s.resolvedImage game).groups = s.groups.map R ∧
      ∀ gs : List Group, (gs.map R).flatMap (·.items) = (gs.flatMap Group.items).map
        (game.catalog.mapItem (resolvedWord (s.placements game.catalog).reverse s.rawTargets)) :=
    ⟨_, rfl, flatMap_items_resolved _ _⟩
  refine ⟨gs.map R, R g, gs'.map R, ?_, List.length_map .., ?_⟩
  · rw [hR, hg, List.map_append, List.map_cons]
  · rw [hitems, Catalog.itemsSize_map_mapItem]

/-! ## The code of a resolved image -/

section Resolved

variable (game : Game) (s : Script)

/-- A resolved image has one string table per language of its region. -/
theorem length_resolvedImage_tables :
    (s.resolvedImage game).tables.length = (s.resolvedImage game).region.languages.length := by
  simp [Script.regionStrings]

/-- A resolved image holds, past the header, the data block's head and the group table, the
bytes emitted for the script's instructions one after another. -/
theorem resolvedImage_bytes_split :
    ∃ pre post, pre.length = Header.size game.region + (4 + 6 * s.groups.length) ∧
      (s.resolvedImage game).bytes game.catalog = pre ++
        (s.instructions.map (emitted game.catalog (s.placements game.catalog).reverse s.rawTargets)).flatten ++
          post := by
  have hcode : game.catalog.codeBytes (s.resolvedImage game).items =
      (s.instructions.map (emitted game.catalog (s.placements game.catalog).reverse s.rawTargets)).flatten := by
    rw [flatten_map_emitted, Image.items, Script.resolvedImage, flatMap_items_resolved, Script.instructions,
      List.flatMap_assoc]
    rfl
  obtain ⟨pre, post, hpre, hbytes⟩ := Image.code_split game.catalog _ (length_resolvedImage_tables game s)
  refine ⟨pre, post, by simpa [Image.codeStart] using hpre, ?_⟩
  rw [hbytes, hcode]

/-- With no label placed twice, each label is found at the offset of the next byte emitted
after it. -/
theorem lookup_placements_label (cat : Catalog) (hnd : ((s.placements cat).map (·.1)).Nodup)
    {before after : List Instruction} {l : LabelId} (h : s.instructions = before ++ .label l :: after) :
    (s.placements cat).reverse.lookup l =
      some (4 + 6 * s.groups.length + (before.map (emitted cat (s.placements cat).reverse s.rawTargets)).flatten.length) := by
  rw [length_flatten_emitted]
  refine lookup_eq_some_of_mem (by rw [List.map_reverse, List.nodup_reverse]; exact hnd)
    (List.mem_reverse.2 ?_)
  exact mem_labelOffsets_of_eq cat h _

/-- In a resolved image of writable instructions, a jump parameter naming a placed label holds
half the label's offset. -/
theorem resolvedImage_wordAt?_jump
    (hall : ∀ g ∈ s.groups, ∀ i ∈ g.instructions,
      Writable game.catalog (s.placements game.catalog).reverse s.rawTargets i)
    {before after : List Instruction} {i : Instruction} (h : s.instructions = before ++ i :: after)
    {cs cs' : List Command} {c : Command} (hcs : i.commands = cs ++ c :: cs') {info : OpcodeInfo}
    (hinfo : game.catalog.info c.opcode = some info) {k : Nat} (hk : k < c.params.length)
    (hjump : (info.kindAt k).isJump) {o : Nat}
    (ho : (s.placements game.catalog).reverse.lookup ⟨c.params[k]⟩ = some o) :
    (wordAt? ((s.resolvedImage game).bytes game.catalog) (Header.size game.region + (4 + 6 * s.groups.length) +
      (before.map (emitted game.catalog (s.placements game.catalog).reverse s.rawTargets)).flatten.length +
        game.catalog.commandsSize cs + info.paramOffset k)).map UInt16.toNat = some (o / 2) := by
  have hmem : i ∈ s.instructions := by rw [h]; simp
  obtain ⟨g, hg, hi⟩ := List.mem_flatMap.1 hmem
  have hres := resolvable_of_jump (hall g hg i hi) (by rw [hcs]; simp) hinfo hk hjump
  obtain ⟨pre, post, hpre, hbytes⟩ := resolvedImage_bytes_split game s
  rw [hbytes, h, List.map_append, List.map_cons, List.flatten_append, List.flatten_cons, ← hpre]
  simp only [List.append_assoc, Nat.add_assoc]
  rw [wordAt?_append_left, wordAt?_append_left, wordAt?_emitted_jump _ _ _ hcs hinfo _ hk hjump,
    Option.map_some, toNat_resolvedWord ho hres]

/-- In a resolved image that fits the layout, a group's entry in the group table holds, in words,
the offset past the header of the first byte emitted for the group. -/
theorem resolvedImage_wordAt?_groupStart (hfit : (s.resolvedImage game).Fits game.catalog)
    {gs gs' : List Group} {g : Group} (hg : s.groups = gs ++ g :: gs') :
    (wordAt? ((s.resolvedImage game).bytes game.catalog) (Header.size game.region + 4 + 6 * gs.length)).map
        UInt16.toNat =
      some ((4 + 6 * s.groups.length + ((gs.flatMap (·.instructions)).map
        (emitted game.catalog (s.placements game.catalog).reverse s.rawTargets)).flatten.length) / 2) := by
  obtain ⟨rs, r, rs', hrs, hlen, hsize⟩ := resolvedImage_groups_split game s hg
  have hw := Image.wordAt?_groupStart game.catalog _ (length_resolvedImage_tables game s) hrs
  rw [resolvedImage_region, hlen] at hw
  have hle : game.catalog.itemsSize (rs.flatMap (·.items)) ≤
      game.catalog.itemsSize (s.resolvedImage game).items := by
    rw [Image.items, hrs, List.flatMap_append, itemsSize_append]
    omega
  have hspan := hfit.spans.scriptLen
  rw [Image.dataLen] at hspan
  rw [hw, Option.map_some, toNat_toUInt16_of_lt (by omega), Image.codeStart, length_resolvedImage_groups,
    hsize, length_flatten_emitted, List.flatMap_assoc]
  rfl

end Resolved

/-- Writing a script lays out its code as the label pass says. The writer emits for each
instruction as many bytes as its size, one instruction after another from the end of the group
table; every label is placed at the offset, past the header, of the next byte emitted after it,
every jump parameter naming a placed label holds half that offset, and every entry of the group
table holds, in words, the offset of the first byte emitted for its group. -/
theorem encode_lays_out_code (game : Game) (s : Script) (b : List UInt8)
    (hb : Script.encode game s = .ok b) :
    ∃ targets, placeLabels game.catalog s.rawTargets s.instructions (4 + 6 * s.groups.length) [] =
      .ok targets ∧ CodeWritten game.catalog s targets (Header.size game.region) b := by
  obtain ⟨im, him, hfit, rfl⟩ := image_of_encode hb
  obtain ⟨-, -, hnd, hfresh, hall, rfl⟩ := (image_eq_ok_iff game s im).1 him
  rw [labelsOf_instructions s game.catalog] at hnd hfresh
  have hp : placeLabels game.catalog s.rawTargets s.instructions (4 + 6 * s.groups.length) [] =
      .ok (s.placements game.catalog).reverse := by
    rw [placeLabels_eq_ok_iff, List.append_nil]
    exact ⟨hnd, fun l hl => ⟨rfl, hfresh l hl⟩, rfl⟩
  refine ⟨_, hp, ⟨resolvedImage_bytes_split game s, fun i _ => length_emitted _ _ _ i, ?_, ?_, ?_⟩⟩
  · intro before l after h
    exact lookup_placements_label s game.catalog hnd h
  · intro before i after h cs c cs' hcs info hinfo k hk hjump o ho
    exact resolvedImage_wordAt?_jump game s hall h hcs hinfo hk hjump ho
  · intro gs g gs' hg
    exact resolvedImage_wordAt?_groupStart game s hfit hg

/-- A game on the catalog of the label examples, its scripts with North American headers. -/
def callGame : Game :=
  ⟨.northAmerica, .sky, exampleCatalog, rfl⟩

/-- Two groups: the first calls through a variadic command into the second, whose label the
second group's own jump also names. -/
def callScript : Script :=
  ⟨[⟨0, 0, [.command ⟨9, [0, 0]⟩, .command ⟨10, []⟩]⟩, ⟨1, 0, [.label ⟨0⟩, .command ⟨2, [0]⟩]⟩], [],
    PerLanguage.ofList [(.english, [])], [], 0⟩

/-- The bytes `callScript` is written as. -/
def callScriptBytes : List UInt8 :=
  [0, 0, 0, 0, 15, 0, 0, 0, 0, 0, 0, 0, 15, 0, 2, 0, 8, 0, 0, 0, 0, 0, 13, 0, 1, 0, 0, 0,
    9, 0, 2, 0, 0, 0, 13, 0, 10, 0, 2, 0, 13, 0]

/-- The label lies past the group table of two entries and the first group's ten bytes, at 26;
both jumps and the second group's entry hold 13. -/
theorem encode_lays_out_call_script :
    Script.encode callGame callScript = .ok callScriptBytes ∧
      placeLabels exampleCatalog [] callScript.instructions 16 [] = .ok [(⟨0⟩, 26)] ∧
      CodeWritten exampleCatalog callScript [(⟨0⟩, 26)] 12 callScriptBytes := by
  have henc : Script.encode callGame callScript = .ok callScriptBytes := by decide +kernel
  have hplace : placeLabels exampleCatalog [] callScript.instructions 16 [] = .ok [(⟨0⟩, 26)] := by
    decide +kernel
  obtain ⟨targets, hp, hw⟩ := encode_lays_out_code callGame callScript callScriptBytes henc
  have htargets : targets = [(⟨0⟩, 26)] := by
    rw [← Except.ok.injEq]
    exact hp.symm.trans hplace
  subst htargets
  exact ⟨henc, hplace, hw⟩

end DungeonFormats.Script
