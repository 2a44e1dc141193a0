import Mathlib
import DungeonFormats.Proofs.ScriptRead

/-!
# Reading code back

The reader turns each jump parameter into the label of its target, noting targets in the order
it meets them. That is a map over the jump parameters (`Catalog.mapItem`) by the index of each
target in the table the whole code ends with (`relabelItems_eq`), so reading code written from
resolved labels composes with the resolution as maps do. On the bytes of items that read back
as themselves (`Catalog.Readable`) the reader is exactly this relabeling
(`decodeItems_codeBytes`); on any bytes it relabels the items it finds (`decodeItems_relabels`).
-/

namespace DungeonFormats.Script

/-! ## Parameter values -/

theorem paramValue_of_lt {w : UInt16} (h : w.toNat < 0x4000) : paramValue w = w.toNat := by
  unfold paramValue
  dsimp only
  rw [if_neg (by omega), Nat.mod_eq_of_lt (by omega)]
  exact Int.bmod_eq_of_le (by omega) (by omega)

theorem paramValue_lt (w : UInt16) : paramValue w < 0x4000 := by
  unfold paramValue
  dsimp only
  generalize hv : (((w.toNat % 0x8000 : Nat) : Int).bmod 0x8000) = v
  have hlt : v < 0x4000 := hv ▸ Int.bmod_lt (by decide)
  split
  · -- a word with bit 15 set is divided by 256, towards zero
    by_cases h : 0 ≤ v
    · have := Int.tdiv_le_self 256 h
      omega
    · have h1 : (-v).tdiv 256 = -(v.tdiv 256) := Int.neg_tdiv v 256
      have h2 := Int.tdiv_nonneg (a := -v) (b := 256) (by omega) (by decide)
      omega
  · omega

/-- A jump written as half its even target, below `0x4000` words, points back at it. -/
theorem jumpTarget_half {o : Nat} (heven : o % 2 = 0) (h : o / 2 < 0x4000) :
    jumpTarget (o / 2).toUInt16 = o := by
  have hw : (o / 2).toUInt16.toNat = o / 2 := toNat_toUInt16_of_lt (by omega)
  rw [jumpTarget, paramValue_of_lt (by omega), hw]
  omega

/-! ## Jump parameters -/

section Jumps

variable (info : OpcodeInfo) (f g : UInt16 → UInt16)

/-- The parameters from index `i` on, each jump parameter replaced by `f` of it. -/
def mapParams : Nat → List UInt16 → List UInt16
  | _, [] => []
  | i, p :: ps => (if (info.kindAt i).isJump then f p else p) :: mapParams (i + 1) ps

/-- The jump parameters among those from index `i` on. -/
def jumpParams : Nat → List UInt16 → List UInt16
  | _, [] => []
  | i, p :: ps => (if (info.kindAt i).isJump then [p] else []) ++ jumpParams (i + 1) ps

@[simp] theorem length_mapParams : ∀ (i : Nat) (ps : List UInt16),
    (mapParams info f i ps).length = ps.length
  | _, [] => rfl
  | i, _ :: ps => by simp [mapParams, length_mapParams (i + 1) ps]

theorem mapParams_mapParams : ∀ (i : Nat) (ps : List UInt16),
    mapParams info f i (mapParams info g i ps) = mapParams info (f ∘ g) i ps
  | _, [] => rfl
  | i, p :: ps => by
    simp only [mapParams, mapParams_mapParams (i + 1) ps]
    split <;> simp_all

theorem jumpParams_mapParams : ∀ (i : Nat) (ps : List UInt16),
    jumpParams info i (mapParams info f i ps) = (jumpParams info i ps).map f
  | _, [] => rfl
  | i, p :: ps => by
    simp only [mapParams, jumpParams, jumpParams_mapParams (i + 1) ps]
    split <;> simp_all

/-- Maps that agree on the jump parameters map the parameters alike. -/
theorem mapParams_congr : ∀ (i : Nat) (ps : List UInt16), (∀ w ∈ jumpParams info i ps, f w = g w) →
    mapParams info f i ps = mapParams info g i ps
  | _, [], _ => rfl
  | i, p :: ps, h => by
    simp only [jumpParams, List.mem_append] at h
    simp only [mapParams, mapParams_congr (i + 1) ps (fun w hw => h w (.inr hw))]
    split
    · rename_i hj
      simp [h p (.inl (by simp [hj]))]
    · rfl

theorem mapParams_id : ∀ (i : Nat) (ps : List UInt16), mapParams info id i ps = ps
  | _, [] => rfl
  | i, p :: ps => by
    simp only [mapParams, mapParams_id (i + 1) ps]
    split <;> rfl

end Jumps

namespace Catalog

variable (cat : Catalog) (f g : UInt16 → UInt16)

/-- A command with each jump parameter replaced by `f` of it; a command the catalog does not
describe has none. -/
def mapCommand (c : Command) : Command :=
  match cat.info c.opcode with
  | some info => ⟨c.opcode, mapParams info f 0 c.params⟩
  | none => c

/-- The jump parameters of a command. -/
def commandJumps (c : Command) : List UInt16 :=
  match cat.info c.opcode with
  | some info => jumpParams info 0 c.params
  | none => []

/-- An item with each jump parameter replaced by `f` of it. -/
def mapItem : Item → Item
  | .command c => .command (cat.mapCommand f c)
  | .data w => .data w

/-- The jump parameters of an item. -/
def itemJumps : Item → List UInt16
  | .command c => cat.commandJumps c
  | .data _ => []

@[simp] theorem mapCommand_opcode (c : Command) : (cat.mapCommand f c).opcode = c.opcode := by
  unfold mapCommand
  split <;> rfl

@[simp] theorem length_mapCommand_params (c : Command) :
    (cat.mapCommand f c).params.length = c.params.length := by
  unfold mapCommand
  split <;> simp

theorem mapItem_mapItem (it : Item) : cat.mapItem f (cat.mapItem g it) = cat.mapItem (f ∘ g) it := by
  cases it with
  | data w => rfl
  | command c =>
    simp only [mapItem, mapCommand, Item.command.injEq]
    cases h : cat.info c.opcode with
    | none => simp [h]
    | some info => simp [h, mapParams_mapParams]

theorem itemJumps_mapItem (it : Item) : cat.itemJumps (cat.mapItem f it) = (cat.itemJumps it).map f := by
  cases it with
  | data w => rfl
  | command c =>
    simp only [mapItem, itemJumps, commandJumps, mapCommand]
    cases h : cat.info c.opcode with
    | none => simp [h]
    | some info => simp [h, jumpParams_mapParams]

theorem mapItem_congr (it : Item) (h : ∀ w ∈ cat.itemJumps it, f w = g w) :
    cat.mapItem f it = cat.mapItem g it := by
  cases it with
  | data w => rfl
  | command c =>
    simp only [itemJumps, commandJumps] at h
    simp only [mapItem, mapCommand, Item.command.injEq]
    cases hi : cat.info c.opcode with
    | none => rfl
    | some info =>
      simp only [hi] at h
      simp [mapParams_congr info f g 0 c.params h]

theorem mapItem_id (it : Item) : cat.mapItem id it = it := by
  cases it with
  | data w => rfl
  | command c =>
    simp only [mapItem, mapCommand]
    split <;> simp [mapParams_id]

@[simp] theorem itemSize_mapItem (it : Item) : cat.itemSize (cat.mapItem f it) = cat.itemSize it := by
  cases it with
  | data w => rfl
  | command c => simp [mapItem, itemSize, commandSize]

@[simp] theorem itemsSize_map_mapItem (its : List Item) :
    cat.itemsSize (its.map (cat.mapItem f)) = cat.itemsSize its := by
  induction its with
  | nil => rfl
  | cons it its ih => simp [itemsSize, ih]

end Catalog

/-! ## The label table -/

namespace LabelTable

/-- The table after noting the targets of jump words, in order. -/
def noteAll (t : LabelTable) (ws : List UInt16) : LabelTable :=
  ws.foldl (fun t w => (t.note (jumpTarget w) w).1) t

/-- The table with each first word replaced by `f` of it. -/
def mapWords (f : UInt16 → UInt16) (t : LabelTable) : LabelTable :=
  ⟨t.targets.map fun p => (p.1, f p.2)⟩

/-- The label a jump word reads as in the table: the index of its target. -/
def labelOf (t : LabelTable) (w : UInt16) : UInt16 :=
  ((t.idOf? (jumpTarget w)).getD 0).toUInt16

variable (t : LabelTable)

@[simp] theorem noteAll_nil : t.noteAll [] = t := rfl

theorem noteAll_cons (w : UInt16) (ws : List UInt16) :
    t.noteAll (w :: ws) = (t.note (jumpTarget w) w).1.noteAll ws := rfl

theorem noteAll_append (ws vs : List UInt16) : t.noteAll (ws ++ vs) = (t.noteAll ws).noteAll vs := by
  simp [noteAll, List.foldl_append]

/-- Noting a target adds it at the end, if it is new. -/
theorem targets_note (o : Int) (w : UInt16) :
    (t.note o w).1.targets = t.targets ++ (if (t.idOf? o).isSome then [] else [(o, w)]) := by
  unfold note
  cases t.idOf? o <;> simp

/-- A target found in a table keeps its index in every extension of it. -/
theorem idOf?_append {o : Int} {i : Nat} (h : t.idOf? o = some i) (more : List (Int × UInt16)) :
    (⟨t.targets ++ more⟩ : LabelTable).idOf? o = some i := by
  simp only [idOf?, List.findIdx?_append] at h ⊢
  simp [h]

theorem exists_targets_noteAll (ws : List UInt16) : ∃ more, (t.noteAll ws).targets = t.targets ++ more := by
  induction ws generalizing t with
  | nil => exact ⟨[], by simp⟩
  | cons w ws ih =>
    obtain ⟨more, hmore⟩ := ih (t.note (jumpTarget w) w).1
    refine ⟨(if (t.idOf? (jumpTarget w)).isSome then [] else [(jumpTarget w, w)]) ++ more, ?_⟩
    rw [noteAll_cons, hmore, targets_note, List.append_assoc]

theorem idOf?_noteAll {o : Int} {i : Nat} (h : t.idOf? o = some i) (ws : List UInt16) :
    (t.noteAll ws).idOf? o = some i := by
  obtain ⟨more, hmore⟩ := t.exists_targets_noteAll ws
  have := t.idOf?_append h more
  rwa [← hmore] at this

/-- The label a target is given is its index in the table after it. -/
theorem idOf?_note (o : Int) (w : UInt16) :
    ∃ i, (t.note o w).1.idOf? o = some i ∧ (t.note o w).2 = ⟨i.toUInt16⟩ := by
  unfold note
  cases h : t.idOf? o with
  | some i => exact ⟨i, h, rfl⟩
  | none =>
    refine ⟨t.targets.length, ?_, rfl⟩
    have hnone : t.targets.findIdx? (·.1 == o) = none := h
    simp [idOf?, List.findIdx?_append, hnone]

/-- Every noted target is in the table. -/
theorem isSome_idOf?_noteAll {w : UInt16} {ws : List UInt16} (hw : w ∈ ws) :
    ((t.noteAll ws).idOf? (jumpTarget w)).isSome := by
  induction ws generalizing t with
  | nil => cases hw
  | cons v ws ih =>
    rw [noteAll_cons]
    rcases List.mem_cons.1 hw with rfl | hw
    · obtain ⟨i, hi, -⟩ := t.idOf?_note (jumpTarget w) w
      simp [idOf?_noteAll _ hi]
    · exact ih _ hw

theorem labelOf_noteAll {w : UInt16} (hw : (t.idOf? (jumpTarget w)).isSome) (ws : List UInt16) :
    (t.noteAll ws).labelOf w = t.labelOf w := by
  obtain ⟨i, hi⟩ := Option.isSome_iff_exists.1 hw
  simp [labelOf, hi, idOf?_noteAll _ hi]

@[simp] theorem idOf?_mapWords (f : UInt16 → UInt16) (o : Int) : (t.mapWords f).idOf? o = t.idOf? o := by
  simp only [idOf?, mapWords, List.findIdx?_map]
  rfl

@[simp] theorem labelOf_mapWords (f : UInt16 → UInt16) : (t.mapWords f).labelOf = t.labelOf := by
  funext w
  simp [labelOf]

/-- Words that point where the words they replace do are noted in the same places, so the table
of the replaced words has the replaced first words. -/
theorem noteAll_map (f : UInt16 → UInt16) (ws : List UInt16) (hf : ∀ w ∈ ws, jumpTarget (f w) = jumpTarget w) :
    (t.mapWords f).noteAll (ws.map f) = (t.noteAll ws).mapWords f := by
  induction ws generalizing t with
  | nil => rfl
  | cons w ws ih =>
    rw [List.map_cons, noteAll_cons, noteAll_cons, hf w (List.mem_cons_self ..), ← ih _ (fun v hv => hf v (List.mem_cons_of_mem _ hv))]
    congr 1
    unfold note
    rw [idOf?_mapWords]
    cases t.idOf? (jumpTarget w) <;> simp [mapWords]

end LabelTable

/-! ## Reading the words of items -/

theorem wordOf_word16 (n : Nat) : ∃ a b, word16 n = [a, b] ∧ wordOf a b = n.toUInt16 := by
  obtain ⟨a, b, hab⟩ := List.length_eq_two.1 (length_word16 n)
  refine ⟨a, b, hab, ?_⟩
  rw [wordOf, ← hab, word16, ByteOrder.decode_encode]
  apply UInt16.toNat.inj
  simp

theorem takeWords_wordBytes (r : List UInt8) :
    ∀ ws : List UInt16, takeWords ws.length (wordBytes (ws.map UInt16.toNat) ++ r) = some ws
  | [] => rfl
  | w :: ws => by
    obtain ⟨a, b, hab, hw⟩ := wordOf_word16 w.toNat
    simp [takeWords, hab, hw, takeWords_wordBytes r ws]

/-- The words of a command's parameters fit its opcode, and the opcode is described: the command
reads back as itself. -/
theorem paramWords_wordBytes {info : OpcodeInfo} {c : Command} (h : checkArity info c = .ok ())
    (r : List UInt8) :
    paramWords info (wordBytes (((if info.isVariadic then [c.params.length.toUInt16] else []) ++
        c.params).map UInt16.toNat) ++ r) =
      some (c.params, (if info.isVariadic then 2 else 0) + 2 * c.params.length) := by
  unfold checkArity at h
  unfold paramWords OpcodeInfo.isVariadic
  cases hA : info.arity with
  | fixed n =>
    rw [hA] at h
    have hn : c.params.length = n.toNat := by
      by_contra hne
      simp [hne] at h
    simp [← hn, takeWords_wordBytes]
  | variadic =>
    rw [hA] at h
    have hlt : c.params.length < 0x4000 := by
      by_contra hge
      simp [hge] at h
    have hlen : c.params.length.toUInt16.toNat = c.params.length := toNat_toUInt16_of_lt (by omega)
    obtain ⟨a, b, hab, hw⟩ := wordOf_word16 c.params.length
    have hv : paramValue (wordOf a b) = c.params.length := by
      rw [hw, paramValue_of_lt (by omega), hlen]
    simp only [beq_self_eq_true, if_true, List.map_cons, hlen, wordBytes_cons, hab, List.cons_append]
    simp [hv, takeWords_wordBytes]

theorem wordOf_word16_toNat (w : UInt16) : ∃ a b, word16 w.toNat = [a, b] ∧ wordOf a b = w := by
  obtain ⟨a, b, hab, hw⟩ := wordOf_word16 w.toNat
  exact ⟨a, b, hab, by rw [hw]; simp⟩

theorem codeBytes_singleton (cat : Catalog) (it : Item) :
    cat.codeBytes [it] = wordBytes ((cat.itemWords it).map UInt16.toNat) := by
  simp [Catalog.codeBytes]

/-- Replacing jump parameters by labels while noting their targets is a map by the labels of
the table after them. -/
theorem labelJumps_eq (info : OpcodeInfo) :
    ∀ (i : Nat) (ps : List UInt16) (t : LabelTable),
      labelJumps info i ps t =
        (mapParams info ((t.noteAll (jumpParams info i ps)).labelOf) i ps,
          t.noteAll (jumpParams info i ps))
  | _, [], _ => rfl
  | i, w :: ws, t => by
    by_cases hj : (info.kindAt i).isJump
    · obtain ⟨n, hn, hl⟩ := t.idOf?_note (jumpTarget w) w
      have hlabel : ((t.note (jumpTarget w) w).1.noteAll (jumpParams info (i + 1) ws)).labelOf w =
          (t.note (jumpTarget w) w).2.val := by
        rw [LabelTable.labelOf_noteAll _ (by simp [hn]), hl]
        simp [LabelTable.labelOf, hn]
      rw [labelJumps, if_pos hj]
      simp only [labelJumps_eq info (i + 1) ws, mapParams, jumpParams, if_pos hj,
        List.singleton_append, LabelTable.noteAll_cons, hlabel]
    · rw [labelJumps, if_neg hj]
      simp only [labelJumps_eq info (i + 1) ws, mapParams, jumpParams, if_neg hj,
        List.nil_append]

/-- A command's labels are taken from the table after it, which later commands only extend. -/
theorem mapParams_labelOf_noteAll (info : OpcodeInfo) (ps : List UInt16) (t : LabelTable)
    (vs : List UInt16) :
    mapParams info ((t.noteAll (jumpParams info 0 ps)).noteAll vs).labelOf 0 ps =
      mapParams info (t.noteAll (jumpParams info 0 ps)).labelOf 0 ps :=
  mapParams_congr info _ _ 0 ps fun _ hw => LabelTable.labelOf_noteAll _ (t.isSome_idOf?_noteAll hw) _

theorem takeWords_spec : ∀ {n : Nat} {bs : List UInt8} {ws : List UInt16},
    takeWords n bs = some ws → ws.length = n ∧ 2 * n ≤ bs.length
  | 0, _, _, h => by
    simp only [takeWords, Option.some.injEq] at h
    simp [← h]
  | n + 1, a :: b :: r, ws, h => by
    simp only [takeWords, Option.map_eq_some_iff] at h
    obtain ⟨vs, hvs, rfl⟩ := h
    have := takeWords_spec hvs
    simp only [List.length_cons]
    omega
  | _ + 1, [], _, h | _ + 1, [_], _, h => by simp [takeWords] at h

/-- What reading an opcode's parameters takes: parameters that fit its arity, behind a count
word if it is variadic. -/
theorem paramWords_spec {info : OpcodeInfo} {r : List UInt8} {ws : List UInt16} {k : Nat}
    (h : paramWords info r = some (ws, k)) (op : UInt16) :
    checkArity info ⟨op, ws⟩ = .ok () ∧ k = (if info.isVariadic then 2 else 0) + 2 * ws.length ∧
      k ≤ r.length := by
  unfold paramWords at h
  unfold checkArity OpcodeInfo.isVariadic
  cases hA : info.arity with
  | fixed n =>
    rw [hA] at h
    simp only [Option.map_eq_some_iff, Prod.mk.injEq] at h
    obtain ⟨vs, hvs, rfl, rfl⟩ := h
    have := takeWords_spec hvs
    simp [this.1, this.2]
  | variadic =>
    rw [hA] at h
    match r, h with
    | a :: b :: r, h =>
      simp only at h
      split at h
      · cases h
      rename_i hneg
      simp only [Option.map_eq_some_iff, Prod.mk.injEq] at h
      obtain ⟨vs, hvs, rfl, rfl⟩ := h
      have hlen := takeWords_spec hvs
      have hlt := paramValue_lt (wordOf a b)
      simp only [List.length_cons]
      refine ⟨?_, by simp [hlen.1], by omega⟩
      simp only [hlen.1]
      rw [if_pos (by omega)]

/-! ## Reading written items -/

namespace Catalog

variable (cat : Catalog)

/-- An item that reads back as itself: a data word at or above the count, or a command the
catalog describes whose parameters fit its arity. -/
def ReadableItem : Item → Prop
  | .data w => cat.count ≤ w
  | .command c => ∃ info, cat.info c.opcode = some info ∧ checkArity info c = .ok ()

/-- The jump parameters of items, in order. -/
def jumps (items : List Item) : List UInt16 :=
  items.flatMap cat.itemJumps

@[simp] theorem jumps_nil : cat.jumps [] = [] := rfl

@[simp] theorem jumps_cons (it : Item) (items : List Item) :
    cat.jumps (it :: items) = cat.itemJumps it ++ cat.jumps items := rfl

@[simp] theorem jumps_append (xs ys : List Item) : cat.jumps (xs ++ ys) = cat.jumps xs ++ cat.jumps ys := by
  simp [jumps]

end Catalog

variable (cat : Catalog)

/-- The bytes of items that read back as themselves read as the items with each jump parameter
turned into its label in the table after them all. -/
theorem decodeItems_codeBytes :
    ∀ (items : List Item), (∀ it ∈ items, cat.ReadableItem it) → ∀ (pos : Nat) (t : LabelTable),
      decodeItems cat pos (cat.codeBytes items) t =
        .ok (items.map (cat.mapItem (t.noteAll (cat.jumps items)).labelOf), t.noteAll (cat.jumps items))
  | [], _, pos, t => by simp [decodeItems]
  | .data w :: items, hr, pos, t => by
    have hw : cat.count ≤ w := hr _ (List.mem_cons_self ..)
    obtain ⟨a, b, hab, hab'⟩ := wordOf_word16_toNat w
    rw [codeBytes_cons, codeBytes_singleton]
    simp only [Catalog.itemWords, List.map_cons, List.map_nil, wordBytes_cons, wordBytes_nil, hab,
      List.append_nil, List.cons_append, List.nil_append]
    rw [decodeItems.eq_1, hab', if_pos hw,
      decodeItems_codeBytes items (fun it hit => hr it (List.mem_cons_of_mem _ hit))]
    simp [Functor.map, Except.map, Catalog.mapItem, Catalog.itemJumps]
  | .command c :: items, hr, pos, t => by
    obtain ⟨info, hinfo, harity⟩ : cat.ReadableItem (.command c) := hr _ (List.mem_cons_self ..)
    have hop : ¬ cat.count ≤ c.opcode := UInt16.not_le.2 (Catalog.lt_count_of_info hinfo)
    obtain ⟨a, b, hab, hab'⟩ := wordOf_word16_toNat c.opcode
    have hvar : cat.isVariadic c.opcode = info.isVariadic := isVariadic_of_info cat hinfo
    rw [codeBytes_cons, codeBytes_singleton]
    simp only [Catalog.itemWords, hvar, List.map_cons, wordBytes_cons, hab, List.cons_append,
      List.nil_append]
    rw [decodeItems.eq_1, hab', if_neg hop, hinfo]
    simp only
    rw [paramWords_wordBytes harity]
    simp only
    rw [labelJumps_eq]
    have hdrop : List.drop ((if info.isVariadic then 2 else 0) + 2 * c.params.length)
        (wordBytes (((if info.isVariadic then [c.params.length.toUInt16] else []) ++ c.params).map
          UInt16.toNat) ++ cat.codeBytes items) = cat.codeBytes items := by
      apply List.drop_left'
      split <;> simp
    rw [hdrop, decodeItems_codeBytes items (fun it hit => hr it (List.mem_cons_of_mem _ hit))]
    simp only [Functor.map, Except.map, Catalog.jumps_cons, Catalog.itemJumps, Catalog.commandJumps,
      hinfo, LabelTable.noteAll_append]
    simp [Catalog.mapItem, Catalog.mapCommand, hinfo, mapParams_labelOf_noteAll]

/-- Whatever the reader finds, it relabels items that read back as themselves and lie within
the bytes it was given. -/
theorem decodeItems_relabels {pos : Nat} {bs : List UInt8} {t : LabelTable} {items : List Item}
    {T : LabelTable} (h : decodeItems cat pos bs t = .ok (items, T)) :
    ∃ X : List Item, (∀ it ∈ X, cat.ReadableItem it) ∧ cat.itemsSize X ≤ bs.length ∧
      items = X.map (cat.mapItem (t.noteAll (cat.jumps X)).labelOf) ∧ T = t.noteAll (cat.jumps X) := by
  fun_induction decodeItems cat pos bs t generalizing items T with
  | case1 pos t a b r w hw =>
    rename_i ih
    obtain ⟨⟨items', T'⟩, hp, hitems⟩ := Except.map_eq_ok_iff.1 h
    cases hitems
    obtain ⟨X, hX, hsize, rfl, rfl⟩ := ih hp
    refine ⟨.data w :: X, ?_, ?_, ?_, rfl⟩
    · intro it hit
      rcases List.mem_cons.1 hit with rfl | hit
      exacts [hw, hX it hit]
    · simp only [Catalog.itemsSize, Catalog.itemSize, List.length_cons]
      omega
    · simp [Catalog.mapItem, Catalog.itemJumps]
  | case2 => cases h
  | case3 =>
    cases h
    exact ⟨[], by simp, by simp [Catalog.itemsSize], rfl, rfl⟩
  | case4 pos t a b r w hw info hinfo ws k hparams ps t2 hlabel =>
    rename_i ih
    obtain ⟨⟨items', T'⟩, hp, hitems⟩ := Except.map_eq_ok_iff.1 h
    cases hitems
    obtain ⟨X, hX, hsize, rfl, rfl⟩ := ih hp
    obtain ⟨harity, rfl, hk⟩ := paramWords_spec hparams w
    rw [labelJumps_eq] at hlabel
    cases hlabel
    refine ⟨.command ⟨w, ws⟩ :: X, ?_, ?_, ?_, ?_⟩
    · intro it hit
      rcases List.mem_cons.1 hit with rfl | hit
      exacts [⟨info, hinfo, harity⟩, hX it hit]
    · have hvar : cat.isVariadic w = info.isVariadic := isVariadic_of_info cat hinfo
      simp only [Catalog.itemsSize, Catalog.itemSize, Catalog.commandSize, List.length_cons,
        List.length_drop, hvar] at hsize ⊢
      omega
    · simp [Catalog.mapItem, Catalog.mapCommand, Catalog.itemJumps, Catalog.commandJumps, hinfo,
        LabelTable.noteAll_append, mapParams_labelOf_noteAll]
    · simp [Catalog.itemJumps, Catalog.commandJumps, hinfo, LabelTable.noteAll_append]
  | case5 =>
    cases h
    exact ⟨[], by simp, by simp [Catalog.itemsSize], rfl, rfl⟩

end DungeonFormats.Script
