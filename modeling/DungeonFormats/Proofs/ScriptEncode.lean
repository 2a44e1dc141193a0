import Mathlib
import DungeonFormats.Proofs.Pieces
import DungeonFormats.Proofs.ScriptImage

/-!
# What writing a script gives

Each writer of `Script.encode` is equal to its resolving pass followed by the pieces it gives the
builder: the code writers append the bytes of the resolved items (`writeGroups_eq`), the header,
group table and string table writers give fixed lists of pieces. Finishing the whole list fills
the header's lengths and the group starts from where the anchors ended up, which gives
`encode_eq_ok_iff`: a script is written exactly when its image fits, as the image's bytes.
-/

namespace DungeonFormats

theorem Except.map_eq_ok_iff {ε α β : Type} {x : Except ε α} {f : α → β} {b : β} :
    x.map f = .ok b ↔ ∃ a, x = .ok a ∧ f a = b := by
  cases x <;> simp [Except.map]

theorem Except.mapError_eq_ok_iff {ε ε' α : Type} {x : Except ε α} {f : ε → ε'} {a : α} :
    x.mapError f = .ok a ↔ x = .ok a := by
  cases x <;> simp [Except.mapError]

theorem Except.mapError_ok_bind {ε ε' α β : Type} (f : ε → ε') (a : α) (g : α → Except ε' β) :
    ((Except.ok a : Except ε α).mapError f >>= g) = g a := rfl

namespace Builder

variable {α : Type}

theorem append_append (b : Builder α) (x y : List UInt8) :
    (b.append x).append y = b.append (x ++ y) := by
  simp only [append, mk.injEq, and_true]
  apply Array.ext'
  simp

@[simp] theorem append_nil (b : Builder α) : b.append [] = b := by
  simp [append]

@[simp] theorem size_place (b : Builder α) (l : α) : (b.place l).size = b.size := rfl

section Find

variable [DecidableEq α] (b : Builder α) (a : α)

@[simp] theorem find?_append (bs : List UInt8) : (b.append bs).find? a = b.find? a := rfl

@[simp] theorem find?_reserve (f : Field α) : (b.reserve f).find? a = b.find? a := rfl

@[simp] theorem find?_u16 (v : UInt16) : (b.u16 v).find? a = b.find? a := rfl

@[simp] theorem find?_padTo (n : Nat) (fill : UInt8) : (b.padTo n fill).find? a = b.find? a := rfl

theorem find?_place_of_ne {l : α} (h : a ≠ l) : (b.place l).find? a = b.find? a := by
  simp [find?, place, List.lookup, beq_false_of_ne h]

/-- Pieces that place no label leave every label where it was. -/
theorem find?_putAll_of_no_mark {ps : List (Piece α)} (h : ∀ p ∈ ps, ∀ l, p ≠ .mark l) :
    (b.putAll ps).find? a = b.find? a := by
  induction ps generalizing b with
  | nil => rfl
  | cons p ps ih =>
    rw [putAll_cons, ih _ (fun q hq => h q (List.mem_cons_of_mem _ hq))]
    cases p with
    | bytes bs => rfl
    | field f => rfl
    | mark l => exact absurd rfl (h _ List.mem_cons_self l)

end Find

theorem u16_eq (b : Builder α) (v : UInt16) : b.u16 v = b.append (Script.word16 v.toNat) := rfl

end Builder

namespace Script

section Code

variable (cat : Catalog) (targets : List (LabelId × Nat)) (raw : List (LabelId × UInt16))

@[simp] theorem wordBytes_nil : wordBytes [] = [] := rfl

@[simp] theorem wordBytes_cons (n : Nat) (ns : List Nat) :
    wordBytes (n :: ns) = word16 n ++ wordBytes ns := rfl

@[simp] theorem wordBytes_append (ns ms : List Nat) :
    wordBytes (ns ++ ms) = wordBytes ns ++ wordBytes ms := by
  simp [wordBytes]

@[simp] theorem length_word16 (n : Nat) : (word16 n).length = 2 := by
  simp [word16, ByteOrder.encode, lowFirst]

@[simp] theorem length_wordBytes (ns : List Nat) : (wordBytes ns).length = 2 * ns.length := by
  induction ns with
  | nil => rfl
  | cons n ns ih => simp [ih]; omega

@[simp] theorem codeBytes_nil : cat.codeBytes [] = [] := rfl

@[simp] theorem codeBytes_append (xs ys : List Item) :
    cat.codeBytes (xs ++ ys) = cat.codeBytes xs ++ cat.codeBytes ys := by
  simp [Catalog.codeBytes]

theorem codeBytes_flatten (xss : List (List Item)) :
    cat.codeBytes xss.flatten = (xss.map cat.codeBytes).flatten := by
  induction xss with
  | nil => rfl
  | cons xs xss ih => simp [ih]

theorem codeBytes_cons (x : Item) (xs : List Item) :
    cat.codeBytes (x :: xs) = cat.codeBytes [x] ++ cat.codeBytes xs := by
  rw [← codeBytes_append]
  rfl

/-- Parameters are written as the words they resolve to. -/
theorem writeParams_eq (info : OpcodeInfo) :
    ∀ (b : Builder Anchor) (i : Nat) (ps : List UInt16),
      writeParams info targets raw b i ps =
        (resolveParams targets raw info i ps).map
          (fun ws => b.append (wordBytes (ws.map UInt16.toNat)))
  | b, i, [] => by simp [writeParams, resolveParams, Except.map]
  | b, i, p :: ps => by
    -- every branch that resolves `p` to a word goes on with the rest alike
    have next : ∀ w : UInt16, writeParams info targets raw (b.u16 w) (i + 1) ps =
        (resolveParams targets raw info (i + 1) ps >>= fun ws => pure (w :: ws)).map
          (fun ws => b.append (wordBytes (ws.map UInt16.toNat))) := by
      intro w
      rw [writeParams_eq info (b.u16 w) (i + 1) ps]
      cases resolveParams targets raw info (i + 1) ps <;>
        simp [Except.map, bind, Except.bind, pure, Except.pure, Builder.u16_eq,
          Builder.append_append]
    rw [writeParams, resolveParams]
    unfold resolveParam
    by_cases hj : (info.kindAt i).isJump
    · simp only [if_pos hj]
      cases targets.lookup ⟨p⟩ with
      | some o =>
        by_cases ho : o / 2 < 0x4000
        · simp only [if_pos ho]
          exact next _
        · simp only [if_neg ho]
          rfl
      | none =>
        cases raw.lookup ⟨p⟩ with
        | some w => exact next w
        | none => rfl
    · simp only [if_neg hj]
      exact next p

theorem length_of_resolveParams (info : OpcodeInfo) :
    ∀ (i : Nat) (ps ws : List UInt16), resolveParams targets raw info i ps = .ok ws →
      ws.length = ps.length
  | i, [], ws, h => by
    simp only [resolveParams, Except.ok.injEq] at h
    simp [← h]
  | i, p :: ps, ws, h => by
    obtain ⟨w, -, h⟩ := Except.bind_eq_ok_iff.1 h
    obtain ⟨ws', hws, h⟩ := Except.bind_eq_ok_iff.1 h
    cases h
    simp [length_of_resolveParams info (i + 1) ps ws' hws]

theorem isVariadic_of_info {op : UInt16} {info : OpcodeInfo} (h : cat.info op = some info) :
    cat.isVariadic op = (info.arity == .variadic) := by
  simp [Catalog.isVariadic, h, OpcodeInfo.isVariadic]

/-- A command is written as the bytes of the command it resolves to. -/
theorem writeCommand_eq (b : Builder Anchor) (c : Command) :
    writeCommand cat targets raw b c =
      (resolveCommand cat targets raw c).map (fun c' => b.append (cat.codeBytes [.command c'])) := by
  unfold writeCommand resolveCommand
  cases hinfo : cat.info c.opcode with
  | none => rfl
  | some info =>
    have hvar := isVariadic_of_info cat hinfo
    simp only [checkArity]
    cases harity : info.arity with
    | fixed n =>
      by_cases hn : c.params.length = n.toNat
      · simp only [hn, if_true, pure, Except.pure, bind, Except.bind, writeParams_eq]
        cases hr : resolveParams targets raw info 0 c.params with
        | error e => rfl
        | ok ws =>
          simp [Except.map, Catalog.codeBytes, Catalog.itemWords, hvar, harity, wordBytes,
            Builder.u16_eq, Builder.append_append]
      · simp [hn, bind, Except.bind, throw, throwThe, MonadExceptOf.throw, Except.map]
    | variadic =>
      by_cases hn : c.params.length < 0x4000
      · simp only [hn, if_true, pure, Except.pure, bind, Except.bind, writeParams_eq]
        cases hr : resolveParams targets raw info 0 c.params with
        | error e => rfl
        | ok ws =>
          have hlen := length_of_resolveParams targets raw info 0 c.params ws hr
          simp [Except.map, Catalog.codeBytes, Catalog.itemWords, hvar, harity, wordBytes,
            Builder.u16_eq, Builder.append_append, hlen]
      · simp [hn, bind, Except.bind, throw, throwThe, MonadExceptOf.throw, Except.map]

theorem writeCommands_eq :
    ∀ (b : Builder Anchor) (cs : List Command),
      writeCommands cat targets raw b cs =
        (cs.mapM (resolveCommand cat targets raw)).map
          (fun cs' => b.append (cat.codeBytes (cs'.map .command)))
  | b, [] => by simp [writeCommands, Except.map, pure, Except.pure]
  | b, c :: cs => by
    rw [writeCommands, writeCommand_eq, List.mapM_cons]
    cases resolveCommand cat targets raw c with
    | error e => rfl
    | ok c' =>
      show writeCommands cat targets raw (b.append (cat.codeBytes [.command c'])) cs = _
      rw [writeCommands_eq _ cs]
      cases cs.mapM (resolveCommand cat targets raw) with
      | error e => rfl
      | ok cs' =>
        simp only [Except.map, bind, Except.bind, pure, Except.pure, List.map_cons,
          Builder.append_append, ← codeBytes_cons]

theorem writeInstructions_eq :
    ∀ (b : Builder Anchor) (is : List Instruction),
      writeInstructions cat targets raw b is =
        (is.mapM (resolveInstruction cat targets raw)).map
          (fun its => b.append (cat.codeBytes its.flatten))
  | b, [] => by simp [writeInstructions, Except.map, pure, Except.pure]
  | b, i :: is => by
    -- the equations of `writeInstructions` split on the instruction; all have this shape
    have step : writeInstructions cat targets raw b (i :: is) =
        (resolveInstruction cat targets raw i).map (fun its => b.append (cat.codeBytes its)) >>=
          fun b => writeInstructions cat targets raw b is := by
      cases i with
      | data w =>
        rw [writeInstructions.eq_2]
        rfl
      | label l =>
        rw [writeInstructions.eq_3]
        simp only [resolveInstruction, Except.map, codeBytes_nil, Builder.append_nil]
        rfl
      | _ =>
        rw [writeInstructions.eq_4 _ _ _ _ _ _ (by simp) (by simp), writeCommands_eq]
        simp only [resolveInstruction]
        cases List.mapM (resolveCommand cat targets raw) _ <;> rfl
    rw [step, List.mapM_cons]
    cases resolveInstruction cat targets raw i with
    | error e => rfl
    | ok its =>
      show writeInstructions cat targets raw (b.append (cat.codeBytes its)) is = _
      rw [writeInstructions_eq _ is]
      cases is.mapM (resolveInstruction cat targets raw) with
      | error e => rfl
      | ok itss =>
        simp only [Except.map, bind, Except.bind, pure, Except.pure, List.flatten_cons,
          Builder.append_append, codeBytes_append]

/-- The pieces that the code of groups is written as: each group's anchor, then its code, the
first group being number `n`. -/
def codePieces (cat : Catalog) : Nat → List GroupCode → List (Piece Anchor)
  | _, [] => []
  | n, g :: gs => .mark (.group n) :: .bytes (cat.codeBytes g.items) :: codePieces cat (n + 1) gs

/-- The code of groups places only the groups' anchors. -/
theorem find?_putAll_codePieces {a : Anchor} (ha : ∀ k, a ≠ .group k) :
    ∀ (b : Builder Anchor) (n : Nat) (codes : List GroupCode),
      (b.putAll (codePieces cat n codes)).find? a = b.find? a
  | _, _, [] => rfl
  | b, n, g :: gs => by
    rw [codePieces, Builder.putAll_cons, Builder.putAll_cons, find?_putAll_codePieces ha]
    exact Builder.find?_place_of_ne _ _ (ha n)

theorem writeGroups_eq :
    ∀ (b : Builder Anchor) (n : Nat) (gs : List Group), (∀ k, n ≤ k → b.find? (.group k) = none) →
      writeGroups cat targets raw b n gs =
        (gs.mapM (resolveGroup cat targets raw)).map (fun codes => b.putAll (codePieces cat n codes))
  | b, n, [], _ => by simp [writeGroups, codePieces, Except.map, pure, Except.pure]
  | b, n, g :: gs, hfresh => by
    rw [writeGroups, Builder.placeOnce_eq_ok (hfresh n le_rfl), Except.mapError_ok_bind,
      writeInstructions_eq, List.mapM_cons, resolveGroup]
    cases g.instructions.mapM (resolveInstruction cat targets raw) with
    | error e => rfl
    | ok itss =>
      show writeGroups cat targets raw ((b.place (.group n)).append (cat.codeBytes itss.flatten))
        (n + 1) gs = _
      -- the later groups' anchors are still free after this group's
      have hfresh' : ∀ k, n + 1 ≤ k →
          ((b.place (.group n)).append (cat.codeBytes itss.flatten)).find? (.group k) = none :=
        fun k hk => by
          rw [Builder.find?_append, Builder.find?_place_of_ne _ _ (by simp; omega)]
          exact hfresh k (by omega)
      rw [writeGroups_eq _ (n + 1) gs hfresh']
      cases gs.mapM (resolveGroup cat targets raw) with
      | error e => rfl
      | ok codes => rfl

end Code

theorem toNat_toUInt16_of_lt {n : Nat} (h : n < 65536) : n.toUInt16.toNat = n := by
  simp only [Nat.toUInt16]
  exact Nat.mod_eq_of_lt (Nat.lt_of_lt_of_eq h (by decide))

/-! ## Header and group table -/

/-- The pieces a header is written as: the two counts, the length fields over the anchors, and
the spare word outside Europe. -/
def headerPieces (r : Region) (cc sc : Nat) (unk1 : UInt16) : List (Piece Anchor) :=
  [.bytes (word16 cc), .bytes (word16 sc), .field (.words .dataStart .constData),
      .field (.words .constData .constEnd)] ++
    (List.range r.languages.length).map (fun i => .field (.words (.stringStart i) (.stringEnd i))) ++
    (if r = .europe then [] else [.bytes (word16 unk1.toNat)])

theorem find?_putAll_headerPieces (b : Builder Anchor) (r : Region) (cc sc : Nat) (unk1 : UInt16)
    (a : Anchor) : (b.putAll (headerPieces r cc sc unk1)).find? a = b.find? a := by
  apply Builder.find?_putAll_of_no_mark
  intro p hp l
  simp only [headerPieces, List.mem_append, List.mem_cons, List.mem_map, List.mem_range] at hp
  split at hp <;> simp at hp <;> grind

theorem writeHeader_eq_ok_iff (b : Builder Anchor) (r : Region) (cc sc : Nat) (unk1 : UInt16)
    (b' : Builder Anchor) :
    writeHeader b r cc sc unk1 = .ok b' ↔
      (r = .europe → unk1 = 0) ∧ cc < 65536 ∧ sc < 65536 ∧
        b' = b.putAll (headerPieces r cc sc unk1) := by
  unfold writeHeader toWord
  by_cases hu : r = .europe ∧ unk1 ≠ 0
  · simp [hu, throw, throwThe, MonadExceptOf.throw, bind, Except.bind]
  · have hu' : r = .europe → unk1 = 0 := fun h => by simpa [h] using hu
    rw [and_iff_right hu']
    simp only [hu, if_false]
    by_cases hc : cc < 65536
    · by_cases hs : sc < 65536
      · simp only [hc, hs, if_true, bind, Except.bind, pure, Except.pure, Except.ok.injEq,
          true_and]
        rw [@eq_comm _ _ b']
        refine Iff.of_eq (congrArg (b' = ·) ?_)
        simp only [headerPieces, Builder.putAll, List.foldl_append, List.foldl_map,
          List.foldl_cons, List.foldl_nil, Builder.put, Builder.u16_eq, toNat_toUInt16_of_lt hc,
          toNat_toUInt16_of_lt hs]
        by_cases hr : r = .europe
        · simp only [hr, if_true, List.foldl_nil]
        · simp only [hr, if_false, List.foldl_cons, List.foldl_nil, Builder.put]
      · simp [hc, hs, bind, Except.bind]
    · simp [hc, bind, Except.bind]

/-- The pieces a group table is written as, the first group being number `i`: per group, the
field of its start, its kind and its spare word. -/
def groupTablePieces : Nat → List (UInt16 × UInt16) → List (Piece Anchor)
  | _, [] => []
  | i, (k, u) :: rest =>
    .field (.words .dataStart (.group i)) :: .bytes (word16 k.toNat) :: .bytes (word16 u.toNat) ::
      groupTablePieces (i + 1) rest

theorem find?_putAll_groupTablePieces (b : Builder Anchor) (a : Anchor) :
    ∀ (i : Nat) (gs : List (UInt16 × UInt16)), (b.putAll (groupTablePieces i gs)).find? a = b.find? a
  | _, [] => rfl
  | i, (k, u) :: rest => by
    rw [groupTablePieces, Builder.putAll_cons, Builder.putAll_cons, Builder.putAll_cons,
      find?_putAll_groupTablePieces _ a (i + 1) rest]
    rfl

theorem writeGroupTable_eq (b : Builder Anchor) (gs : List Group) :
    writeGroupTable b gs = b.putAll (groupTablePieces 0 (gs.map fun g => (g.kind, g.unk2))) := by
  unfold writeGroupTable
  -- the fold runs over the groups numbered from any `n`
  generalize 0 = n
  induction gs generalizing n b with
  | nil => rfl
  | cons g gs ih =>
    simp only [List.zipIdx_cons, List.foldl_cons, List.map_cons, groupTablePieces, ih]
    rfl

/-! ## String tables -/

section Tables

variable {α : Type}

/-- A pointer whose distance from its table fits a word is written as that word: its sum with
the bias is taken at a position of a buffer, below `2 ^ 63`, so it stays below `2 ^ 64`. -/
theorem writePointers_cons_of_lt (bias tablePos : Nat) (b : Builder α) (pos : Nat)
    (s : List UInt8) (ss : List (List UInt8)) (h : bias + pos < 65536) :
    writePointers bias tablePos b (tablePos + pos) (s :: ss) =
      writePointers bias tablePos (b.u16 (bias + pos).toUInt16) (tablePos + (pos + s.length + 1))
        ss := by
  have hsum : tablePos + pos ≤ isizeMax → bias + (tablePos + pos) < usizeLimit := by
    unfold isizeMax usizeLimit
    omega
  have hw : toWord (bias + pos) = .ok (bias + pos).toUInt16 := by
    simp [toWord, h]
  rw [writePointers, uaddAt_eq_ok hsum, Except.mapError_ok_bind, usub_eq_ok (by omega),
    Except.mapError_ok_bind, show bias + (tablePos + pos) - tablePos = bias + pos by omega, hw,
    show tablePos + pos + s.length + 1 = tablePos + (pos + s.length + 1) by omega]
  rfl

/-- A pointer whose distance from its table does not fit a word stops the writer, by an overflow
of its sum with the bias or by the refusal of the word. -/
theorem writePointers_cons_of_le (bias tablePos : Nat) (b : Builder α) (pos : Nat)
    (s : List UInt8) (ss : List (List UInt8)) (h : 65536 ≤ bias + pos) :
    ∃ e, writePointers bias tablePos b (tablePos + pos) (s :: ss) = .error e := by
  rw [writePointers]
  cases hs : uaddAt bias (tablePos + pos) with
  | error p => exact ⟨.panic p, rfl⟩
  | ok sum =>
    obtain rfl := eq_add_of_uaddAt_eq_ok hs
    rw [Except.mapError_ok_bind, usub_eq_ok (by omega), Except.mapError_ok_bind,
      show bias + (tablePos + pos) - tablePos = bias + pos by omega]
    exact ⟨.exceedsWord (bias + pos), by simp [toWord, Nat.not_lt.2 h, bind, Except.bind]⟩

/-- The pointers of strings whose first lies `pos` bytes past the table are written exactly
when each fits a word, as those words. -/
theorem writePointers_eq_ok_iff (bias tablePos : Nat) :
    ∀ (b b' : Builder α) (pos : Nat) (ss : List (List UInt8)),
      writePointers bias tablePos b (tablePos + pos) ss = .ok b' ↔
        (∀ p ∈ pointerValues bias pos ss, p < 65536) ∧
          b' = b.append (wordBytes (pointerValues bias pos ss))
  | b, b', pos, [] => by
    simp [writePointers, pointerValues, eq_comm]
  | b, b', pos, s :: ss => by
    simp only [pointerValues, List.mem_cons, forall_eq_or_imp, wordBytes_cons]
    by_cases h : bias + pos < 65536
    · rw [writePointers_cons_of_lt bias tablePos b pos s ss h,
        writePointers_eq_ok_iff bias tablePos _ b' _ ss, Builder.u16_eq, toNat_toUInt16_of_lt h,
        Builder.append_append]
      simp only [h, true_and]
    · obtain ⟨e, he⟩ := writePointers_cons_of_le bias tablePos b pos s ss (by omega)
      simp [he, h]

theorem writeStrings_eq_ok_iff :
    ∀ (b b' : Builder α) (ss : List (List UInt8)),
      writeStrings b ss = .ok b' ↔ (∀ s ∈ ss, 0 ∉ s) ∧ b' = b.append (ss.flatMap (· ++ [0]))
  | b, b', [] => by simp [writeStrings, eq_comm]
  | b, b', s :: ss => by
    simp only [writeStrings, Builder.terminated?, List.mem_cons, forall_eq_or_imp,
      List.flatMap_cons]
    by_cases h : (0 : UInt8) ∈ s
    · simp [h]
    · simp only [h, if_false, not_false_eq_true, true_and]
      rw [writeStrings_eq_ok_iff _ b' ss, Builder.append_append, List.append_assoc]

/-- The pieces a string table is written as: its pointers, its strings' anchor, its body. -/
def tablePieces (strings : List (List UInt8)) (bias : Nat) (data : α) : List (Piece α) :=
  [.bytes (wordBytes (pointerValues bias (2 * strings.length) strings)), .mark data,
    .bytes (tableBody strings)]

theorem length_tableBody_even (ss : List (List UInt8)) : (tableBody ss).length % 2 = 0 := by
  simp only [tableBody, List.length_append, List.length_replicate]
  omega

theorem length_tableBytes_even (ss : List (List UInt8)) (bias : Nat) :
    (tableBytes ss bias).length % 2 = 0 := by
  have := length_tableBody_even ss
  simp only [tableBytes, List.length_append, length_wordBytes]
  omega

/-- The pieces a string table is written as after `n` bytes: its pointers, its strings' anchor,
and its strings padded to an even end. -/
def tablePiecesAt (n : Nat) (strings : List (List UInt8)) (bias : Nat) (data : α) :
    List (Piece α) :=
  [.bytes (wordBytes (pointerValues bias (2 * strings.length) strings)), .mark data,
    .bytes (tableBodyAt (n + 2 * strings.length) strings)]

theorem tableBodyAt_of_even {start : Nat} (h : start % 2 = 0) (ss : List (List UInt8)) :
    tableBodyAt start ss = tableBody ss := by
  simp only [tableBodyAt, tableBody, Nat.add_mod, h, Nat.zero_add, Nat.mod_mod]

theorem tablePiecesAt_of_even {n : Nat} (h : n % 2 = 0) (ss : List (List UInt8)) (bias : Nat)
    (data : α) : tablePiecesAt n ss bias data = tablePieces ss bias data := by
  rw [tablePiecesAt, tablePieces, tableBodyAt_of_even (by omega)]

/-- Writing a string table at a fresh anchor succeeds exactly when the table fits; the strings
are padded so that the whole builder ends at an even length, wherever the table starts. -/
theorem writeTable_eq_ok_iff_at [DecidableEq α] (b : Builder α) (ss : List (List UInt8))
    (bias : Nat) (data : α) (hfresh : b.find? data = none) (b' : Builder α) (len : Nat) :
    writeTable b ss bias data = .ok (b', len) ↔
      TableFits ss bias ∧ b' = b.putAll (tablePiecesAt b.size ss bias data) ∧
        len = (tableBodyAt (b.size + 2 * ss.length) ss).length := by
  unfold writeTable
  dsimp only
  cases hp : writePointers bias b.size b (b.size + 2 * ss.length) ss with
  | error e =>
    simp only [bind, Except.bind, reduceCtorEq, false_iff]
    rintro ⟨⟨-, hlt⟩, -⟩
    obtain ⟨b1, hb1⟩ : ∃ b1, writePointers bias b.size b (b.size + 2 * ss.length) ss = .ok b1 :=
      ⟨_, (writePointers_eq_ok_iff bias b.size b _ _ ss).2 ⟨hlt, rfl⟩⟩
    rw [hp] at hb1
    cases hb1
  | ok b1 =>
    obtain ⟨hlt, rfl⟩ := (writePointers_eq_ok_iff bias b.size b b1 _ ss).1 hp
    generalize hptrs : wordBytes (pointerValues bias (2 * ss.length) ss) = ptrs
    have hplen : ptrs.length = 2 * ss.length := by
      rw [← hptrs, length_wordBytes, length_pointerValues]
    -- the anchor is free, so placing it cannot stop the writer
    simp only [bind, Except.bind]
    rw [Builder.placeOnce_eq_ok (by rw [Builder.find?_append]; exact hfresh)]
    simp only [Except.mapError]
    cases hs : writeStrings ((b.append ptrs).place data) ss with
    | error e =>
      simp only [reduceCtorEq, false_iff]
      rintro ⟨⟨hnul, -⟩, -⟩
      obtain ⟨b2, hb2⟩ : ∃ b2, writeStrings ((b.append ptrs).place data) ss = .ok b2 :=
        ⟨_, (writeStrings_eq_ok_iff _ _ ss).2 ⟨hnul, rfl⟩⟩
      rw [hs] at hb2
      cases hb2
    | ok b2 =>
      obtain ⟨hnul, rfl⟩ := (writeStrings_eq_ok_iff _ b2 ss).1 hs
      have hfits : TableFits ss bias := ⟨hnul, hlt⟩
      -- the padding is computed from the length of the whole builder
      have hpad : (2 - (((b.append ptrs).place data).append (ss.flatMap (· ++ [0]))).size % 2) % 2 =
          (b.size + 2 * ss.length + (ss.flatMap (· ++ [0])).length) % 2 := by
        simp only [Builder.size_append, Builder.size_place]
        omega
      have hX : (((b.append ptrs).place data).append (ss.flatMap (· ++ [0]))).padTo 2 0 =
          b.putAll (tablePiecesAt b.size ss bias data) := by
        simp only [Builder.padTo, hpad, Builder.append_append, tablePiecesAt, tableBodyAt, hptrs,
          Builder.putAll_cons, Builder.putAll_nil, Builder.put]
      -- the strings only lengthen the builder, so their length is taken without underflow
      have hlen : ((((b.append ptrs).place data).append (ss.flatMap (· ++ [0]))).padTo 2 0).size =
          b.size + 2 * ss.length + (tableBodyAt (b.size + 2 * ss.length) ss).length := by
        rw [Builder.padTo, hpad]
        simp only [Builder.size_append, Builder.size_place, tableBodyAt, List.length_append]
        omega
      dsimp only
      rw [usub_eq_ok (by omega), hlen, Nat.add_sub_cancel_left, hX]
      simp only [pure, Except.pure, Except.ok.injEq, Prod.mk.injEq, hfits, true_and]
      exact ⟨fun h => ⟨h.1.symm, h.2.symm⟩, fun h => ⟨h.1.symm, h.2.symm⟩⟩

theorem writeTable_eq_ok_iff [DecidableEq α] (b : Builder α) (heven : b.size % 2 = 0)
    (ss : List (List UInt8)) (bias : Nat) (data : α) (hfresh : b.find? data = none)
    (b' : Builder α) (len : Nat) :
    writeTable b ss bias data = .ok (b', len) ↔
      TableFits ss bias ∧ b' = b.putAll (tablePieces ss bias data) ∧
        len = (tableBody ss).length := by
  rw [writeTable_eq_ok_iff_at b ss bias data hfresh, tablePiecesAt_of_even heven,
    tableBodyAt_of_even (by omega)]

theorem flatMap_raw_tablePieces {α : Type} (ss : List (List UInt8)) (bias : Nat) (data : α) :
    (tablePieces ss bias data).flatMap Piece.raw = tableBytes ss bias := by
  simp [tablePieces, Piece.raw, tableBytes]

/-- The pieces the string tables of languages are written as, each between its anchors, the
first language being number `n`. -/
def languagePieces (bias : Nat) : Nat → List (List (List UInt8)) → List (Piece Anchor)
  | _, [] => []
  | n, t :: ts =>
    .mark (.stringStart n) :: tablePieces t bias (.stringData n) ++
      .mark (.stringEnd n) :: languagePieces bias (n + 1) ts

theorem find?_putAll_tablePieces [DecidableEq α] (b : Builder α) (ss : List (List UInt8))
    (bias : Nat) {data a : α} (h : a ≠ data) :
    (b.putAll (tablePieces ss bias data)).find? a = b.find? a := by
  simp only [tablePieces, Builder.putAll_cons, Builder.putAll_nil, Builder.put,
    Builder.find?_append, Builder.find?_place_of_ne _ _ h]

/-- The anchors of the languages' tables from number `n` on are not placed yet. -/
def LanguagesFree (b : Builder Anchor) (n : Nat) : Prop :=
  ∀ k, n ≤ k → b.find? (.stringStart k) = none ∧ b.find? (.stringData k) = none ∧
    b.find? (.stringEnd k) = none

/-- A language's table leaves its end anchor and the later languages' anchors free. -/
theorem languagesFree_step {b : Builder Anchor} {n : Nat} (hfree : LanguagesFree b n)
    (t : List (List UInt8)) (bias : Nat) :
    ((b.place (.stringStart n)).putAll (tablePieces t bias (.stringData n))).find? (.stringEnd n) =
        none ∧
      LanguagesFree (((b.place (.stringStart n)).putAll (tablePieces t bias (.stringData n))).place
        (.stringEnd n)) (n + 1) := by
  have hkeep : ∀ a, a ≠ .stringStart n → a ≠ .stringData n →
      ((b.place (.stringStart n)).putAll (tablePieces t bias (.stringData n))).find? a =
        b.find? a := fun a h1 h2 => by
    rw [find?_putAll_tablePieces _ _ _ h2, Builder.find?_place_of_ne _ _ h1]
  refine ⟨(hkeep _ (by simp) (by simp)).trans (hfree n le_rfl).2.2, fun k hk => ?_⟩
  have hne : k ≠ n := by omega
  obtain ⟨h1, h2, h3⟩ := hfree k (by omega)
  refine ⟨?_, ?_, ?_⟩ <;>
    rw [Builder.find?_place_of_ne _ _ (by simp [hne]), hkeep _ (by simp [hne]) (by simp [hne])]
  exacts [h1, h2, h3]

theorem size_language_even {b : Builder Anchor} (heven : b.size % 2 = 0) (n : Nat)
    (t : List (List UInt8)) (bias : Nat) :
    (((b.place (.stringStart n)).putAll (tablePieces t bias (.stringData n))).place
      (.stringEnd n)).size % 2 = 0 := by
  have := length_tableBytes_even t bias
  simp only [Builder.size_place, Builder.size_putAll, flatMap_raw_tablePieces]
  omega

theorem writeLanguageTables_eq_ok_iff (bias : Nat) :
    ∀ (b b' : Builder Anchor) (n : Nat) (ts : List (List (List UInt8))), b.size % 2 = 0 →
      LanguagesFree b n →
      (writeLanguageTables bias b n ts = .ok b' ↔
        (∀ t ∈ ts, TableFits t bias) ∧ b' = b.putAll (languagePieces bias n ts))
  | b, b', n, [], _, _ => by simp [writeLanguageTables, languagePieces, eq_comm]
  | b, b', n, t :: ts, heven, hfree => by
    obtain ⟨hs, hd, -⟩ := hfree n le_rfl
    rw [writeLanguageTables, Builder.placeOnce_eq_ok hs, Except.mapError_ok_bind]
    simp only [bind, Except.bind, List.mem_cons, forall_eq_or_imp]
    have heven0 : (b.place (.stringStart n)).size % 2 = 0 := heven
    have hd0 : (b.place (.stringStart n)).find? (.stringData n) = none := by
      rw [Builder.find?_place_of_ne _ _ (by simp)]
      exact hd
    cases hw : writeTable (b.place (.stringStart n)) t bias (.stringData n) with
    | error e =>
      simp only [reduceCtorEq, false_iff, not_and]
      intro hfits
      have := (writeTable_eq_ok_iff _ heven0 t bias (.stringData n) hd0 _ _).2 ⟨hfits.1, rfl, rfl⟩
      rw [hw] at this
      cases this
    | ok r =>
      obtain ⟨b1, len⟩ := r
      obtain ⟨hfits, rfl, -⟩ := (writeTable_eq_ok_iff _ heven0 t bias _ hd0 b1 len).1 hw
      -- past the table, its end anchor and the later languages' anchors are still free
      obtain ⟨he1, hfree'⟩ := languagesFree_step hfree t bias
      simp only [hfits, true_and]
      rw [Builder.placeOnce_eq_ok he1]
      simp only [Except.mapError]
      rw [writeLanguageTables_eq_ok_iff bias _ b' (n + 1) ts (size_language_even heven n t bias)
        hfree']
      simp [languagePieces, Builder.put]

end Tables

end Script

end DungeonFormats
