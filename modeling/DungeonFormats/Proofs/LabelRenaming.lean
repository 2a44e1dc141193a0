import Mathlib
import DungeonFormats.Proofs.Labels

/-!
# Label ids are only names

A script names the targets of its jumps by label ids. Renaming every id by an injective map `π`
renames the label instructions, the jump parameters of every command the catalog describes,
folded ones included, and the keys of the raw targets (`Script.relabel`). Each step of resolving
labels then gives what it gave before, or the same error with its label renamed: placing labels
gives the same offsets under the new names (`placeLabels_relabel`), and each jump parameter
resolves to the same word (`resolveParams_relabel`), so the script's image is unchanged
(`image_relabel`). Writing the renamed script therefore gives the same bytes, and fails exactly
when writing the script fails (`encode_relabel`).
-/

namespace DungeonFormats

theorem Except.mapError_bind {ε ε' α β : Type} (x : Except ε α) (f : α → Except ε β)
    (g : ε → ε') : (x >>= f).mapError g = x.mapError g >>= fun a => (f a).mapError g := by
  cases x <;> rfl

theorem Except.map_mapError {ε ε' α β : Type} (x : Except ε α) (f : α → β) (g : ε → ε') :
    (x.mapError g).map f = (x.map f).mapError g := by
  cases x <;> rfl

/-- A traversal of mapped elements by a step that agrees with another up to the errors agrees
with the other traversal up to the errors. -/
theorem Except.mapM_map_mapError {ε ε' α β γ : Type} {f : α → Except ε β} {f' : γ → Except ε' β}
    {h : α → γ} {g : ε → ε'} :
    ∀ {xs : List α}, (∀ x ∈ xs, f' (h x) = (f x).mapError g) →
      (xs.map h).mapM f' = (xs.mapM f).mapError g
  | [], _ => rfl
  | x :: xs, hf => by
    rw [List.map_cons, List.mapM_cons, List.mapM_cons, hf x List.mem_cons_self,
      Except.mapM_map_mapError fun y hy => hf y (List.mem_cons_of_mem _ hy)]
    cases f x <;> cases xs.mapM f <;> rfl

namespace Script

/-! ## Renaming -/

/-- A jump parameter holding label `p`, holding `π p` instead. -/
def renameWord (π : LabelId → LabelId) (p : UInt16) : UInt16 :=
  (π ⟨p⟩).val

/-- The instruction with its label renamed by `π`, and the jump parameters of the commands it
stands for. -/
def Instruction.relabel (cat : Catalog) (π : LabelId → LabelId) : Instruction → Instruction
  | .command c => .command (cat.mapCommand (renameWord π) c)
  | .data w => .data w
  | .label l => .label (π l)
  | .switch c cs =>
    .switch (cat.mapCommand (renameWord π) c) (cs.map (cat.mapCommand (renameWord π)))
  | .special c cs =>
    .special (cat.mapCommand (renameWord π) c) (cs.map (cat.mapCommand (renameWord π)))
  | .accessor c a => .accessor (cat.mapCommand (renameWord π) c) (cat.mapCommand (renameWord π) a)

/-- Raw targets with their ids renamed by `π`, kept in increasing order of id. -/
def renameRaw (π : LabelId → LabelId) (raw : List (LabelId × UInt16)) :
    List (LabelId × UInt16) :=
  raw.foldr (fun p acc => insertRawTarget (π p.1) p.2 acc) []

/-- The script with every label id renamed by `π`. -/
def relabel (cat : Catalog) (π : LabelId → LabelId) (s : Script) : Script :=
  { s with
    groups := s.groups.map fun g =>
      { g with instructions := g.instructions.map (Instruction.relabel cat π) }
    rawTargets := renameRaw π s.rawTargets }

/-- The error with the label it names renamed by `π`. -/
def EncodeError.relabel (π : LabelId → LabelId) : EncodeError → EncodeError
  | .definedTwice l => .definedTwice (π l)
  | .definedAndRaw l => .definedAndRaw (π l)
  | .undefinedLabel name p => .undefinedLabel name (renameWord π p)
  | e => e

variable {π : LabelId → LabelId}

theorem commands_relabel (cat : Catalog) (i : Instruction) :
    (i.relabel cat π).commands = i.commands.map (cat.mapCommand (renameWord π)) := by
  cases i <;> rfl

theorem commandsSize_map_mapCommand (cat : Catalog) (f : UInt16 → UInt16) (cs : List Command) :
    cat.commandsSize (cs.map (cat.mapCommand f)) = cat.commandsSize cs := by
  induction cs with
  | nil => rfl
  | cons c cs ih => simp [Catalog.commandsSize, Catalog.commandSize, ih]

theorem label?_relabel (cat : Catalog) (i : Instruction) :
    (i.relabel cat π).label? = i.label?.map π := by
  cases i <;> rfl

@[simp] theorem instructionSize_relabel (cat : Catalog) (i : Instruction) :
    cat.instructionSize (i.relabel cat π) = cat.instructionSize i := by
  cases i with
  | data w => rfl
  | label l => rfl
  | command c => exact commandsSize_map_mapCommand cat (renameWord π) [c]
  | switch c cs => exact commandsSize_map_mapCommand cat (renameWord π) (c :: cs)
  | special c cs => exact commandsSize_map_mapCommand cat (renameWord π) (c :: cs)
  | accessor c a => exact commandsSize_map_mapCommand cat (renameWord π) [c, a]

/-! ## Looking labels up under new names -/

section Lookups

variable (hπ : Function.Injective π)
include hπ

/-- Offsets or words listed under renamed labels are found under the new name of a label. -/
theorem lookup_rename {β : Type} (acc : List (LabelId × β)) (l : LabelId) :
    (acc.map fun q => (π q.1, q.2)).lookup (π l) = acc.lookup l := by
  induction acc with
  | nil => rfl
  | cons q acc ih =>
    obtain ⟨k, b⟩ := q
    simp [lookup_cons_eq_ite, hπ.eq_iff, ih]

omit hπ in
/-- Adding a raw target replaces the word of its id and leaves every other id's. -/
theorem lookup_insertRawTarget (l k : LabelId) (w : UInt16) :
    ∀ xs : List (LabelId × UInt16),
      (insertRawTarget l w xs).lookup k = if k = l then some w else xs.lookup k
  | [] => by simp [insertRawTarget, lookup_cons_eq_ite]
  | (l', w') :: rest => by
    unfold insertRawTarget
    split
    · simp [lookup_cons_eq_ite]
    · split
      · rename_i heq
        obtain rfl : l = l' := by cases l; cases l'; simp_all
        simp only [lookup_cons_eq_ite]
        split <;> rfl
      · rename_i hne
        have hll : l ≠ l' := fun h => hne (h ▸ rfl)
        simp only [lookup_cons_eq_ite, lookup_insertRawTarget l k w rest]
        by_cases hk : k = l
        · simp [hk, hll]
        · simp [hk]

theorem lookup_renameRaw (raw : List (LabelId × UInt16)) (l : LabelId) :
    (renameRaw π raw).lookup (π l) = raw.lookup l := by
  induction raw with
  | nil => rfl
  | cons q raw ih =>
    change (insertRawTarget (π q.1) q.2 (renameRaw π raw)).lookup (π l) = _
    obtain ⟨k, w⟩ := q
    rw [lookup_insertRawTarget, ih, lookup_cons_eq_ite]
    simp only [hπ.eq_iff]

end Lookups

/-! ## Each step of resolving labels -/

/-- Offsets listed under renamed labels. -/
def renameOffsets (π : LabelId → LabelId) (acc : List (LabelId × Nat)) : List (LabelId × Nat) :=
  acc.map fun q => (π q.1, q.2)

section Steps

variable (hπ : Function.Injective π) (cat : Catalog) {raw raw' : List (LabelId × UInt16)}
  (hraw : ∀ l, raw'.lookup (π l) = raw.lookup l)
include hπ hraw

/-- Placing renamed labels places each at the offset it had, under its new name, or refuses it
for the same reason. -/
theorem placeLabels_relabel :
    ∀ (is : List Instruction) (o : Nat) (acc : List (LabelId × Nat)),
      placeLabels cat raw' (is.map (Instruction.relabel cat π)) o (renameOffsets π acc) =
        ((placeLabels cat raw is o acc).mapError (EncodeError.relabel π)).map (renameOffsets π)
  | [], _, _ => rfl
  | i :: is, o, acc => by
    cases hi : i.label? with
    | none =>
      have hi' : (i.relabel cat π).label? = none := by rw [label?_relabel, hi, Option.map_none]
      rw [List.map_cons, placeLabels_cons_of_label?_eq_none cat hi',
        placeLabels_cons_of_label?_eq_none cat hi, instructionSize_relabel]
      exact placeLabels_relabel is _ acc
    | some l =>
      obtain rfl := Instruction.label?_eq_some_iff.1 hi
      have ih := placeLabels_relabel is o ((l, o) :: acc)
      rw [List.map_cons, Instruction.relabel, placeLabels_cons_label, placeLabels_cons_label,
        renameOffsets, lookup_rename hπ, hraw]
      -- the label is refused under both names, or placed under both
      by_cases h1 : (acc.lookup l).isSome
      · simp [h1, Except.mapError, Except.map, EncodeError.relabel]
      by_cases h2 : (raw.lookup l).isSome
      · simp [h1, h2, Except.mapError, Except.map, EncodeError.relabel]
      rw [if_neg h1, if_neg h2, if_neg h1, if_neg h2]
      exact ih

variable {targets : List (LabelId × Nat)}

omit hπ hraw in
/-- Checking a command's arity names no label. -/
theorem checkArity_mapError_relabel (info : OpcodeInfo) (c : Command) :
    (checkArity info c).mapError (EncodeError.relabel π) = checkArity info c := by
  unfold checkArity
  split <;> split <;> rfl

omit hraw in
/-- A renamed jump parameter resolves to the word of the label it renames: the same offset, or
the same raw word, since `π` sends no other label to the new name. -/
theorem resolveParam_relabel (info : OpcodeInfo) (i : Nat) (p : UInt16)
    (hraw : ∀ l, raw'.lookup (π l) = raw.lookup l) :
    resolveParam (renameOffsets π targets) raw' info i
        (if (info.kindAt i).isJump then renameWord π p else p) =
      (resolveParam targets raw info i p).mapError (EncodeError.relabel π) := by
  unfold resolveParam
  by_cases hj : (info.kindAt i).isJump
  · simp only [hj, if_true]
    rw [show (⟨renameWord π p⟩ : LabelId) = π ⟨p⟩ from rfl, renameOffsets,
      lookup_rename hπ, hraw]
    cases targets.lookup ⟨p⟩ with
    | some o =>
      dsimp only
      by_cases h : o / 2 < 0x4000 <;> simp [h, Except.mapError, EncodeError.relabel]
    | none =>
      dsimp only
      cases raw.lookup ⟨p⟩ <;> simp [Except.mapError, EncodeError.relabel]
  · simp only [hj, Bool.false_eq_true, if_false]
    rfl

theorem resolveParams_relabel (info : OpcodeInfo) :
    ∀ (i : Nat) (ps : List UInt16),
      resolveParams (renameOffsets π targets) raw' info i (mapParams info (renameWord π) i ps) =
        (resolveParams targets raw info i ps).mapError (EncodeError.relabel π)
  | _, [] => rfl
  | i, p :: ps => by
    rw [mapParams, resolveParams, resolveParams, resolveParam_relabel hπ info i p hraw,
      resolveParams_relabel info (i + 1) ps]
    cases resolveParam targets raw info i p <;> cases resolveParams targets raw info (i + 1) ps <;>
      rfl

theorem resolveCommand_relabel (c : Command) :
    resolveCommand cat (renameOffsets π targets) raw' (cat.mapCommand (renameWord π) c) =
      (resolveCommand cat targets raw c).mapError (EncodeError.relabel π) := by
  unfold resolveCommand
  rw [Catalog.mapCommand_opcode]
  cases hinfo : cat.info c.opcode with
  | none => rfl
  | some info =>
    simp only [Catalog.mapCommand, hinfo]
    -- the renamed command has as many parameters, so its arity is checked alike
    have harity : checkArity info ⟨c.opcode, mapParams info (renameWord π) 0 c.params⟩ =
        checkArity info c := by
      simp [checkArity]
    rw [harity, Except.mapError_bind, checkArity_mapError_relabel]
    cases checkArity info c with
    | error e => rfl
    | ok u =>
      simp only [bind, Except.bind, Except.mapError]
      rw [resolveParams_relabel hπ hraw info 0 c.params]
      cases resolveParams targets raw info 0 c.params <;> rfl

theorem resolveInstruction_relabel (i : Instruction) :
    resolveInstruction cat (renameOffsets π targets) raw' (i.relabel cat π) =
      (resolveInstruction cat targets raw i).mapError (EncodeError.relabel π) := by
  have hcmds : ∀ cs : List Command,
      ((cs.map (cat.mapCommand (renameWord π))).mapM
          (resolveCommand cat (renameOffsets π targets) raw')).map (·.map Item.command) =
        ((cs.mapM (resolveCommand cat targets raw)).map (·.map Item.command)).mapError
          (EncodeError.relabel π) := fun cs => by
    rw [Except.mapM_map_mapError fun c _ => resolveCommand_relabel hπ cat hraw c,
      Except.map_mapError]
  cases i with
  | data w => rfl
  | label l => rfl
  | command c => exact hcmds [c]
  | switch c cs => exact hcmds (c :: cs)
  | special c cs => exact hcmds (c :: cs)
  | accessor c a => exact hcmds [c, a]

theorem resolveGroup_relabel (g : Group) :
    resolveGroup cat (renameOffsets π targets) raw'
        { g with instructions := g.instructions.map (Instruction.relabel cat π) } =
      (resolveGroup cat targets raw g).mapError (EncodeError.relabel π) := by
  unfold resolveGroup
  rw [Except.mapM_map_mapError fun i _ => resolveInstruction_relabel hπ cat hraw i,
    Except.mapError_bind]
  rfl

end Steps

/-- The string tables do not name labels, so their errors keep no label to rename. -/
theorem regionTables_mapError_relabel (s : Script) (r : Region) :
    (regionTables s r).mapError (EncodeError.relabel π) = regionTables s r := by
  unfold regionTables
  split
  · rfl
  · -- the tables are looked up one language after another, each lookup naming no label
    conv_rhs => rw [← List.map_id r.languages]
    refine (Except.mapM_map_mapError (h := id) fun l _ => ?_).symm
    simp only [id]
    cases s.strings.get l <;> rfl

/-- Renaming labels leaves a script's image as it was, and renames the label an error names. -/
theorem image_relabel (hπ : Function.Injective π) (game : Game) (s : Script) :
    Script.image game (s.relabel game.catalog π) =
      (Script.image game s).mapError (EncodeError.relabel π) := by
  have hraw : ∀ l, (s.relabel game.catalog π).rawTargets.lookup (π l) = s.rawTargets.lookup l :=
    lookup_renameRaw hπ s.rawTargets
  have hinstrs : (s.relabel game.catalog π).groups.flatMap (·.instructions) =
      (s.groups.flatMap (·.instructions)).map (Instruction.relabel game.catalog π) := by
    simp [Script.relabel, List.flatMap_map, List.map_flatMap]
  have hgroups : (s.relabel game.catalog π).groups =
      s.groups.map fun g => { g with instructions := g.instructions.map (Instruction.relabel game.catalog π) } :=
    rfl
  have hplace : placeLabels game.catalog (s.relabel game.catalog π).rawTargets
      ((s.groups.flatMap (·.instructions)).map (Instruction.relabel game.catalog π))
      (4 + 6 * s.groups.length) [] =
      ((placeLabels game.catalog s.rawTargets (s.groups.flatMap (·.instructions))
        (4 + 6 * s.groups.length) []).mapError (EncodeError.relabel π)).map (renameOffsets π) :=
    placeLabels_relabel hπ game.catalog hraw _ _ []
  have hregion : regionTables (s.relabel game.catalog π) game.region = regionTables s game.region :=
    rfl
  unfold Script.image
  rw [hregion]
  cases h : regionTables s game.region with
  | error e =>
    -- the string tables fail alike, with an error that names no label
    have hfix := @regionTables_mapError_relabel π s game.region
    simp only [h, Except.mapError, Except.error.injEq] at hfix
    simp only [bind, Except.bind, Except.mapError, hfix]
  | ok tables =>
    simp only [bind, Except.bind]
    split_ifs with hdiffer
    · rfl
    · -- then labels are placed alike, and each group resolves alike
      rw [hinstrs, hgroups, List.length_map, hplace]
      cases placeLabels game.catalog s.rawTargets (s.groups.flatMap (·.instructions))
          (4 + 6 * s.groups.length) [] with
      | error e => rfl
      | ok targets =>
        simp only [Except.mapError, Except.map]
        rw [Except.mapM_map_mapError fun g _ => resolveGroup_relabel hπ game.catalog hraw g]
        cases s.groups.mapM (resolveGroup game.catalog targets s.rawTargets) <;> rfl

/-- Writing does not depend on label ids: renaming every label of a script by an injective map,
in its label instructions, in the jump parameters of its commands and in its raw targets, gives a
script written as the same bytes, and one that fails exactly when the script fails. -/
theorem encode_relabel (game : Game) (s : Script) (hπ : Function.Injective π) :
    (∀ out, Script.encode game (s.relabel game.catalog π) = .ok out ↔
      Script.encode game s = .ok out) ∧
    ((∃ e, Script.encode game (s.relabel game.catalog π) = .error e) ↔
      ∃ e, Script.encode game s = .error e) := by
  have hok : ∀ out, Script.encode game (s.relabel game.catalog π) = .ok out ↔
      Script.encode game s = .ok out := by
    intro out
    simp only [encode_eq_ok_iff, image_relabel hπ, Except.mapError_eq_ok_iff]
  -- a write fails exactly when it does not succeed
  have hfail : ∀ x : Except EncodeError (List UInt8), (∃ e, x = .error e) ↔ ¬ ∃ out, x = .ok out := by
    intro x
    cases x <;> simp
  refine ⟨hok, ?_⟩
  rw [hfail, hfail]
  exact not_congr (exists_congr hok)

/-- A game whose catalog knows one opcode: a jump with one parameter. -/
def jumpGame : Game :=
  ⟨.northAmerica, .sky, ⟨.sky, 16, [(2, ⟨"Jump", .fixed 1, [.instructionOffset], .other⟩)],
    by decide⟩, rfl⟩

/-- A label, a jump to it and a jump to a raw target. -/
def jumpScript : Script :=
  ⟨[⟨0, 0, [.label ⟨0⟩, .command ⟨2, [0]⟩, .command ⟨2, [1]⟩]⟩], [],
    PerLanguage.ofList [(.english, [])], [(⟨1⟩, 0x4000)], 0⟩

/-- The next label id, the last wrapping round to the first. -/
def nextLabel (l : LabelId) : LabelId :=
  ⟨l.val + 1⟩

theorem encode_relabel_next_label :
    Function.Injective nextLabel ∧
      (∀ out, Script.encode jumpGame (jumpScript.relabel jumpGame.catalog nextLabel) = .ok out ↔
        Script.encode jumpGame jumpScript = .ok out) ∧
      ((∃ e, Script.encode jumpGame (jumpScript.relabel jumpGame.catalog nextLabel) = .error e) ↔
        ∃ e, Script.encode jumpGame jumpScript = .error e) := by
  have hinj : Function.Injective nextLabel := by
    intro a b h
    have : a.val + 1 = b.val + 1 := congrArg LabelId.val h
    cases a
    cases b
    simpa using this
  exact ⟨hinj, encode_relabel jumpGame jumpScript hinj⟩

end Script

end DungeonFormats
