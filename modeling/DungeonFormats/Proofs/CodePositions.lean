import Mathlib
import DungeonFormats.Proofs.CodeStops

/-!
# Where reading code finds each item

Reading a data block never tracks a position: the offset of each item it returns is recomputed
from the sizes of the items before it. This module shows that the recomputed offsets are where
the reader found the items (`decode_reads_items_in_place`). At the offset of a data word stands
that word, at or above the catalog's count; at the offset of a command stand its opcode, which
the catalog describes, the count word of a variadic opcode, whose value is the number of
parameters, and the parameters one word each, a jump parameter being the label of the target
its word points to (`ReadAt`). The items end within the block.
-/

namespace DungeonFormats.Script

/-! ## Words at offsets -/

/-- The little-endian word at offset `o` of `bs`, if both its bytes are there. -/
def wordAt? (bs : List UInt8) (o : Nat) : Option UInt16 :=
  bs[o]?.bind fun a => bs[o + 1]?.map fun b => wordOf a b

theorem wordAt?_drop (bs : List UInt8) (n o : Nat) : wordAt? (bs.drop n) o = wordAt? bs (n + o) := by
  simp [wordAt?, List.getElem?_drop, Nat.add_assoc]

theorem wordAt?_of_takeWords : ∀ {n : Nat} {bs : List UInt8} {ws : List UInt16},
    takeWords n bs = some ws → ∀ i (hi : i < ws.length), wordAt? bs (2 * i) = some ws[i]
  | 0, _, ws, h, i, hi => by
    simp only [takeWords, Option.some.injEq] at h
    subst h
    simp at hi
  | n + 1, a :: b :: r, ws, h, i, hi => by
    simp only [takeWords, Option.map_eq_some_iff] at h
    obtain ⟨vs, hvs, rfl⟩ := h
    cases i with
    | zero => rfl
    | succ i =>
      have hrest := wordAt?_of_takeWords hvs i (by simpa using hi)
      rw [List.getElem_cons_succ, ← hrest, show 2 * (i + 1) = 2 + 2 * i by omega, ← wordAt?_drop]
      rfl
  | _ + 1, [], _, h, _, _ | _ + 1, [_], _, h, _, _ => by simp [takeWords] at h

/-! ## Jump parameters by index -/

section Jumps

variable (info : OpcodeInfo) (f : UInt16 → UInt16)

theorem getElem?_mapParams : ∀ (j : Nat) (ps : List UInt16) (i : Nat),
    (mapParams info f j ps)[i]? = ps[i]?.map fun p => if (info.kindAt (j + i)).isJump then f p else p
  | _, [], _ => rfl
  | j, p :: ps, 0 => by simp [mapParams]
  | j, p :: ps, i + 1 => by
    simp only [mapParams, List.getElem?_cons_succ]
    rw [getElem?_mapParams (j + 1) ps i, Nat.add_assoc, Nat.add_comm 1 i]

theorem mem_jumpParams : ∀ (j : Nat) (ps : List UInt16) (i : Nat) (hi : i < ps.length),
    (info.kindAt (j + i)).isJump → ps[i] ∈ jumpParams info j ps
  | _, [], _, hi, _ => absurd hi (Nat.not_lt_zero _)
  | j, p :: ps, 0, _, hjump => by simp_all [jumpParams]
  | j, p :: ps, i + 1, hi, hjump => by
    rw [← Nat.add_comm 1 i, ← Nat.add_assoc] at hjump
    simp only [jumpParams, List.getElem_cons_succ, List.mem_append]
    exact .inr (mem_jumpParams (j + 1) ps i (by simpa using hi) hjump)

theorem getElem_mapParams (ps : List UInt16) (i : Nat) (hi : i < ps.length)
    (hi' : i < (mapParams info f 0 ps).length) :
    (mapParams info f 0 ps)[i] = if (info.kindAt i).isJump then f ps[i] else ps[i] := by
  have := getElem?_mapParams info f 0 ps i
  rwa [List.getElem?_eq_getElem hi, List.getElem?_eq_getElem hi', Option.map_some,
    Option.some.injEq, Nat.zero_add] at this

end Jumps

theorem Catalog.mapItem_command_of_info {cat : Catalog} (f : UInt16 → UInt16) {c : Command}
    {info : OpcodeInfo} (hinfo : cat.info c.opcode = some info) :
    cat.mapItem f (.command c) = .command ⟨c.opcode, mapParams info f 0 c.params⟩ := by
  simp [Catalog.mapItem, Catalog.mapCommand, hinfo]

/-- A parameter of a jump kind is among the jump parameters of its command. -/
theorem Catalog.getElem_mem_commandJumps {cat : Catalog} {c : Command} {info : OpcodeInfo}
    (hinfo : cat.info c.opcode = some info) {k : Nat} (hk : k < c.params.length)
    (hjump : (info.kindAt k).isJump) : c.params[k] ∈ cat.commandJumps c := by
  rw [Catalog.commandJumps, hinfo]
  exact mem_jumpParams info 0 c.params k hk (by rwa [Nat.zero_add])

/-! ## Items at offsets -/

/-- Where parameter `i` of a command lies, from the command's offset: after the opcode, the
count word of a variadic opcode, and the parameters before it. -/
def OpcodeInfo.paramOffset (info : OpcodeInfo) (i : Nat) : Nat :=
  2 + (if info.isVariadic then 2 else 0) + 2 * i

/-- After an opcode at offset `o` of `bs` come `n` parameters: as many as a fixed arity gives,
or the value of the count word after a variadic opcode. -/
def CountAt (info : OpcodeInfo) (bs : List UInt8) (o n : Nat) : Prop :=
  (∀ m, info.arity = .fixed m → n = m.toNat) ∧
    (info.arity = .variadic → ∃ w, wordAt? bs (o + 2) = some w ∧ paramValue w = n)

/-- The label `p` names the target of the jump word `w` in the table `t`. -/
def LabelTable.Names (t : LabelTable) (p w : UInt16) : Prop :=
  t.idOf? (jumpTarget w) = some p.toNat

/-- The item `it` is what stands at offset `o` of `bs`, a jump parameter `p` read from the word
`w` when `names p w`. -/
inductive ReadAt (cat : Catalog) (names : UInt16 → UInt16 → Prop) (bs : List UInt8) (o : Nat) :
    Item → Prop
  /-- A data word: the word there, at or above the catalog's count. -/
  | data {w : UInt16} : wordAt? bs o = some w → cat.count ≤ w → ReadAt cat names bs o (.data w)
  /-- A command: its opcode there and described by the catalog, as many parameters as follow
  it, and each parameter the word at its place or, for a jump, what names that word. -/
  | command {c : Command} {info : OpcodeInfo} : wordAt? bs o = some c.opcode →
      cat.info c.opcode = some info → CountAt info bs o c.params.length →
      (∀ i (hi : i < c.params.length), ∃ w, wordAt? bs (o + info.paramOffset i) = some w ∧
        if (info.kindAt i).isJump then names c.params[i] w else c.params[i] = w) →
      ReadAt cat names bs o (.command c)

variable {cat : Catalog}

theorem ReadAt.drop {names : UInt16 → UInt16 → Prop} {l : List UInt8} {n o : Nat} {it : Item}
    (h : ReadAt cat names (l.drop n) o it) : ReadAt cat names l (n + o) it := by
  cases h with
  | data hw hcount => exact .data (by rwa [← wordAt?_drop]) hcount
  | command hop hinfo hcount hparams =>
    refine .command (by rwa [← wordAt?_drop]) hinfo ⟨hcount.1, fun hv => ?_⟩ fun i hi => ?_
    · obtain ⟨w, hw, hval⟩ := hcount.2 hv
      exact ⟨w, by rwa [wordAt?_drop, ← Nat.add_assoc] at hw, hval⟩
    · obtain ⟨w, hw, hname⟩ := hparams i hi
      exact ⟨w, by rwa [wordAt?_drop, ← Nat.add_assoc] at hw, hname⟩

/-- Only a data word stands where a word at or above the catalog's count is: an opcode the
catalog describes lies below it. -/
theorem ReadAt.data_iff {names : UInt16 → UInt16 → Prop} {bs : List UInt8} {o : Nat} {it : Item}
    (h : ReadAt cat names bs o it) :
    (∃ w, it = .data w) ↔ ∃ w, wordAt? bs o = some w ∧ cat.count ≤ w := by
  cases h with
  | data hw hcount => exact ⟨fun _ => ⟨_, hw, hcount⟩, fun _ => ⟨_, rfl⟩⟩
  | command hop hinfo =>
    refine ⟨fun ⟨_, h⟩ => Item.noConfusion h, fun ⟨w, hw, hcount⟩ => ?_⟩
    rw [hop, Option.some.injEq] at hw
    exact absurd (Catalog.lt_count_of_info hinfo) (UInt16.not_lt.2 (hw ▸ hcount))

/-- Naming jump parameters anew, each jump word by what `names` accepts for it. -/
theorem ReadAt.mapItem {names : UInt16 → UInt16 → Prop} {f : UInt16 → UInt16} {bs : List UInt8}
    {o : Nat} {it : Item} (h : ReadAt cat Eq bs o it) (hf : ∀ w ∈ cat.itemJumps it, names (f w) w) :
    ReadAt cat names bs o (cat.mapItem f it) := by
  cases h with
  | data hw hcount => exact .data hw hcount
  | @command c info hop hinfo hcount hparams =>
    rw [Catalog.mapItem_command_of_info f hinfo]
    refine .command hop hinfo (by simpa using hcount) fun i hi => ?_
    have hi' : i < c.params.length := by simpa using hi
    obtain ⟨w, hw, hp⟩ := hparams i hi'
    refine ⟨w, hw, ?_⟩
    simp only [getElem_mapParams info f c.params i hi' hi]
    by_cases hjump : (info.kindAt i).isJump
    · rw [if_pos hjump] at hp
      rw [if_pos hjump, if_pos hjump, ← hp]
      exact hf _ (Catalog.getElem_mem_commandJumps hinfo hi' hjump)
    · rw [if_neg hjump] at hp
      rw [if_neg hjump, if_neg hjump, hp]

/-! ## Reading -/

/-- Parameters read after an opcode stand where the command's parameters lie. -/
theorem readAt_of_paramWords {a b : UInt8} {r : List UInt8} {info : OpcodeInfo} {ws : List UInt16}
    {k : Nat} (hinfo : cat.info (wordOf a b) = some info) (h : paramWords info r = some (ws, k)) :
    ReadAt cat Eq (a :: b :: r) 0 (.command ⟨wordOf a b, ws⟩) := by
  unfold paramWords at h
  cases hA : info.arity with
  | fixed n =>
    rw [hA] at h
    obtain ⟨vs, hvs, hk⟩ := Option.map_eq_some_iff.1 h
    cases hk
    have hoff : ∀ i, 0 + info.paramOffset i = 2 + 2 * i := by
      simp [OpcodeInfo.paramOffset, OpcodeInfo.isVariadic, hA]
    refine .command rfl hinfo ⟨fun m hm => ?_, fun hv => by simp [hA] at hv⟩ fun i hi => ?_
    · rw [hA, Arity.fixed.injEq] at hm
      exact hm ▸ (takeWords_spec hvs).1
    · refine ⟨ws[i], ?_, by split <;> rfl⟩
      rw [hoff, ← wordAt?_drop]
      exact wordAt?_of_takeWords hvs i hi
  | variadic =>
    rw [hA] at h
    rcases r with _ | ⟨c0, _ | ⟨c1, r⟩⟩
    · cases h
    · cases h
    simp only at h
    split at h
    · cases h
    rename_i hneg
    obtain ⟨vs, hvs, hk⟩ := Option.map_eq_some_iff.1 h
    cases hk
    have hoff : ∀ i, 0 + info.paramOffset i = 4 + 2 * i := by
      simp [OpcodeInfo.paramOffset, OpcodeInfo.isVariadic, hA]
    have hlen : (ws.length : Int) = paramValue (wordOf c0 c1) := by
      rw [(takeWords_spec hvs).1]
      omega
    refine .command rfl hinfo ⟨fun m hm => by simp [hA] at hm, fun _ => ⟨_, rfl, hlen.symm⟩⟩
      fun i hi => ⟨ws[i], ?_, by split <;> rfl⟩
    rw [hoff, ← wordAt?_drop]
    exact wordAt?_of_takeWords hvs i hi

/-- The items read from `bs` end within it, and each stands, as read, at the offset that the
sizes of the items before it give. -/
theorem readAt_rawItems {pos : Nat} {bs : List UInt8} {X : List Item}
    (h : rawItems cat pos bs = .ok X) :
    cat.itemsSize X ≤ bs.length ∧
      ∀ k (hk : k < X.length), ReadAt cat Eq bs (cat.itemsSize (X.take k)) X[k] := by
  fun_induction rawItems cat pos bs generalizing X with
  | case1 pos a b r w hw =>
    rename_i ih
    obtain ⟨X', hX', rfl⟩ := Except.map_eq_ok_iff.1 h
    obtain ⟨hle, hat⟩ := ih hX'
    refine ⟨by simp only [Catalog.itemsSize, Catalog.itemSize, List.length_cons]; omega, fun k hk => ?_⟩
    cases k with
    | zero => exact .data rfl hw
    | succ k =>
      simp only [List.take_succ_cons, Catalog.itemsSize, Catalog.itemSize, List.getElem_cons_succ]
      exact ReadAt.drop (l := a :: b :: r) (n := 2) (hat k (by simpa using hk))
  | case2 => cases h
  | case3 =>
    cases h
    exact ⟨Nat.zero_le _, fun k hk => absurd hk (Nat.not_lt_zero _)⟩
  | case4 pos a b r w hw info hinfo ws k hparams =>
    rename_i ih
    obtain ⟨X', hX', rfl⟩ := Except.map_eq_ok_iff.1 h
    obtain ⟨hle, hat⟩ := ih hX'
    obtain ⟨-, hk, hkr⟩ := paramWords_spec hparams w
    have hsize : cat.commandSize ⟨w, ws⟩ = 2 + k := by
      simp only [Catalog.commandSize, isVariadic_of_info cat hinfo, hk]
      unfold OpcodeInfo.isVariadic
      omega
    refine ⟨?_, fun j hj => ?_⟩
    · simp only [Catalog.itemsSize, Catalog.itemSize, hsize, List.length_cons]
      simp only [List.length_drop] at hle
      omega
    cases j with
    | zero => exact readAt_of_paramWords hinfo hparams
    | succ j =>
      simp only [List.take_succ_cons, Catalog.itemsSize, Catalog.itemSize, List.getElem_cons_succ,
        hsize, Nat.add_assoc]
      exact ReadAt.drop (l := a :: b :: r) (n := 2) (ReadAt.drop (hat j (by simpa using hj)))
  | case5 =>
    cases h
    exact ⟨Nat.zero_le _, fun k hk => absurd hk (Nat.not_lt_zero _)⟩

/-- Decoding gives the raw reading from the start, each jump word named by the label of its
target in the table noted from all the jump words read. -/
theorem code_of_decode {block : List UInt8} {start : Nat} {code : Code}
    (h : Code.decode cat block start = .ok code) :
    start ≤ block.length ∧ ∃ X, rawItems cat start (block.drop start) = .ok X ∧
      code.items = X.map (cat.mapItem code.labels.labelOf) ∧
      code.labels = LabelTable.empty.noteAll (cat.jumps X) := by
  unfold Code.decode at h
  split at h
  · rename_i hstart
    rw [decodeItems_eq_rawItems] at h
    cases hraw : rawItems cat start (block.drop start) with
    | error e => simp [hraw, Except.map] at h
    | ok X =>
      simp only [hraw, Except.map, Except.ok.injEq] at h
      subst h
      exact ⟨hstart, X, rfl, rfl, rfl⟩
  · cases h

/-- Every item that decoding a data block from `start` returns stands at the offset that the
sizes of the items before it give, within the block: a data word as that word, at or above the
catalog's count, and only a data word stands at such a word; a command as its opcode, which the
catalog describes, with as many parameters as its arity or its count word gives, each the word at
its place or, for a jump, the label in the code's table of the offset that word points to. -/
theorem decode_reads_items_in_place (cat : Catalog) (block : List UInt8) (start : Nat) (code : Code)
    (h : Code.decode cat block start = .ok code) :
    start + cat.itemsSize code.items ≤ block.length ∧
      ∀ k (hk : k < code.items.length),
        ReadAt cat code.labels.Names block (start + cat.itemsSize (code.items.take k)) code.items[k] ∧
        ((∃ w, code.items[k] = .data w) ↔
          ∃ w, wordAt? block (start + cat.itemsSize (code.items.take k)) = some w ∧ cat.count ≤ w) := by
  obtain ⟨hstart, X, hX, hitems, hlabels⟩ := code_of_decode h
  obtain ⟨hle, hat⟩ := readAt_rawItems hX
  have hnames : ∀ w ∈ cat.jumps X, code.labels.Names (code.labels.labelOf w) w := by
    rw [hlabels]
    exact (LabelTable.numbersByFirstUse_noteAll _).idOf?_target
  have hsize : ∀ n, cat.itemsSize (code.items.take n) = cat.itemsSize (X.take n) := by
    intro n
    rw [hitems, ← List.map_take, Catalog.itemsSize_map_mapItem]
  refine ⟨?_, fun k hk => ?_⟩
  · rw [hitems, Catalog.itemsSize_map_mapItem]
    simp only [List.length_drop] at hle
    omega
  have hkX : k < X.length := by simpa [hitems] using hk
  have hitem : code.items[k] = cat.mapItem code.labels.labelOf X[k] := by simp [hitems]
  have hread : ReadAt cat code.labels.Names block (start + cat.itemsSize (code.items.take k))
      code.items[k] := by
    rw [hsize, hitem]
    exact ReadAt.drop ((hat k hkX).mapItem fun w hw =>
      hnames w (List.mem_flatMap.2 ⟨X[k], List.getElem_mem hkX, hw⟩))
  exact ⟨hread, hread.data_iff⟩

/-- A variadic call with its count word `2`, a constant and a jump to word `5`, then a no-op and
an end. -/
def callBlock : List UInt8 :=
  [9, 0, 2, 0, 0, 0, 5, 0, 0, 0, 10, 0]

/-- What `callBlock` reads as: the call's jump gets label `0`, for byte offset `10`. -/
def callCode : Code :=
  ⟨[.command ⟨9, [0, 0]⟩, .command ⟨0, []⟩, .command ⟨10, []⟩], ⟨[(10, 5)]⟩⟩

theorem decode_reads_items_in_place_call :
    Code.decode exampleCatalog callBlock 0 = .ok callCode ∧
      0 + exampleCatalog.itemsSize callCode.items ≤ callBlock.length ∧
      ∀ k (hk : k < callCode.items.length),
        ReadAt exampleCatalog callCode.labels.Names callBlock
          (0 + exampleCatalog.itemsSize (callCode.items.take k)) callCode.items[k] ∧
        ((∃ w, callCode.items[k] = .data w) ↔
          ∃ w, wordAt? callBlock (0 + exampleCatalog.itemsSize (callCode.items.take k)) = some w ∧
            exampleCatalog.count ≤ w) :=
  have h : Code.decode exampleCatalog callBlock 0 = .ok callCode := by decide +kernel
  ⟨h, decode_reads_items_in_place exampleCatalog callBlock 0 callCode h⟩

end DungeonFormats.Script
