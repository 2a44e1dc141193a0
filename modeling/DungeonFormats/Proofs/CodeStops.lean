import Mathlib
import DungeonFormats.Proofs.LabelNumbering

/-!
# Where reading code stops

Reading a data block walks its words from the start offset: a data word, or an opcode with its
parameters, then the next item. The offsets the walk passes are the item boundaries
(`ItemBoundary`). The walk ends with an error exactly at a boundary that holds an opcode the
catalog does not describe (`rawItems_eq_error_iff`); otherwise it ends at the boundary where the
items it read end, with fewer than two bytes left or at a command whose parameters cannot be
read (`rawItems_stops`). Parameters cannot be read when they run past the end of the block, or
when the count word of a variadic opcode reads as negative (`paramWords_eq_none_iff`). In the
second case the rest of the block is dropped although every byte the command asks for is there
(`decode_drops_after_negative_count`).
-/

namespace DungeonFormats

namespace Script

/-! ## Parameters that cannot be read -/

/-- The bytes an opcode's parameters ask for in `r`, the bytes after the opcode: two per
parameter, behind a count word if the opcode is variadic. A count word that reads as negative
asks for no parameter. -/
def paramSpan (info : OpcodeInfo) (r : List UInt8) : Nat :=
  match info.arity, r with
  | .fixed n, _ => 2 * n.toNat
  | .variadic, a :: b :: _ => 2 + 2 * (paramValue (wordOf a b)).toNat
  | .variadic, _ => 2

/-- The count word of a variadic opcode, the first word of the bytes after it, reads as
negative. -/
def NegativeCount (info : OpcodeInfo) : List UInt8 → Prop
  | a :: b :: _ => info.arity = .variadic ∧ paramValue (wordOf a b) < 0
  | _ => False

instance (info : OpcodeInfo) : ∀ r, Decidable (NegativeCount info r)
  | a :: b :: _ => inferInstanceAs (Decidable (info.arity = .variadic ∧ paramValue (wordOf a b) < 0))
  | [] => inferInstanceAs (Decidable False)
  | [_] => inferInstanceAs (Decidable False)

theorem NegativeCount.variadic {info : OpcodeInfo} {r : List UInt8} (h : NegativeCount info r) :
    info.arity = .variadic := by
  unfold NegativeCount at h
  split at h
  · exact h.1
  · exact h.elim

theorem takeWords_eq_none_iff : ∀ (n : Nat) (bs : List UInt8),
    takeWords n bs = none ↔ bs.length < 2 * n
  | 0, _ => by simp [takeWords]
  | n + 1, a :: b :: r => by
    simp only [takeWords, Option.map_eq_none_iff, takeWords_eq_none_iff n r, List.length_cons]
    omega
  | _ + 1, [] => by simp [takeWords]
  | _ + 1, [_] => by
    simp [takeWords]
    omega

/-- Parameters cannot be read exactly when they run past the end of the bytes, or when the count
word of a variadic opcode reads as negative. -/
theorem paramWords_eq_none_iff (info : OpcodeInfo) (r : List UInt8) :
    paramWords info r = none ↔ r.length < paramSpan info r ∨ NegativeCount info r := by
  unfold paramWords paramSpan
  cases hA : info.arity with
  | fixed n =>
    simp only [Option.map_eq_none_iff, takeWords_eq_none_iff]
    exact ⟨.inl, fun h => h.elim id fun hneg => absurd hneg.variadic (by simp [hA])⟩
  | variadic =>
    rcases r with _ | ⟨a, _ | ⟨b, r⟩⟩
    · simp [NegativeCount]
    · simp [NegativeCount]
    · simp only [NegativeCount, hA, true_and, List.length_cons]
      by_cases hneg : paramValue (wordOf a b) < 0
      · simp [hneg]
      · simp only [hneg, if_false, or_false, Option.map_eq_none_iff, takeWords_eq_none_iff]
        omega

/-- Parameters that can be read take the bytes they ask for. -/
theorem paramWords_eq_some {info : OpcodeInfo} {r : List UInt8} {ws : List UInt16} {k : Nat}
    (h : paramWords info r = some (ws, k)) : k = paramSpan info r := by
  unfold paramWords at h
  unfold paramSpan
  cases hA : info.arity with
  | fixed n =>
    rw [hA] at h
    obtain ⟨vs, -, hk⟩ := Option.map_eq_some_iff.1 h
    exact (Prod.mk.inj hk).2.symm
  | variadic =>
    rw [hA] at h
    rcases r with _ | ⟨a, _ | ⟨b, r⟩⟩
    · cases h
    · cases h
    · simp only at h
      split at h
      · cases h
      obtain ⟨vs, -, hk⟩ := Option.map_eq_some_iff.1 h
      exact (Prod.mk.inj hk).2.symm

/-- Parameters that can be read are all there, behind a count word that is not negative. -/
theorem readable_of_paramWords_eq_some {info : OpcodeInfo} {r : List UInt8}
    {p : List UInt16 × Nat} (h : paramWords info r = some p) :
    paramSpan info r ≤ r.length ∧ ¬ NegativeCount info r := by
  have hstop : ¬ (r.length < paramSpan info r ∨ NegativeCount info r) := by
    rw [← paramWords_eq_none_iff, h]
    simp
  obtain ⟨hspan, hneg⟩ := not_or.1 hstop
  exact ⟨Nat.le_of_not_lt hspan, hneg⟩

theorem exists_paramWords_eq_some {info : OpcodeInfo} {r : List UInt8}
    (hspan : paramSpan info r ≤ r.length) (hneg : ¬ NegativeCount info r) :
    ∃ ws, paramWords info r = some (ws, paramSpan info r) := by
  obtain ⟨⟨ws, k⟩, h⟩ := Option.ne_none_iff_exists'.1 fun hnone =>
    ((paramWords_eq_none_iff info r).1 hnone).elim (fun h => by omega) hneg
  exact ⟨ws, paramWords_eq_some h ▸ h⟩

/-! ## The walk over the items -/

variable (cat : Catalog)

/-- The offsets of `bs` at which reading starts an item: the first, and, past a data word or a
command whose parameters can be read, the boundaries of what follows it. -/
inductive ItemBoundary : List UInt8 → Nat → Prop
  | first (bs : List UInt8) : ItemBoundary bs 0
  | data {a b : UInt8} {r : List UInt8} {q : Nat} : cat.count ≤ wordOf a b →
      ItemBoundary r q → ItemBoundary (a :: b :: r) (2 + q)
  | command {a b : UInt8} {r : List UInt8} {info : OpcodeInfo} {q : Nat} :
      cat.info (wordOf a b) = some info → paramSpan info r ≤ r.length → ¬ NegativeCount info r →
      ItemBoundary (r.drop (paramSpan info r)) q → ItemBoundary (a :: b :: r) (2 + paramSpan info r + q)

/-- What is left after the walk, read at a boundary, starts with an opcode the catalog does not
describe. -/
def UnknownAt (rest : List UInt8) : Prop :=
  ∃ a b r, rest = a :: b :: r ∧ wordOf a b < cat.count ∧ cat.info (wordOf a b) = none

/-- What is left where reading stops without an error: fewer than two bytes, or an opcode whose
parameters cannot be read. -/
def StopsAt (rest : List UInt8) : Prop :=
  rest.length < 2 ∨ ∃ a b r info, rest = a :: b :: r ∧ cat.info (wordOf a b) = some info ∧
    (r.length < paramSpan info r ∨ NegativeCount info r)

variable {cat}

theorem ItemBoundary.le_length {bs : List UInt8} {q : Nat} (h : ItemBoundary cat bs q) :
    q ≤ bs.length := by
  induction h with
  | first => simp
  | data _ _ ih => simp only [List.length_cons]; omega
  | command _ hspan _ _ ih => simp only [List.length_cons, List.length_drop] at ih ⊢; omega

/-- A boundary of what follows the first item, seen from the bytes before it. -/
theorem drop_of_itemBoundary_data {a b : UInt8} {r : List UInt8} (q : Nat) :
    (a :: b :: r).drop (2 + q) = r.drop q := by
  rw [Nat.add_comm]
  rfl

theorem drop_of_itemBoundary_command {a b : UInt8} {r : List UInt8} (k q : Nat) :
    (a :: b :: r).drop (2 + k + q) = (r.drop k).drop q := by
  rw [List.drop_drop, Nat.add_comm 2, Nat.add_assoc, Nat.add_comm 2]
  rfl

/-- Reading fails exactly at a boundary that holds an opcode the catalog does not describe, and
its error names that opcode and its offset. -/
theorem rawItems_eq_error_iff {pos : Nat} {bs : List UInt8} {e : DecodeError} :
    rawItems cat pos bs = .error e ↔
      ∃ q a b r, ItemBoundary cat bs q ∧ bs.drop q = a :: b :: r ∧ wordOf a b < cat.count ∧
        cat.info (wordOf a b) = none ∧ e = .unknownOpcode (wordOf a b) (pos + q) := by
  constructor
  · intro h
    fun_induction rawItems cat pos bs with
    | case1 pos a b r w hw ih =>
      obtain ⟨q, a', b', r', hq, hdrop, hlt, hinfo, rfl⟩ := ih (Except.map_eq_error_iff.1 h)
      refine ⟨2 + q, a', b', r', .data hw hq, ?_, hlt, hinfo, by simp only [Nat.add_assoc]⟩
      rw [drop_of_itemBoundary_data, hdrop]
    | case2 pos a b r w hw hinfo =>
      cases h
      exact ⟨0, a, b, r, .first _, rfl, UInt16.not_le.1 hw, hinfo, by simp [w]⟩
    | case3 => cases h
    | case4 pos a b r w hw info hinfo ws k hparams ih =>
      obtain ⟨q, a', b', r', hq, hdrop, hlt, hinfo', rfl⟩ := ih (Except.map_eq_error_iff.1 h)
      obtain ⟨hspan, hneg⟩ := readable_of_paramWords_eq_some hparams
      obtain rfl := paramWords_eq_some hparams
      refine ⟨2 + paramSpan info r + q, a', b', r', .command hinfo hspan hneg hq, ?_, hlt, hinfo',
        by simp only [Nat.add_assoc]⟩
      rw [drop_of_itemBoundary_command, hdrop]
    | case5 => cases h
  · rintro ⟨q, a, b, r, hq, hdrop, hlt, hinfo, rfl⟩
    induction hq generalizing pos with
    | first bs =>
      rw [List.drop_zero] at hdrop
      subst hdrop
      rw [rawItems.eq_1, if_neg (UInt16.not_le.2 hlt)]
      simp [hinfo]
    | data hw _ ih =>
      rw [drop_of_itemBoundary_data] at hdrop
      rw [rawItems.eq_1, if_pos hw, ih hdrop]
      simp [Functor.map, Except.map, Nat.add_assoc]
    | command hinfo' hspan hneg _ ih =>
      rw [drop_of_itemBoundary_command] at hdrop
      obtain ⟨ws, hws⟩ := exists_paramWords_eq_some hspan hneg
      rw [rawItems.eq_1, if_neg (UInt16.not_le.2 (Catalog.lt_count_of_info hinfo'))]
      simp only [hinfo', hws]
      rw [ih hdrop]
      simp [Functor.map, Except.map, Nat.add_assoc]

/-- Reading that does not fail ends at a boundary: the end of its items, where fewer than two
bytes are left or an opcode's parameters cannot be read. -/
theorem rawItems_stops {pos : Nat} {bs : List UInt8} {X : List Item}
    (h : rawItems cat pos bs = .ok X) :
    ItemBoundary cat bs (cat.itemsSize X) ∧ StopsAt cat (bs.drop (cat.itemsSize X)) := by
  fun_induction rawItems cat pos bs generalizing X with
  | case1 pos a b r w hw =>
    rename_i ih
    obtain ⟨X', hX', rfl⟩ := Except.map_eq_ok_iff.1 h
    obtain ⟨hq, hstop⟩ := ih hX'
    have hsize : cat.itemsSize (Item.data w :: X') = 2 + cat.itemsSize X' := rfl
    rw [hsize, drop_of_itemBoundary_data]
    exact ⟨.data hw hq, hstop⟩
  | case2 => cases h
  | case3 pos a b r w hw info hinfo =>
    rename_i hparams
    cases h
    exact ⟨.first _, .inr ⟨a, b, r, info, rfl, hinfo, (paramWords_eq_none_iff info r).1 hparams⟩⟩
  | case4 pos a b r w hw info hinfo ws k hparams =>
    rename_i ih
    obtain ⟨X', hX', rfl⟩ := Except.map_eq_ok_iff.1 h
    obtain ⟨hq, hstop⟩ := ih hX'
    obtain ⟨hspan, hneg⟩ := readable_of_paramWords_eq_some hparams
    obtain rfl := paramWords_eq_some hparams
    -- a command read takes its opcode and the bytes its parameters ask for
    have hsize : cat.itemsSize (Item.command ⟨w, ws⟩ :: X') = 2 + paramSpan info r + cat.itemsSize X' := by
      obtain ⟨-, hk, -⟩ := paramWords_spec hparams w
      unfold OpcodeInfo.isVariadic at hk
      simp only [Catalog.itemsSize, Catalog.itemSize, Catalog.commandSize,
        isVariadic_of_info cat hinfo]
      omega
    rw [hsize, drop_of_itemBoundary_command]
    exact ⟨.command hinfo hspan hneg hq, hstop⟩
  | case5 pos bs hshort =>
    cases h
    refine ⟨.first _, .inl ?_⟩
    rcases bs with _ | ⟨a, _ | ⟨b, r⟩⟩
    · simp
    · simp
    · exact absurd rfl (hshort a b r)

/-! ## Decoding a data block -/

/-- Decoding fails at a start past the end of the block, or where reading its items fails. -/
theorem decode_eq_error_iff {block : List UInt8} {start : Nat} {e : DecodeError} :
    Code.decode cat block start = .error e ↔
      (block.length < start ∧ e = .cursor (.seek start block.length)) ∨
        (start ≤ block.length ∧ rawItems cat start (block.drop start) = .error e) := by
  unfold Code.decode
  split
  · rename_i hstart
    rw [decodeItems_eq_rawItems]
    cases rawItems cat start (block.drop start) <;> simp [Except.map, hstart]
  · rename_i hstart
    simp only [Except.error.injEq, hstart, false_and, or_false]
    exact ⟨fun h => ⟨by omega, h.symm⟩, fun h => h.2.symm⟩

/-- Decoded items take as many bytes as the raw items they name targets in. -/
theorem decode_eq_ok {block : List UInt8} {start : Nat} {code : Code}
    (h : Code.decode cat block start = .ok code) :
    start ≤ block.length ∧ ∃ X, rawItems cat start (block.drop start) = .ok X ∧
      cat.itemsSize code.items = cat.itemsSize X := by
  unfold Code.decode at h
  split at h
  · rename_i hstart
    rw [decodeItems_eq_rawItems] at h
    cases hX : rawItems cat start (block.drop start) with
    | error e => simp [hX, Except.map] at h
    | ok X =>
      simp only [hX, Except.map, Except.ok.injEq] at h
      subst h
      exact ⟨hstart, X, rfl, Catalog.itemsSize_map_mapItem cat _ X⟩
  · cases h

/-- Decoding a data block from `start` fails exactly when the start lies past the end, or when the
walk over its items reaches, at a boundary, an opcode the catalog does not describe. When it
succeeds, its items end at a boundary `e` of the walk, which is the end of the block, one byte
before it, or the offset of an opcode whose parameters run past the end of the block or whose
count word reads as negative. -/
theorem decode_fails_or_stops (cat : Catalog) (block : List UInt8) (start : Nat) :
    ((∃ e, Code.decode cat block start = .error e) ↔
      block.length < start ∨
        ∃ q, ItemBoundary cat (block.drop start) q ∧ UnknownAt cat (block.drop (start + q))) ∧
    ∀ code, Code.decode cat block start = .ok code →
      ItemBoundary cat (block.drop start) (cat.itemsSize code.items) ∧
      (start + cat.itemsSize code.items = block.length ∨
        start + cat.itemsSize code.items + 1 = block.length ∨
        ∃ a b r info, block.drop (start + cat.itemsSize code.items) = a :: b :: r ∧
          cat.info (wordOf a b) = some info ∧ (r.length < paramSpan info r ∨ NegativeCount info r)) := by
  refine ⟨⟨?_, ?_⟩, fun code h => ?_⟩
  · rintro ⟨e, h⟩
    rcases decode_eq_error_iff.1 h with ⟨hlt, -⟩ | ⟨-, hraw⟩
    · exact .inl hlt
    · obtain ⟨q, a, b, r, hq, hdrop, hlt, hinfo, -⟩ := rawItems_eq_error_iff.1 hraw
      rw [List.drop_drop] at hdrop
      exact .inr ⟨q, hq, a, b, r, hdrop, hlt, hinfo⟩
  · rintro (hlt | ⟨q, hq, a, b, r, hdrop, hlt, hinfo⟩)
    · exact ⟨_, decode_eq_error_iff.2 (.inl ⟨hlt, rfl⟩)⟩
    · by_cases hstart : start ≤ block.length
      · rw [← List.drop_drop] at hdrop
        exact ⟨_, decode_eq_error_iff.2 (.inr ⟨hstart,
          rawItems_eq_error_iff.2 ⟨q, a, b, r, hq, hdrop, hlt, hinfo, rfl⟩⟩)⟩
      · exact ⟨_, decode_eq_error_iff.2 (.inl ⟨by omega, rfl⟩)⟩
  · obtain ⟨hstart, X, hX, hsize⟩ := decode_eq_ok h
    obtain ⟨hq, hstop⟩ := rawItems_stops hX
    have hle := hq.le_length
    rw [hsize]
    rw [List.drop_drop] at hstop
    refine ⟨hq, ?_⟩
    -- fewer than two bytes left is the end of the block or one byte before it
    rcases hstop with hshort | hcmd
    · simp only [List.length_drop] at hshort hle
      omega
    · exact .inr (.inr hcmd)

/-- A variadic opcode whose count word, `0x4000`, reads as negative: the command's count word is
there and it asks for no more, yet decoding stops before it, dropping the rest of the block. -/
theorem decode_drops_after_negative_count :
    ∃ info, exampleCatalog.info 9 = some info ∧ paramSpan info [0, 0x40] ≤ 2 ∧
      NegativeCount info [0, 0x40] ∧
      Code.decode exampleCatalog [9, 0, 0, 0x40] 0 = .ok ⟨[], LabelTable.empty⟩ :=
  ⟨_, rfl, by decide, by decide, by decide +kernel⟩

end Script

end DungeonFormats
