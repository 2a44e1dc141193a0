import Mathlib
import DungeonFormats.Proofs.ScriptRead
import DungeonFormats.Proofs.PanicFreedom

/-!
# String tables after any prefix

A string table can be written into a builder that already holds bytes. Its pointers count from
the start of the table plus a bias, and its strings are padded with a zero so that the whole
builder, not the table, ends at an even length (`writeTable_eq_ok_iff_at`). Writing fails exactly
when a string holds a NUL or a pointer does not fit its word, and it refuses rather than stops
when the bias plus each string's position is a `usize`; otherwise finishing gives the prefix, the
pointers and the padded strings, and the table reads back from its position with any base and
correction whose difference is the prefix length less the bias, as long as room can be made for
its strings and the base plus each pointer is a `usize` (`writeTable_reads_back`).
After a prefix of odd length the padding makes the strings' part odd in length
(`writeTable_pads_after_odd_prefix`).
-/

namespace DungeonFormats

namespace Piece

variable {α : Type} [DecidableEq α]

/-- Pieces without fields finish as their bytes, wherever the labels are. -/
theorem fill_of_no_field (ms : List (α × Nat)) (n : Nat) (ps : List (Piece α))
    (h : ∀ f, field f ∉ ps) : fill ms n ps = .ok (ps.flatMap raw) := by
  rw [fill_eq_of_resolve ms (fun _ => []) n ps, flatMap_filled_of_no_field _ ps h]
  intro q hq
  exact absurd (field_mem_of_mem_fields hq) (h q.2)

end Piece

namespace Script

variable {α : Type} [DecidableEq α]

theorem tableFits_iff (ss : List (List UInt8)) (bias : Nat) :
    TableFits ss bias ↔
      (∀ s ∈ ss, 0 ∉ s) ∧ ∀ p ∈ pointerValues bias (2 * ss.length) ss, p < 65536 :=
  ⟨fun h => ⟨h.no_nul, h.pointers_lt⟩, fun h => ⟨h.1, h.2⟩⟩

@[simp] theorem length_tableBodyAt (start : Nat) (ss : List (List UInt8)) :
    (tableBodyAt start ss).length =
      (ss.flatMap (· ++ [0])).length + (start + (ss.flatMap (· ++ [0])).length) % 2 := by
  simp [tableBodyAt]

section Prefix

variable (pre : List UInt8) (ss : List (List UInt8)) (bias : Nat) (data : α)

/-- The builder that holds the bytes `pre` and nothing else. -/
theorem find?_empty_append : (Builder.empty.append pre).find? data = none := rfl

omit [DecidableEq α] in
theorem size_empty_append : (Builder.empty.append pre : Builder α).size = pre.length := by
  simp [Builder.size_append]

/-- Writing a table after `pre` succeeds exactly when the table fits. -/
theorem writeTable_isOk_iff :
    (∃ r, writeTable (Builder.empty.append pre) ss bias data = .ok r) ↔ TableFits ss bias := by
  constructor
  · rintro ⟨⟨b, len⟩, h⟩
    exact ((writeTable_eq_ok_iff_at _ ss bias data (find?_empty_append pre data) b len).1 h).1
  · intro hfits
    exact ⟨_, (writeTable_eq_ok_iff_at _ ss bias data (find?_empty_append pre data) _ _).2
      ⟨hfits, rfl, rfl⟩⟩

/-- What a table written after `pre` finishes as: the prefix, the pointers and the strings padded
to an even end. -/
theorem finish_writeTable_after {b : Builder α} (hb : b = (Builder.empty.append pre).putAll
      (tablePiecesAt pre.length ss bias data)) :
    b.finish = .ok (pre ++ wordBytes (pointerValues bias (2 * ss.length) ss) ++
      tableBodyAt (pre.length + 2 * ss.length) ss) := by
  have hpieces : b = Builder.empty.putAll (.bytes pre :: tablePiecesAt pre.length ss bias data) := by
    rw [hb, Builder.putAll_cons]
    rfl
  rw [hpieces, finish_putAll, Piece.fill_of_no_field _ _ _ (by simp [tablePiecesAt])]
  simp [tablePiecesAt, Piece.raw]

/-- A string table written after any prefix: writing fails exactly when a string holds a NUL or
a pointer exceeds `0xFFFF`, and then refuses the table without stopping outright if the bias plus
the position of each string is below `2 ^ 64`; otherwise the strings' part is their bytes with
their NULs, padded by one zero when the buffer would end at an odd length, the finished bytes are
the prefix, two bytes per pointer and that part, and the table reads back from the prefix's end
with any base and correction whose difference is the prefix length less the bias, as long as its
strings are few enough for a vector and the base plus each pointer is below `2 ^ 64`. -/
theorem writeTable_reads_back :
    ((∃ e, writeTable (Builder.empty.append pre) ss bias data = .error e) ↔
      (∃ s ∈ ss, 0 ∈ s) ∨ ∃ p ∈ pointerValues bias (2 * ss.length) ss, 0xFFFF < p) ∧
    ((∀ q ∈ pointerValues bias (pre.length + 2 * ss.length) ss, q < usizeLimit) →
      ∀ p, writeTable (Builder.empty.append pre) ss bias data ≠ .error (.panic p)) ∧
    ∀ b L, writeTable (Builder.empty.append pre) ss bias data = .ok (b, L) →
      L = (ss.flatMap (· ++ [0])).length + (pre.length + (ss.flatMap (· ++ [0])).length) % 2 ∧
      ∃ B, b.finish = .ok B ∧ B.length = pre.length + 2 * ss.length + L ∧
        ∀ base correction, base + bias = correction + pre.length →
          ss.length ≤ 384307168202282325 →
          (∀ p ∈ pointerValues bias (2 * ss.length) ss, base + p < usizeLimit) →
          readTable B pre.length base ss.length correction = .ok ss := by
  refine ⟨?_, fun hsum p => ?_, fun b L h => ?_⟩
  · -- a write that does not fail succeeds, so it fails exactly when the table does not fit
    have hfail : (∃ e, writeTable (Builder.empty.append pre) ss bias data = .error e) ↔
        ¬ ∃ r, writeTable (Builder.empty.append pre) ss bias data = .ok r := by
      cases writeTable (Builder.empty.append pre) ss bias data <;> simp
    rw [hfail, writeTable_isOk_iff, tableFits_iff, not_and_or]
    simp only [not_forall, not_not, not_lt, exists_prop]
    exact or_congr Iff.rfl (exists_congr fun p => and_congr_right fun _ => by omega)
  · exact writeTable_ne_panic p _ ss bias (find?_empty_append pre data)
      (by rwa [size_empty_append])
  obtain ⟨hfits, hb, hL⟩ :=
    (writeTable_eq_ok_iff_at _ ss bias data (find?_empty_append pre data) b L).1 h
  rw [size_empty_append] at hb hL
  have hpad : (pre.length + 2 * ss.length + (ss.flatMap (· ++ [0])).length) % 2 =
      (pre.length + (ss.flatMap (· ++ [0])).length) % 2 := by
    omega
  refine ⟨by rw [hL, length_tableBodyAt, hpad], _, finish_writeTable_after pre ss bias data hb,
    by simp only [List.length_append, length_wordBytes, length_pointerValues, hL],
    fun base correction hbase hcap hsum => ?_⟩
  -- the pointers start right after the prefix, and the strings right after them
  apply readTable_of_drop _ base correction pre.length bias (by omega) ss
    (List.replicate ((pre.length + 2 * ss.length + (ss.flatMap (· ++ [0])).length) % 2) 0) _ hfits
    hcap hsum
  simp [tableBodyAt]

/-- Three bytes of prefix and a table of two strings counted from a bias of `5`: writing it
cannot stop outright, and it reads back with base `0` and correction `2`. -/
theorem writeTable_reads_back_two_strings :
    ((∀ q ∈ pointerValues 5 ([0xEE, 0xEE, 0xEE].length + 2 * [[0x61], []].length) [[0x61], []],
        q < usizeLimit) ∧
      ∀ p, writeTable (Builder.empty.append [0xEE, 0xEE, 0xEE]) [[0x61], []] 5 () ≠ .error (.panic p)) ∧
    ∃ b B, writeTable (Builder.empty.append [0xEE, 0xEE, 0xEE]) [[0x61], []] 5 () = .ok (b, 3) ∧
      b.finish = .ok B ∧ B.length = 10 ∧
      (0 + 5 = 2 + 3 ∧ 2 ≤ 384307168202282325 ∧
        ∀ p ∈ pointerValues 5 (2 * 2) [[0x61], []], 0 + p < usizeLimit) ∧
      readTable B 3 0 2 2 = .ok [[0x61], []] := by
  have hsum : ∀ q ∈ pointerValues 5 ([0xEE, 0xEE, 0xEE].length + 2 * [[0x61], []].length)
      [[0x61], []], q < usizeLimit := by decide
  obtain ⟨b, hw⟩ : ∃ b, writeTable (Builder.empty.append [0xEE, 0xEE, 0xEE])
      [[0x61], []] 5 () = .ok (b, 3) := ⟨_, rfl⟩
  obtain ⟨-, B, hB, hlen, hread⟩ :=
    (writeTable_reads_back [0xEE, 0xEE, 0xEE] [[0x61], []] 5 ()).2.2 b 3 hw
  exact ⟨⟨hsum, (writeTable_reads_back [0xEE, 0xEE, 0xEE] [[0x61], []] 5 ()).2.1 hsum⟩,
    b, B, hw, hB, hlen, ⟨rfl, by decide, by decide⟩, hread 0 2 rfl (by decide) (by decide)⟩

end Prefix

/-- After a prefix of three bytes, an empty table's strings' part is the one byte of padding
that brings the buffer to an even length, not an empty, even part: the finished bytes are four. -/
theorem writeTable_pads_after_odd_prefix :
    ∃ b, writeTable (Builder.empty.append [0xEE, 0xEE, 0xEE]) ([] : List (List UInt8)) 5 () =
      .ok (b, 1) ∧ b.finish = .ok [0xEE, 0xEE, 0xEE, 0] :=
  ⟨_, rfl, rfl⟩

end Script

end DungeonFormats
