import Mathlib
import DungeonFormats.Bytes.Builder

/-!
# Finishing a builder

`Builder.finish` computes its fields from where the labels ended up, whether they were placed
before or after the field was reserved, and writes each over its zeros in the order the fields
were reserved. `Filled` says what that gives: the bytes when every field can be computed, of the
length appended, equal to the appended bytes outside the fields and holding each field's value
inside it; otherwise the fault of the first field that cannot be computed.

`finish_filled` proves it for every builder whose fields lie one after another inside its bytes
(`FieldsFit`), and `runSteps_trace` shows that every run of builder steps keeps that invariant and
records exactly what the steps append, reserve and place. Together they give `finish_after_steps`:
the outcome of finishing any run of steps that places each label once and never aligns to zero.
-/

namespace DungeonFormats

variable {α : Type}

namespace Field

/-- `v` is the value of `f` when the labels are where `at?` says: a label's position that fits
the field, in the field's order, or the number of words from one label to a later one, when the
span is even and at most `2 * 0xFFFF` bytes, as a little-endian 16-bit word. -/
def Value (at? : α → Option Nat) : Field α → List UInt8 → Prop
  | .position l w o, v => ∃ p, at? l = some p ∧ p < 256 ^ w ∧ v = o.encode w p
  | .words s t, v => ∃ a z, at? s = some a ∧ at? t = some z ∧ a ≤ z ∧ (z - a) % 2 = 0 ∧
      z - a ≤ 2 * 0xFFFF ∧ v = ByteOrder.little.encode 2 ((z - a) / 2)

/-- `e` is why `f`, starting at `pos`, has no value when the labels are where `at?` says: the
first label it reads is not placed, or the position is too large for the field, or the span is
negative or odd, or it holds more than `0xFFFF` words. -/
def Fault (at? : α → Option Nat) (pos : Nat) : Field α → BuildFault α → Prop
  | .position l w _, e =>
    (at? l = none ∧ e = .undefinedLabel pos l) ∨
      ∃ p, at? l = some p ∧ 256 ^ w ≤ p ∧ e = .tooWide pos p (8 * w)
  | .words s t, e =>
    (at? s = none ∧ e = .undefinedLabel pos s) ∨
      (at? s ≠ none ∧ at? t = none ∧ e = .undefinedLabel pos t) ∨
      (∃ a z, at? s = some a ∧ at? t = some z ∧ (z < a ∨ (z - a) % 2 = 1) ∧
        e = .oddSpan pos a z) ∨
      ∃ a z, at? s = some a ∧ at? t = some z ∧ a ≤ z ∧ (z - a) % 2 = 0 ∧ 2 * 0xFFFF < z - a ∧
        e = .tooWide pos ((z - a) / 2) 16

theorem length_of_value {at? : α → Option Nat} {f : Field α} {v : List UInt8}
    (h : f.Value at? v) : v.length = f.size := by
  cases f with
  | position l w o =>
    obtain ⟨p, -, -, rfl⟩ := h
    exact ByteOrder.length_encode o w p
  | words s t =>
    obtain ⟨a, z, -, -, -, -, -, rfl⟩ := h
    exact ByteOrder.length_encode .little 2 _

variable [DecidableEq α]

theorem resolve_eq_ok_iff {marks : List (α × Nat)} {pos : Nat} {f : Field α} {v : List UInt8} :
    f.resolve marks pos = .ok v ↔ f.Value (marks.lookup ·) v := by
  constructor
  · intro h
    cases f with
    | position l w o =>
      simp only [resolve] at h
      split at h
      · cases h
      · split at h
        · cases h
          exact ⟨_, ‹_›, by simpa using ‹_ < Nat.pow 256 w›, rfl⟩
        · cases h
    | words s t =>
      simp only [resolve] at h
      split at h
      · cases h
      · cases h
      · split at h
        · cases h
        · split at h
          · cases h
            exact ⟨_, _, ‹_›, ‹_›, by omega, by omega, by omega, rfl⟩
          · cases h
  · intro h
    cases f with
    | position l w o =>
      obtain ⟨p, hl, hp, rfl⟩ := h
      simp [resolve, hl, hp]
    | words s t =>
      obtain ⟨a, z, ha, hz, hle, heven, hlong, rfl⟩ := h
      have hodd : ¬(z < a ∨ (z - a) % 2 = 1) := by omega
      have hfits : (z - a) / 2 ≤ 0xFFFF := by omega
      simp [resolve, ha, hz, hodd, hfits]

theorem resolve_eq_error_iff {marks : List (α × Nat)} {pos : Nat} {f : Field α}
    {e : BuildFault α} : f.resolve marks pos = .error e ↔ f.Fault (marks.lookup ·) pos e := by
  constructor
  · intro h
    cases f with
    | position l w o =>
      simp only [resolve] at h
      split at h
      · cases h
        exact .inl ⟨‹_›, rfl⟩
      · split at h
        · cases h
        · cases h
          exact .inr ⟨_, ‹_›, by simpa using ‹¬_ < Nat.pow 256 w›, rfl⟩
    | words s t =>
      simp only [resolve] at h
      split at h
      · cases h
        exact .inl ⟨‹_›, rfl⟩
      · cases h
        exact .inr (.inl ⟨by simp [‹marks.lookup s = some _›], ‹_›, rfl⟩)
      · split at h
        · cases h
          exact .inr (.inr (.inl ⟨_, _, ‹_›, ‹_›, ‹_›, rfl⟩))
        · split at h
          · cases h
          · cases h
            exact .inr (.inr (.inr ⟨_, _, ‹_›, ‹_›, by omega, by omega, by omega, rfl⟩))
  · intro h
    cases f with
    | position l w o =>
      rcases h with ⟨hl, rfl⟩ | ⟨p, hl, hp, rfl⟩
      · simp [resolve, hl]
      · have : ¬p < 256 ^ w := by omega
        simp [resolve, hl, this]
    | words s t =>
      rcases h with ⟨hs, rfl⟩ | ⟨hs, ht, rfl⟩ | ⟨a, z, hs, ht, hodd, rfl⟩ |
          ⟨a, z, hs, ht, hle, heven, hlong, rfl⟩
      · simp [resolve, hs]
      · obtain ⟨a, ha⟩ := Option.ne_none_iff_exists'.1 hs
        simp [resolve, ha, ht]
      · simp [resolve, hs, ht, hodd]
      · have hodd : ¬(z < a ∨ (z - a) % 2 = 1) := by omega
        have hlong : ¬(z - a) / 2 ≤ 0xFFFF := by omega
        simp [resolve, hs, ht, hodd, hlong]

end Field

section Overwrite

theorem size_overwrite (a : Array UInt8) (pos : Nat) (bs : List UInt8) :
    (overwrite a pos bs).size = a.size := by
  induction bs generalizing a pos with
  | nil => rfl
  | cons x xs ih => simp [overwrite, ih]

/-- Bytes outside the written run keep their value. -/
theorem getElem?_overwrite_of_not_mem (a : Array UInt8) (pos : Nat) (bs : List UInt8) {i : Nat}
    (hi : i < pos ∨ pos + bs.length ≤ i) : (overwrite a pos bs)[i]? = a[i]? := by
  induction bs generalizing a pos with
  | nil => rfl
  | cons x xs ih =>
    simp only [overwrite]
    rw [ih _ _ (by simp at hi; omega), Array.getElem?_setIfInBounds_ne (by simp at hi; omega)]

/-- Inside the written run, as far as the array reaches, the bytes are the written ones. -/
theorem getElem?_overwrite_of_mem (a : Array UInt8) (pos : Nat) (bs : List UInt8) {j : Nat}
    (hj : j < bs.length) (hfit : pos + bs.length ≤ a.size) :
    (overwrite a pos bs)[pos + j]? = bs[j]? := by
  induction bs generalizing a pos j with
  | nil => simp at hj
  | cons x xs ih =>
    simp only [overwrite]
    cases j with
    | zero =>
      have hlt : pos < a.size := by simp only [List.length_cons] at hfit; omega
      rw [getElem?_overwrite_of_not_mem _ _ _ (by omega), Nat.add_zero,
        Array.getElem?_setIfInBounds_self_of_lt hlt]
      rfl
    | succ j =>
      have := ih (a.setIfInBounds pos x) (pos + 1) (j := j) (by simp at hj; omega)
        (by simp only [List.length_cons] at hfit; simp; omega)
      rw [show pos + (j + 1) = pos + 1 + j by omega, this]
      simp

end Overwrite

/-- Fields listed by position, each starting at or after the end of the one before, the first
at or after `lo`, and all ending by `hi`. -/
def FieldsFit : List (Nat × Field α) → Nat → Nat → Prop
  | [], lo, hi => lo ≤ hi
  | (p, f) :: fs, lo, hi => lo ≤ p ∧ FieldsFit fs (p + f.size) hi

namespace FieldsFit

theorem le_hi : ∀ {fs : List (Nat × Field α)} {lo hi : Nat}, FieldsFit fs lo hi → lo ≤ hi
  | [], _, _, h => h
  | (_, _) :: _, _, _, ⟨hp, h⟩ => by have := le_hi h; omega

theorem le_start : ∀ {fs : List (Nat × Field α)} {lo hi : Nat}, FieldsFit fs lo hi →
    ∀ pf ∈ fs, lo ≤ pf.1
  | [], _, _, _, _, h => by simp at h
  | (p, f) :: fs, _, _, ⟨hp, h⟩, pf, hpf => by
    rcases List.mem_cons.1 hpf with rfl | hpf
    · exact hp
    · have := le_start h pf hpf; omega

theorem end_le : ∀ {fs : List (Nat × Field α)} {lo hi : Nat}, FieldsFit fs lo hi →
    ∀ pf ∈ fs, pf.1 + pf.2.size ≤ hi
  | [], _, _, _, _, h => by simp at h
  | (p, f) :: fs, _, _, ⟨_, h⟩, pf, hpf => by
    rcases List.mem_cons.1 hpf with rfl | hpf
    · exact le_hi h
    · exact end_le h pf hpf

theorem mono_hi : ∀ {fs : List (Nat × Field α)} {lo hi hi' : Nat}, FieldsFit fs lo hi →
    hi ≤ hi' → FieldsFit fs lo hi'
  | [], _, _, _, h, hle => Nat.le_trans h hle
  | (_, _) :: _, _, _, _, ⟨hp, h⟩, hle => ⟨hp, mono_hi h hle⟩

/-- A field reserved at the end keeps the fields fitting. -/
theorem snoc : ∀ {fs : List (Nat × Field α)} {lo n : Nat} (f : Field α), FieldsFit fs lo n →
    FieldsFit (fs ++ [(n, f)]) lo (n + f.size)
  | [], _, _, _, h => ⟨h, Nat.le_refl _⟩
  | (_, _) :: _, _, _, f, ⟨hp, h⟩ => ⟨hp, snoc f h⟩

end FieldsFit

/-- What finishing gives for the bytes `bs` with the fields `fs` reserved among them in this
order, and the labels where `at?` says. -/
structure Filled (bs : List UInt8) (fs : List (Nat × Field α)) (at? : α → Option Nat)
    (r : Except (BuildFault α) (List UInt8)) : Prop where
  ok_iff : (∃ out, r = .ok out) ↔ ∀ pf ∈ fs, ∃ v, pf.2.Value at? v
  length : ∀ out, r = .ok out → out.length = bs.length
  outside : ∀ out, r = .ok out → ∀ i, (∀ pf ∈ fs, i < pf.1 ∨ pf.1 + pf.2.size ≤ i) →
    out[i]? = bs[i]?
  inside : ∀ out, r = .ok out → ∀ pf ∈ fs, pf.2.Value at? ((out.drop pf.1).take pf.2.size)
  first_fault : ∀ e, r = .error e → ∃ pre pf post, fs = pre ++ pf :: post ∧
    (∀ q ∈ pre, ∃ v, q.2.Value at? v) ∧ pf.2.Fault at? pf.1 e

section Fill

variable [DecidableEq α]

/-- One step of `Builder.finish`: compute a field and write it over its zeros. -/
def fillField (marks : List (α × Nat)) (acc : Array UInt8) (pf : Nat × Field α) :
    Except (BuildFault α) (Array UInt8) := do
  let bs ← pf.2.resolve marks pf.1
  pure (overwrite acc pf.1 bs)

theorem filled_nil (marks : List (α × Nat)) (acc : Array UInt8) :
    Filled acc.toList [] (marks.lookup ·)
      ((([] : List (Nat × Field α)).foldlM (fillField marks) acc).map Array.toList) where
  ok_iff := ⟨fun _ _ h => by simp at h, fun _ => ⟨_, rfl⟩⟩
  length := by
    rintro out ⟨⟩
    rfl
  outside := by
    rintro out ⟨⟩ i -
    rfl
  inside := by
    rintro out - pf h
    simp at h
  first_fault := by
    rintro e ⟨⟩

/-- A first field without a value is the fault. -/
theorem filled_cons_of_fault {marks : List (α × Nat)} {acc : Array UInt8} {p : Nat}
    {f : Field α} {fs : List (Nat × Field α)} {e : BuildFault α}
    (h : f.resolve marks p = .error e) :
    Filled acc.toList ((p, f) :: fs) (marks.lookup ·) (.error e) where
  ok_iff := by
    constructor
    · rintro ⟨out, ⟨⟩⟩
    · intro hall
      obtain ⟨v, hv⟩ := hall (p, f) (List.mem_cons_self ..)
      rw [← Field.resolve_eq_ok_iff] at hv
      rw [hv] at h
      cases h
  length := by rintro out ⟨⟩
  outside := by rintro out ⟨⟩
  inside := by rintro out ⟨⟩
  first_fault := by
    rintro e' ⟨⟩
    exact ⟨[], (p, f), fs, rfl, by simp, Field.resolve_eq_error_iff.1 h⟩

/-- A first field with a value `v` is written over its zeros before the rest are filled; the rest
lie after it, so they leave it as written. -/
theorem filled_cons_of_value {marks : List (α × Nat)} {acc : Array UInt8} {lo p : Nat}
    {f : Field α} {fs : List (Nat × Field α)} {v : List UInt8}
    {r : Except (BuildFault α) (List UInt8)}
    (h : f.resolve marks p = .ok v) (hfit : FieldsFit ((p, f) :: fs) lo acc.size)
    (rest : Filled (overwrite acc p v).toList fs (marks.lookup ·) r) :
    Filled acc.toList ((p, f) :: fs) (marks.lookup ·) r := by
  have hv := Field.resolve_eq_ok_iff.1 h
  have hlen := Field.length_of_value hv
  have hrest : FieldsFit fs (p + f.size) acc.size := hfit.2
  have hend : p + f.size ≤ acc.size := hrest.le_hi
  have hsize := size_overwrite acc p v
  refine ⟨?_, ?_, ?_, ?_, ?_⟩
  · rw [rest.ok_iff]
    constructor
    · intro hall pf hpf
      rcases List.mem_cons.1 hpf with rfl | hpf
      · exact ⟨v, hv⟩
      · exact hall pf hpf
    · intro hall pf hpf
      exact hall pf (List.mem_cons_of_mem _ hpf)
  · intro out hout
    rw [rest.length out hout]
    simp [hsize]
  · intro out hout i hi
    rw [rest.outside out hout i fun pf hpf => hi pf (List.mem_cons_of_mem _ hpf)]
    have hp := hi (p, f) (List.mem_cons_self ..)
    dsimp only at hp
    rw [Array.getElem?_toList, Array.getElem?_toList,
      getElem?_overwrite_of_not_mem _ _ _ (by omega)]
  · intro out hout pf hpf
    rcases List.mem_cons.1 hpf with rfl | hpf
    · -- The later fields start at or after this one's end, so its bytes are the written ones.
      have hslice : (out.drop p).take f.size = v := by
        apply List.ext_getElem?
        intro j
        rw [List.getElem?_take, List.getElem?_drop]
        by_cases hj : j < f.size
        · have hout' := rest.outside out hout (p + j) fun q hq => by
            have := hrest.le_start q hq
            omega
          rw [if_pos hj, hout', Array.getElem?_toList,
            getElem?_overwrite_of_mem _ _ _ (by omega) (by omega)]
        · rw [if_neg hj, List.getElem?_eq_none (by omega)]
      rw [hslice]
      exact hv
    · exact rest.inside out hout pf hpf
  · intro e he
    obtain ⟨pre, pf, post, hfs, hpre, hfault⟩ := rest.first_fault e he
    refine ⟨(p, f) :: pre, pf, post, by simp [hfs], ?_, hfault⟩
    intro q hq
    rcases List.mem_cons.1 hq with rfl | hq
    · exact ⟨v, hv⟩
    · exact hpre q hq

/-- Filling fields that fit, one after another. -/
theorem filled_foldlM (marks : List (α × Nat)) :
    ∀ (fs : List (Nat × Field α)) (acc : Array UInt8) (lo : Nat), FieldsFit fs lo acc.size →
      Filled acc.toList fs (marks.lookup ·) ((fs.foldlM (fillField marks) acc).map Array.toList)
  | [], acc, _, _ => filled_nil marks acc
  | (p, f) :: fs, acc, lo, hfit => by
    rw [List.foldlM_cons]
    cases h : f.resolve marks p with
    | error e =>
      have hstep : fillField marks acc (p, f) = .error e := by simp [fillField, h]
      rw [hstep]
      exact filled_cons_of_fault h
    | ok v =>
      have hstep : fillField marks acc (p, f) = .ok (overwrite acc p v) := by simp [fillField, h]
      rw [hstep]
      have hrest : FieldsFit fs (p + f.size) (overwrite acc p v).size := by
        rw [size_overwrite]
        exact hfit.2
      exact filled_cons_of_value h hfit (filled_foldlM marks fs _ _ hrest)

/-- Finishing a builder whose fields fit inside its bytes. -/
theorem finish_filled (b : Builder α) (h : FieldsFit b.fields.toList 0 b.size) :
    Filled b.bytes.toList b.fields.toList b.find? b.finish :=
  filled_foldlM b.marks b.fields.toList b.bytes 0 h

end Fill

/-! ## Runs of steps -/

namespace BuildStep

/-- The bytes a step appends to a builder holding `n` bytes, zeros for a field; a string that
holds a NUL appends nothing. -/
def emits (n : Nat) : BuildStep α → List UInt8
  | .word o w v => o.encode w (unsignedOf w v)
  | .bytes bs => bs
  | .place _ => []
  | .reserve f => List.replicate f.size 0
  | .terminated bs => if 0 ∈ bs then [] else bs ++ [0]
  | .align k fill => List.replicate ((k - n % k) % k) fill

/-- The label a step places. -/
def placed? : BuildStep α → Option α
  | .place l => some l
  | _ => none

/-- The field a step reserves. -/
def reserved? : BuildStep α → Option (Field α)
  | .reserve f => some f
  | _ => none

/-- The step aligns to a multiple of zero. -/
def alignsToZero : BuildStep α → Bool
  | .align 0 _ => true
  | _ => false

end BuildStep

/-- The bytes appended by steps run from length `n` on. -/
def appended : Nat → List (BuildStep α) → List UInt8
  | _, [] => []
  | n, s :: ss => s.emits n ++ appended (n + (s.emits n).length) ss

/-- The fields reserved by steps run from length `n` on, each with where it starts, in order. -/
def reservations : Nat → List (BuildStep α) → List (Nat × Field α)
  | _, [] => []
  | n, s :: ss => (s.reserved?.map (n, ·)).toList ++ reservations (n + (s.emits n).length) ss

/-- The labels placed by steps run from length `n` on, each with where, in order. -/
def placements : Nat → List (BuildStep α) → List (α × Nat)
  | _, [] => []
  | n, s :: ss => (s.placed?.map (·, n)).toList ++ placements (n + (s.emits n).length) ss

theorem keys_placements : ∀ (n : Nat) (ss : List (BuildStep α)),
    (placements n ss).map Prod.fst = ss.filterMap BuildStep.placed?
  | _, [] => rfl
  | n, s :: ss => by
    cases s with
    | place l => simp [placements, BuildStep.placed?, keys_placements]
    | _ => exact keys_placements _ ss

/-- Each reserved field starts where the bytes before it end, so reserved fields fit. -/
theorem fit_reservations : ∀ (n : Nat) (ss : List (BuildStep α)) (fs : List (Nat × Field α)),
    FieldsFit fs 0 n → FieldsFit (fs ++ reservations n ss) 0 (n + (appended n ss).length)
  | n, [], fs, h => by simpa [reservations, appended] using h
  | n, s :: ss, fs, h => by
    have hs : FieldsFit (fs ++ (s.reserved?.map (n, ·)).toList) 0 (n + (s.emits n).length) := by
      cases s with
      | reserve f => simpa [BuildStep.reserved?, BuildStep.emits] using FieldsFit.snoc f h
      | _ => simpa [BuildStep.reserved?] using h.mono_hi (by omega)
    have := fit_reservations _ ss _ hs
    simp only [reservations, appended, List.length_append, ← List.append_assoc]
    simpa [Nat.add_assoc] using this

section Run

variable [DecidableEq α]

/-- One step appends what it emits, records the field it reserves and the label it places at
the current length, and stops a run only by placing a label twice or aligning to zero. -/
theorem run_step (b : Builder α) (s : BuildStep α)
    (hfresh : ∀ l, s.placed? = some l → b.find? l = none) (halign : s.alignsToZero = false) :
    ∃ r b', s.run b = .ok (r, b') ∧ b'.bytes.toList = b.bytes.toList ++ s.emits b.size ∧
      b'.fields.toList = b.fields.toList ++ (s.reserved?.map (b.size, ·)).toList ∧
      b'.marks = (s.placed?.map (·, b.size)).toList ++ b.marks := by
  cases s with
  | word o w v => exact ⟨_, _, rfl, by simp [Builder.word, Builder.append, BuildStep.emits],
      by simp [Builder.word, Builder.append, BuildStep.reserved?],
      by simp [Builder.word, Builder.append, BuildStep.placed?]⟩
  | bytes bs => exact ⟨_, _, rfl, by simp [Builder.append, BuildStep.emits],
      by simp [Builder.append, BuildStep.reserved?], by simp [Builder.append, BuildStep.placed?]⟩
  | place l =>
    have hnone : b.find? l = none := hfresh l rfl
    refine ⟨none, b.place l, by simp [BuildStep.run, hnone], ?_, ?_, ?_⟩
    · simp [Builder.place, BuildStep.emits]
    · simp [Builder.place, BuildStep.reserved?]
    · simp [Builder.place, BuildStep.placed?]
  | reserve f => exact ⟨_, _, rfl, by simp [Builder.reserve, Builder.append, BuildStep.emits],
      by simp [Builder.reserve, BuildStep.reserved?],
      by simp [Builder.reserve, Builder.append, BuildStep.placed?]⟩
  | terminated bs =>
    by_cases hnul : 0 ∈ bs
    · refine ⟨some bs, b, by simp [BuildStep.run, Builder.terminated?, hnul], ?_, ?_, ?_⟩
      · simp [BuildStep.emits, hnul]
      · simp [BuildStep.reserved?]
      · simp [BuildStep.placed?]
    · refine ⟨none, b.append (bs ++ [0]), by simp [BuildStep.run, Builder.terminated?, hnul],
        ?_, ?_, ?_⟩
      · simp [Builder.append, BuildStep.emits, hnul]
      · simp [Builder.append, BuildStep.reserved?]
      · simp [Builder.append, BuildStep.placed?]
  | align k fill =>
    have hk : k ≠ 0 := by
      rintro rfl
      simp [BuildStep.alignsToZero] at halign
    refine ⟨none, b.padTo k fill, by simp [BuildStep.run, hk], ?_, ?_, ?_⟩
    · simp [Builder.padTo, Builder.append, BuildStep.emits, Builder.size]
    · simp [Builder.padTo, Builder.append, BuildStep.reserved?]
    · simp [Builder.padTo, Builder.append, BuildStep.placed?]

/-- A run of steps that places no label twice, none placed already, and never aligns to zero
goes through, appending, reserving and placing what its steps do. -/
theorem runSteps_trace : ∀ (b : Builder α) (ss : List (BuildStep α)),
    (∀ l ∈ ss.filterMap BuildStep.placed?, b.find? l = none) →
    (ss.filterMap BuildStep.placed?).Nodup → (∀ s ∈ ss, s.alignsToZero = false) →
    ∃ rs b', b.runSteps ss = .ok (rs, b') ∧
      b'.bytes.toList = b.bytes.toList ++ appended b.size ss ∧
      b'.fields.toList = b.fields.toList ++ reservations b.size ss ∧
      b'.marks = (placements b.size ss).reverse ++ b.marks
  | b, [], _, _, _ => ⟨[], b, rfl, by simp [appended], by simp [reservations],
      by simp [placements]⟩
  | b, s :: ss, hfresh, hnodup, halign => by
    have hhead : ∀ l, s.placed? = some l → b.find? l = none := fun l hl =>
      hfresh l (by simp [hl])
    obtain ⟨r, b1, hrun, hbytes, hfields, hmarks⟩ :=
      run_step b s hhead (halign s (List.mem_cons_self ..))
    have hsize : b1.size = b.size + (s.emits b.size).length := by
      simp only [Builder.size, ← Array.length_toList, hbytes, List.length_append]
    -- A later label is not the one this step places, and was not placed before it.
    have hfresh1 : ∀ l ∈ ss.filterMap BuildStep.placed?, b1.find? l = none := by
      intro l hl
      have hb : b.find? l = none := hfresh l (by
        cases hs : s.placed? <;> simp [hs, hl])
      have hne : s.placed? ≠ some l := by
        intro hs
        rw [List.filterMap_cons, hs] at hnodup
        exact (List.nodup_cons.1 hnodup).1 hl
      cases hs : s.placed? with
      | none => simpa [Builder.find?, hmarks, hs] using hb
      | some l' =>
        have hbeq : (l == l') = false := by
          rw [beq_eq_false_iff_ne]
          exact fun h => hne (by rw [hs, h])
        rw [Builder.find?, hmarks, hs]
        simp only [Option.map_some, Option.toList_some, List.singleton_append, List.lookup_cons,
          hbeq]
        exact hb
    have hnodup1 : (ss.filterMap BuildStep.placed?).Nodup := by
      cases hs : s.placed? <;> simp_all
    obtain ⟨rs, b2, hrun2, hbytes2, hfields2, hmarks2⟩ := runSteps_trace b1 ss hfresh1 hnodup1
      fun s' hs' => halign s' (List.mem_cons_of_mem _ hs')
    refine ⟨(r, b1.size) :: rs, b2, ?_, ?_, ?_, ?_⟩
    · simp only [Builder.runSteps, hrun, bind, Except.bind, hrun2]
      rfl
    · rw [hbytes2, hbytes, hsize]
      simp [appended]
    · rw [hfields2, hfields, hsize]
      simp [reservations]
    · rw [hmarks2, hmarks, hsize]
      cases hs : s.placed? <;> simp [placements, hs]

/-- With each label placed once, the first placement found is the only one. -/
theorem lookup_reverse_of_nodup {β : Type} : ∀ {l : List (α × β)}, (l.map Prod.fst).Nodup →
    ∀ k, l.reverse.lookup k = l.lookup k
  | [], _, _ => rfl
  | (a, v) :: l, h, k => by
    have hl := List.nodup_cons.1 h
    rw [List.reverse_cons, List.lookup_append, lookup_reverse_of_nodup hl.2]
    by_cases hk : k = a
    · subst hk
      have hnone : l.lookup k = none := by
        rw [List.lookup_eq_none_iff]
        intro p hp
        rw [bne_iff_ne]
        rintro rfl
        exact hl.1 (List.mem_map.2 ⟨p, hp, rfl⟩)
      simp [hnone]
    · have hbeq : (k == a) = false := beq_eq_false_iff_ne.2 hk
      simp [List.lookup_cons, hbeq]

/-- Finishing a run of builder steps that places each label once and never aligns to zero: the
run goes through, and finishing it computes every field reserved by the steps, in order, from
where the steps placed the labels, over the bytes they appended. -/
theorem finish_after_steps (ss : List (BuildStep α))
    (fresh : (ss.filterMap BuildStep.placed?).Nodup)
    (aligned : ∀ s ∈ ss, s.alignsToZero = false) :
    ∃ rs b, Builder.empty.runSteps ss = .ok (rs, b) ∧
      Filled (appended 0 ss) (reservations 0 ss) ((placements 0 ss).lookup ·) b.finish := by
  obtain ⟨rs, b, hrun, hbytes, hfields, hmarks⟩ :=
    runSteps_trace (Builder.empty : Builder α) ss (fun _ _ => rfl) fresh aligned
  have hfit : FieldsFit b.fields.toList 0 b.size := by
    have := fit_reservations 0 ss [] (Nat.le_refl 0)
    rw [hfields]
    simpa [Builder.size, ← Array.length_toList, hbytes, Builder.empty] using this
  have hfind : b.find? = ((placements 0 ss).lookup ·) := by
    funext l
    have hkeys : ((placements 0 ss).map Prod.fst).Nodup := by
      rw [keys_placements]
      exact fresh
    rw [Builder.find?, hmarks]
    simpa [Builder.empty, Builder.size] using lookup_reverse_of_nodup hkeys l
  have hfilled := finish_filled b hfit
  rw [hbytes, hfields, hfind] at hfilled
  exact ⟨rs, b, hrun, by simpa [Builder.empty, Builder.size] using hfilled⟩

/-- The steps of a 16-bit pointer to a label placed after a byte and padding. -/
def delayedPointerSteps : List (BuildStep String) :=
  [.reserve (.position "end" 2 .little), .word .little 1 0xAA, .align 4 0xFF, .place "end"]

example : (Builder.empty.runSteps delayedPointerSteps).map (·.2.finish) =
    .ok (.ok [4, 0, 0xAA, 0xFF]) := by
  decide

theorem finish_after_delayed_pointer :
    (delayedPointerSteps.filterMap BuildStep.placed?).Nodup ∧
      (∀ s ∈ delayedPointerSteps, s.alignsToZero = false) ∧
      ∃ rs b, Builder.empty.runSteps delayedPointerSteps = .ok (rs, b) ∧
        Filled (appended 0 delayedPointerSteps) (reservations 0 delayedPointerSteps)
          ((placements 0 delayedPointerSteps).lookup ·) b.finish :=
  ⟨by decide, by decide, finish_after_steps delayedPointerSteps (by decide) (by decide)⟩

end Run

end DungeonFormats
