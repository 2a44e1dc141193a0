import Mathlib
import DungeonFormats.Proofs.ScriptEncode

/-!
# Where writing a script puts things

`encodePieces` is the whole list of pieces `Script.encode` gives its builder for an image. This
module computes where those pieces place the anchors, and from that what finishing them gives:
exactly the image's bytes, provided the header's lengths and the group starts fit their words
(`fill_encodePieces_eq_ok_iff`).
-/

namespace DungeonFormats.Script

variable (cat : Catalog)

/-- The pieces a script's file is written as, from its image. -/
def encodePieces (im : Image) : List (Piece Anchor) :=
  headerPieces im.region im.constants.length im.stringCount im.unk1 ++
    [.mark .dataStart, .field (.words .dataStart .codeEnd), .bytes (word16 im.groups.length)] ++
    groupTablePieces 0 (im.groups.map fun g => (g.kind, g.unk2)) ++
    codePieces cat 0 im.groups ++ [.mark .codeEnd] ++
    tablePieces im.constants (2 * im.stringCount) .constData ++ [.mark .constEnd] ++
    languagePieces im.stringBias 0 im.tables

/-- The lengths of string tables as written. -/
def tableLens (bias : Nat) (ts : List (List (List UInt8))) : List Nat :=
  ts.map fun t => (tableBytes t bias).length

/-! ## Lengths -/

@[simp] theorem itemsSize_append (xs ys : List Item) :
    cat.itemsSize (xs ++ ys) = cat.itemsSize xs + cat.itemsSize ys := by
  induction xs with
  | nil => simp [Catalog.itemsSize]
  | cons x xs ih => simp [Catalog.itemsSize, ih]; omega

theorem itemSize_even (it : Item) : cat.itemSize it % 2 = 0 := by
  cases it with
  | data w => simp [Catalog.itemSize]
  | command c =>
    simp only [Catalog.itemSize, Catalog.commandSize]
    split <;> omega

theorem itemsSize_even (xs : List Item) : cat.itemsSize xs % 2 = 0 := by
  induction xs with
  | nil => rfl
  | cons x xs ih =>
    have := itemSize_even cat x
    simp only [Catalog.itemsSize]
    omega

@[simp] theorem length_codeBytes (items : List Item) :
    (cat.codeBytes items).length = cat.itemsSize items := by
  induction items with
  | nil => rfl
  | cons it its ih =>
    rw [codeBytes_cons, List.length_append, ih]
    cases it with
    | data w => simp [Catalog.codeBytes, Catalog.itemWords, Catalog.itemsSize, Catalog.itemSize]
    | command c =>
      simp only [Catalog.codeBytes, Catalog.itemWords, Catalog.itemsSize, Catalog.itemSize,
        Catalog.commandSize, List.flatMap_cons, List.flatMap_nil, List.append_nil,
        List.map_cons, List.map_append, length_wordBytes, List.length_cons, List.length_append,
        List.length_map]
      split <;> simp <;> omega

theorem length_tableBytes (ss : List (List UInt8)) (bias : Nat) :
    (tableBytes ss bias).length = 2 * ss.length + (tableBody ss).length := by
  simp [tableBytes]

theorem even_of_mem_tableLens {bias n : Nat} {ts : List (List (List UInt8))}
    (h : n ∈ tableLens bias ts) : n % 2 = 0 := by
  obtain ⟨t, -, rfl⟩ := List.mem_map.1 h
  exact length_tableBytes_even t bias

theorem length_raw_headerPieces (r : Region) (cc sc : Nat) (unk1 : UInt16) :
    ((headerPieces r cc sc unk1).flatMap Piece.raw).length =
      8 + 2 * r.languages.length + (if r = .europe then 0 else 2) := by
  simp only [headerPieces, List.flatMap_append, List.length_append, List.flatMap_map]
  split <;> simp [Piece.raw, Field.size, List.length_flatMap] <;> omega

theorem length_raw_groupTablePieces :
    ∀ (i : Nat) (kus : List (UInt16 × UInt16)),
      ((groupTablePieces i kus).flatMap Piece.raw).length = 6 * kus.length
  | _, [] => rfl
  | i, (k, u) :: rest => by
    simp [groupTablePieces, Piece.raw, Field.size, length_raw_groupTablePieces (i + 1) rest]
    omega

theorem length_raw_codePieces :
    ∀ (k : Nat) (gs : List GroupCode),
      ((codePieces cat k gs).flatMap Piece.raw).length = cat.itemsSize (gs.flatMap (·.items))
  | _, [] => rfl
  | k, g :: gs => by
    simp [codePieces, Piece.raw, length_raw_codePieces (k + 1) gs]

theorem length_raw_languagePieces (bias : Nat) :
    ∀ (k : Nat) (ts : List (List (List UInt8))),
      ((languagePieces bias k ts).flatMap Piece.raw).length = (tableLens bias ts).sum
  | _, [] => rfl
  | k, t :: ts => by
    simp [languagePieces, Piece.raw, flatMap_raw_tablePieces,
      length_raw_languagePieces bias (k + 1) ts, tableLens]

/-! ## Anchors -/

@[simp] theorem marks_headerPieces (n : Nat) (r : Region) (cc sc : Nat) (unk1 : UInt16) :
    Piece.marks n (headerPieces r cc sc unk1) = [] := by
  simp only [headerPieces, Piece.marks_append]
  -- none of the header's pieces is a mark
  have hfields : ∀ (m : Nat) (l : List Nat),
      Piece.marks m (l.map fun i => (.field (.words (.stringStart i) (.stringEnd i)) :
        Piece Anchor)) = [] := by
    intro m l
    induction l generalizing m with
    | nil => rfl
    | cons i l ih => simp [Piece.marks, ih]
  split <;> simp [Piece.marks, hfields]

@[simp] theorem marks_groupTablePieces :
    ∀ (n i : Nat) (kus : List (UInt16 × UInt16)), Piece.marks n (groupTablePieces i kus) = []
  | _, _, [] => rfl
  | n, i, (k, u) :: rest => by
    simp [groupTablePieces, Piece.marks, marks_groupTablePieces _ (i + 1) rest]

/-- A group's anchor is where its code starts. -/
theorem lookup_marks_codePieces_group :
    ∀ (n k i : Nat) (gs : List GroupCode),
      (Piece.marks n (codePieces cat k gs)).reverse.lookup (.group i) =
        if k ≤ i ∧ i < k + gs.length then some ((groupStarts cat n gs).getD (i - k) 0) else none
  | n, k, i, [] => by simp [codePieces, Piece.marks]
  | n, k, i, g :: gs => by
    simp only [codePieces, Piece.marks, List.reverse_cons, List.lookup_append,
      lookup_marks_codePieces_group _ (k + 1) i gs, length_codeBytes]
    by_cases hik : i = k
    · subst hik
      simp [groupStarts, List.lookup]
    · have hne : (Anchor.group i == Anchor.group k) = false := by simp [hik]
      by_cases hlt : k < i
      · have hsub : i - k = i - (k + 1) + 1 := by omega
        simp only [List.lookup, hne, Option.or_none, List.length_cons, groupStarts, hsub,
          List.getD_cons_succ]
        congr 1
        apply propext
        omega
      · simp only [List.lookup, hne]
        rw [if_neg (by omega), if_neg (by omega)]
        rfl

theorem mem_marks_codePieces :
    ∀ {n k : Nat} {gs : List GroupCode} {p : Anchor × Nat},
      p ∈ Piece.marks n (codePieces cat k gs) → ∃ i, p.1 = .group i
  | _, _, [], p, h => by simp [codePieces, Piece.marks] at h
  | n, k, g :: gs, p, h => by
    simp only [codePieces, Piece.marks, List.mem_cons] at h
    rcases h with rfl | h
    · exact ⟨k, rfl⟩
    · exact mem_marks_codePieces h

theorem lookup_marks_codePieces_of_ne (n k : Nat) (gs : List GroupCode) {a : Anchor}
    (ha : ∀ i, a ≠ .group i) : (Piece.marks n (codePieces cat k gs)).reverse.lookup a = none := by
  rw [List.lookup_eq_none_iff]
  intro p hp
  obtain ⟨i, hi⟩ := mem_marks_codePieces cat (List.mem_reverse.1 hp)
  simpa [hi] using ha i

theorem marks_languagePieces_cons (bias n k : Nat) (t : List (List UInt8))
    (ts : List (List (List UInt8))) :
    Piece.marks n (languagePieces bias k (t :: ts)) =
      [(.stringStart k, n), (.stringData k, n + 2 * t.length),
        (.stringEnd k, n + (tableBytes t bias).length)] ++
      Piece.marks (n + (tableBytes t bias).length) (languagePieces bias (k + 1) ts) := by
  simp [languagePieces, tablePieces, Piece.marks, length_tableBytes, Nat.add_assoc]

/-- A mark that each language's table carries once, `off t` bytes into its table `t`, is found
past the tables before it. -/
theorem lookup_marks_languagePieces_of (bias : Nat) (mk : Nat → Anchor)
    (off : List (List UInt8) → Nat)
    (hstep : ∀ n k i t, ([(Anchor.stringStart k, n), (.stringData k, n + 2 * t.length),
        (.stringEnd k, n + (tableBytes t bias).length)].reverse).lookup (mk i) =
        if i = k then some (n + off t) else none) :
    ∀ (n k i : Nat) (ts : List (List (List UInt8))),
      (Piece.marks n (languagePieces bias k ts)).reverse.lookup (mk i) =
        if k ≤ i ∧ i < k + ts.length then
          some (n + ((tableLens bias ts).take (i - k)).sum + off (ts.getD (i - k) []))
        else none
  | n, k, i, [] => by simp [languagePieces, Piece.marks]
  | n, k, i, t :: ts => by
    rw [marks_languagePieces_cons, List.reverse_append, List.lookup_append,
      lookup_marks_languagePieces_of bias mk off hstep _ (k + 1) i ts, hstep, List.length_cons]
    rcases Nat.lt_trichotomy i k with hlt | rfl | hgt
    · rw [if_neg (by omega), if_neg (by omega), if_neg (by omega)]
      rfl
    · rw [if_neg (by omega), if_pos rfl, if_pos (by omega)]
      simp [tableLens]
    · by_cases hin : i < k + 1 + ts.length
      · rw [if_pos (by omega), if_neg (by omega), if_pos (by omega),
          show i - k = i - (k + 1) + 1 by omega]
        simp [tableLens, Nat.add_assoc]
      · rw [if_neg (by omega), if_neg (by omega), if_neg (by omega)]
        rfl

/-- A language's table starts after the tables before it. -/
theorem lookup_marks_languagePieces_start (bias n k i : Nat) (ts : List (List (List UInt8))) :
    (Piece.marks n (languagePieces bias k ts)).reverse.lookup (.stringStart i) =
      if k ≤ i ∧ i < k + ts.length then some (n + ((tableLens bias ts).take (i - k)).sum)
      else none := by
  rw [lookup_marks_languagePieces_of bias Anchor.stringStart (fun _ => 0) (fun n k i t => ?_)]
  · rfl
  simp [lookup_cons_eq_ite]

/-- A language's table ends where the next one starts. -/
theorem lookup_marks_languagePieces_end (bias n k i : Nat) (ts : List (List (List UInt8))) :
    (Piece.marks n (languagePieces bias k ts)).reverse.lookup (.stringEnd i) =
      if k ≤ i ∧ i < k + ts.length then some (n + ((tableLens bias ts).take (i - k + 1)).sum)
      else none := by
  rw [lookup_marks_languagePieces_of bias Anchor.stringEnd (fun t => (tableBytes t bias).length)
    (fun n k i t => by simp [lookup_cons_eq_ite])]
  split
  · rename_i hin
    have hlt : i - k < (tableLens bias ts).length := by simp [tableLens]; omega
    rw [List.sum_take_succ _ _ hlt, List.getD_eq_getElem _ _ (by omega)]
    simp [tableLens, Nat.add_assoc]
  · rfl

theorem mem_marks_languagePieces (bias : Nat) :
    ∀ {n k : Nat} {ts : List (List (List UInt8))} {p : Anchor × Nat},
      p ∈ Piece.marks n (languagePieces bias k ts) →
        ∃ i, p.1 = .stringStart i ∨ p.1 = .stringData i ∨ p.1 = .stringEnd i
  | _, _, [], p, h => by simp [languagePieces, Piece.marks] at h
  | n, k, t :: ts, p, h => by
    rw [marks_languagePieces_cons] at h
    simp only [List.cons_append, List.nil_append, List.mem_cons] at h
    rcases h with rfl | rfl | rfl | h
    · exact ⟨k, .inl rfl⟩
    · exact ⟨k, .inr (.inl rfl)⟩
    · exact ⟨k, .inr (.inr rfl)⟩
    · exact mem_marks_languagePieces bias h

theorem lookup_marks_languagePieces_of_ne (bias n k : Nat) (ts : List (List (List UInt8)))
    {a : Anchor} (ha : ∀ i, a ≠ .stringStart i ∧ a ≠ .stringData i ∧ a ≠ .stringEnd i) :
    (Piece.marks n (languagePieces bias k ts)).reverse.lookup a = none := by
  rw [List.lookup_eq_none_iff]
  intro p hp
  obtain ⟨i, hi | hi | hi⟩ := mem_marks_languagePieces bias (List.mem_reverse.1 hp)
  · simpa [hi] using (ha i).1
  · simpa [hi] using (ha i).2.1
  · simpa [hi] using (ha i).2.2

/-- A language's strings start after its pointers. -/
theorem lookup_marks_languagePieces_data (bias n k i : Nat) (ts : List (List (List UInt8))) :
    (Piece.marks n (languagePieces bias k ts)).reverse.lookup (.stringData i) =
      if k ≤ i ∧ i < k + ts.length then
        some (n + ((tableLens bias ts).take (i - k)).sum + 2 * (ts.getD (i - k) []).length)
      else none :=
  lookup_marks_languagePieces_of bias Anchor.stringData (fun t => 2 * t.length)
    (fun n k i t => by simp [lookup_cons_eq_ite]) n k i ts

theorem getD_groupStarts_add (a : Nat) :
    ∀ (n i : Nat) (gs : List GroupCode), i < gs.length →
      (groupStarts cat (a + n) gs)[i]?.getD 0 = a + (groupStarts cat n gs)[i]?.getD 0
  | _, _, [], h => by simp at h
  | n, 0, g :: gs, _ => by simp [groupStarts]
  | n, i + 1, g :: gs, h => by
    simp only [groupStarts, List.getElem?_cons_succ, Nat.add_assoc]
    exact getD_groupStarts_add a _ i gs (by simpa using h)

namespace Image

variable (im : Image)

/-- The size of the header: counts and lengths, a length per language of the region, and the
spare word outside Europe. -/
def headerSize : Nat :=
  8 + 2 * im.region.languages.length + (if im.region = .europe then 0 else 2)

/-- Where the string tables start: after the header, the data block and the constants. -/
def stringsStart : Nat :=
  im.headerSize + im.dataLen cat + (tableBytes im.constants (2 * im.stringCount)).length

/-- Where writing the image places each anchor. -/
def anchorAt : Anchor → Option Nat
  | .dataStart => some im.headerSize
  | .codeEnd => some (im.headerSize + im.dataLen cat)
  | .group i =>
    if i < im.groups.length then
      some (im.headerSize + (groupStarts cat im.codeStart im.groups).getD i 0)
    else none
  | .constData => some (im.headerSize + im.dataLen cat + 2 * im.constants.length)
  | .constEnd => some (im.stringsStart cat)
  | .stringStart k =>
    if k < im.tables.length then
      some (im.stringsStart cat + ((tableLens im.stringBias im.tables).take k).sum)
    else none
  | .stringData k =>
    if k < im.tables.length then
      some (im.stringsStart cat + ((tableLens im.stringBias im.tables).take k).sum +
        2 * (im.tables.getD k []).length)
    else none
  | .stringEnd k =>
    if k < im.tables.length then
      some (im.stringsStart cat + ((tableLens im.stringBias im.tables).take (k + 1)).sum)
    else none

end Image

/-- The pieces of an image place every anchor where `anchorAt` says. -/
theorem find?_encodePieces (im : Image) (a : Anchor) :
    (Builder.empty.putAll (encodePieces cat im)).find? a = im.anchorAt cat a := by
  have hlen : ((headerPieces im.region im.constants.length im.stringCount im.unk1).flatMap
      Piece.raw).length = im.headerSize :=
    length_raw_headerPieces im.region im.constants.length im.stringCount im.unk1
  rw [Builder.find?_putAll]
  simp only [Builder.find?, Builder.empty, List.lookup_nil, Option.or_none, Builder.size,
    List.size_toArray, List.length_nil, encodePieces, Piece.marks_append, List.reverse_append,
    List.lookup_append, marks_headerPieces, marks_groupTablePieces, List.flatMap_append,
    List.length_append, hlen, length_raw_groupTablePieces, length_raw_codePieces, List.length_map,
    tablePieces, Piece.marks, Piece.raw, List.flatMap_cons, List.flatMap_nil, List.append_nil,
    List.reverse_cons, List.reverse_nil, List.nil_append, lookup_cons_eq_ite, Field.size,
    List.length_replicate, length_word16, Nat.zero_add]
  -- each anchor is placed by one piece; the other pieces place none of its kind
  cases a with
  | dataStart =>
    simp [lookup_marks_codePieces_of_ne, lookup_marks_languagePieces_of_ne, Image.anchorAt]
  | codeEnd =>
    simp [lookup_marks_codePieces_of_ne, lookup_marks_languagePieces_of_ne, Image.anchorAt,
      Image.dataLen, Image.codeStart, Image.items]
    omega
  | group i =>
    simp only [lookup_marks_languagePieces_of_ne, lookup_marks_codePieces_group, Image.anchorAt,
      ne_eq, reduceCtorEq, not_false_eq_true, and_self, implies_true, if_false, Option.none_or,
      Nat.zero_le, true_and, Nat.zero_add, Nat.sub_zero, Image.codeStart]
    split
    · rw [show 2 + 2 + 6 * im.groups.length = 4 + 6 * im.groups.length by omega]
      simp only [List.getD_eq_getElem?_getD, getD_groupStarts_add cat _ _ _ _ ‹_›,
        Option.or_none, Option.some.injEq]
      omega
    · rfl
  | constData =>
    simp [lookup_marks_codePieces_of_ne, lookup_marks_languagePieces_of_ne, Image.anchorAt,
      Image.dataLen, Image.codeStart, Image.items]
    omega
  | constEnd =>
    simp [lookup_marks_codePieces_of_ne, lookup_marks_languagePieces_of_ne, Image.anchorAt,
      Image.dataLen, Image.codeStart, Image.items, Image.stringsStart, length_tableBytes]
    omega
  | stringStart k =>
    simp [lookup_marks_codePieces_of_ne, lookup_marks_languagePieces_start, Image.anchorAt,
      Image.dataLen, Image.codeStart, Image.items, Image.stringsStart, length_tableBytes]
    split
    · simp only [Option.some.injEq]
      omega
    · rfl
  | stringData k =>
    simp [lookup_marks_codePieces_of_ne, lookup_marks_languagePieces_data, Image.anchorAt,
      Image.dataLen, Image.codeStart, Image.items, Image.stringsStart, length_tableBytes]
    split
    · simp only [Option.some.injEq]
      omega
    · rfl
  | stringEnd k =>
    simp [lookup_marks_codePieces_of_ne, lookup_marks_languagePieces_end, Image.anchorAt,
      Image.dataLen, Image.codeStart, Image.items, Image.stringsStart, length_tableBytes]
    split
    · simp only [Option.some.injEq]
      omega
    · rfl

/-! ## Finishing -/

/-- The value of a span field when the anchors are at `pos`: the words from one to the other. -/
def spanValue (pos : Anchor → Option Nat) : Field Anchor → List UInt8
  | .words s e => word16 (((pos e).getD 0 - (pos s).getD 0) / 2)
  | .position _ _ _ => []

theorem resolve_words {α : Type} [DecidableEq α] {ms : List (α × Nat)} {p : Nat} {s e : α}
    {a z : Nat} (hs : ms.lookup s = some a) (he : ms.lookup e = some z) (hle : a ≤ z)
    (heven : (z - a) % 2 = 0) :
    (Field.words s e).resolve ms p =
      if (z - a) / 2 ≤ 0xFFFF then .ok (word16 ((z - a) / 2))
      else .error (.tooWide p ((z - a) / 2) 16) := by
  simp only [Field.resolve, hs, he]
  rw [if_neg (by omega)]
  rfl

theorem groupStarts_bounds :
    ∀ (n : Nat) (gs : List GroupCode) (j : Nat), j < gs.length →
      n ≤ (groupStarts cat n gs)[j]?.getD 0 ∧
        (groupStarts cat n gs)[j]?.getD 0 ≤ n + cat.itemsSize (gs.flatMap (·.items)) ∧
        ((groupStarts cat n gs)[j]?.getD 0 - n) % 2 = 0
  | _, [], _, h => by simp at h
  | n, g :: gs, 0, _ => by simp [groupStarts]
  | n, g :: gs, j + 1, h => by
    have ih := groupStarts_bounds (n + cat.itemsSize g.items) gs j (by simpa using h)
    have heven := itemsSize_even cat g.items
    simp only [groupStarts, List.getElem?_cons_succ, List.flatMap_cons, itemsSize_append]
    omega

theorem field_mem_groupTablePieces :
    ∀ {i : Nat} {kus : List (UInt16 × UInt16)} {f : Field Anchor},
      Piece.field f ∈ groupTablePieces i kus →
        ∃ j, i ≤ j ∧ j < i + kus.length ∧ f = .words .dataStart (.group j)
  | _, [], _, h => by simp [groupTablePieces] at h
  | i, (k, u) :: rest, f, h => by
    simp only [groupTablePieces, List.mem_cons, Piece.field.injEq, reduceCtorEq, false_or] at h
    rcases h with rfl | h
    · exact ⟨i, le_refl i, by simp, rfl⟩
    · obtain ⟨j, hj1, hj2, rfl⟩ := field_mem_groupTablePieces h
      exact ⟨j, by omega, by simp; omega, rfl⟩

theorem field_not_mem_codePieces :
    ∀ (k : Nat) (gs : List GroupCode) (f : Field Anchor), Piece.field f ∉ codePieces cat k gs
  | _, [], _ => by simp [codePieces]
  | k, g :: gs, f => by
    simp [codePieces, field_not_mem_codePieces (k + 1) gs f]

theorem field_not_mem_languagePieces (bias : Nat) :
    ∀ (k : Nat) (ts : List (List (List UInt8))) (f : Field Anchor),
      Piece.field f ∉ languagePieces bias k ts
  | _, [], _ => by simp [languagePieces]
  | k, t :: ts, f => by
    simp [languagePieces, tablePieces, field_not_mem_languagePieces bias (k + 1) ts f]

/-- The fields of a written script: the header's lengths, the data block's, the group starts. -/
theorem field_mem_encodePieces (im : Image) {f : Field Anchor}
    (h : Piece.field f ∈ encodePieces cat im) :
    f = .words .dataStart .constData ∨ f = .words .constData .constEnd ∨
      (∃ k < im.region.languages.length, f = .words (.stringStart k) (.stringEnd k)) ∨
      f = .words .dataStart .codeEnd ∨
      ∃ j < im.groups.length, f = .words .dataStart (.group j) := by
  simp only [encodePieces, List.mem_append] at h
  rcases h with (((((((hh | hd) | hg) | hc) | hce) | ht) | hcend) | hl)
  · simp only [headerPieces, List.mem_append, List.mem_map, List.mem_range] at hh
    rcases hh with (hh | ⟨k, hk, hkf⟩) | hh
    · simp only [List.mem_cons, Piece.field.injEq, reduceCtorEq, List.not_mem_nil, or_false,
        false_or] at hh
      rcases hh with rfl | rfl
      · exact .inl rfl
      · exact .inr (.inl rfl)
    · exact .inr (.inr (.inl ⟨k, hk, (Piece.field.inj hkf).symm⟩))
    · split at hh <;> simp at hh
  · simp only [List.mem_cons, Piece.field.injEq, reduceCtorEq, List.not_mem_nil, or_false,
      false_or] at hd
    exact .inr (.inr (.inr (.inl hd)))
  · obtain ⟨j, -, hj, rfl⟩ := field_mem_groupTablePieces hg
    exact .inr (.inr (.inr (.inr ⟨j, by simpa using hj, rfl⟩)))
  · exact absurd hc (field_not_mem_codePieces cat 0 im.groups f)
  · simp at hce
  · simp [tablePieces] at ht
  · simp at hcend
  · exact absurd hl (field_not_mem_languagePieces _ 0 im.tables f)

namespace Image

variable (im : Image)

theorem dataLen_even : im.dataLen cat % 2 = 0 := by
  have := itemsSize_even cat im.items
  simp only [dataLen, codeStart]
  omega

theorem stringsStart_eq :
    im.stringsStart cat = im.headerSize + im.dataLen cat + 2 * im.constants.length + im.constLen := by
  simp only [stringsStart, length_tableBytes, constLen]
  omega

end Image

/-- Every field of a written script spans between two anchors that the pieces place, the second
an even number of bytes after the first, and the span fits its word where the header's lengths
fit. -/
theorem field_span_encodePieces (im : Image)
    (htables : im.tables.length = im.region.languages.length) :
    ∀ q ∈ Piece.fields 0 (encodePieces cat im), ∃ s e a z, q.2 = .words s e ∧
      im.anchorAt cat s = some a ∧ im.anchorAt cat e = some z ∧ a ≤ z ∧ (z - a) % 2 = 0 ∧
      (im.SpansFit cat → (z - a) / 2 ≤ 0xFFFF) := by
  intro q hq
  have hdata := im.dataLen_even cat
  have hconst := length_tableBody_even im.constants
  have hstrings := im.stringsStart_eq cat
  simp only [Image.constLen] at hstrings
  rcases field_mem_encodePieces cat im (Piece.field_mem_of_mem_fields hq) with
    h | h | ⟨k, hk, h⟩ | h | ⟨j, hj, h⟩ <;> rw [h]
  · -- the data block with the constant pointers
    exact ⟨_, _, _, _, rfl, rfl, rfl, by omega, by omega, fun hfit => by
      have := hfit.scriptLen
      omega⟩
  · -- the constant strings
    refine ⟨_, _, _, _, rfl, rfl, rfl, by omega, by omega, fun hfit => ?_⟩
    have := hfit.constLen
    simp only [Image.constLen] at this
    omega
  · -- a language's string table
    have hk' : k < im.tables.length := htables ▸ hk
    have hkl : k < (tableLens im.stringBias im.tables).length := by simpa [tableLens] using hk'
    have hsum := List.sum_take_succ (tableLens im.stringBias im.tables) k hkl
    have heven := even_of_mem_tableLens (List.getElem_mem hkl)
    have hlk : (tableLens im.stringBias im.tables)[k] =
        (tableBytes im.tables[k] im.stringBias).length := by
      simp [tableLens]
    rw [hlk] at heven hsum
    refine ⟨_, _, im.stringsStart cat + ((tableLens im.stringBias im.tables).take k).sum,
      im.stringsStart cat + ((tableLens im.stringBias im.tables).take k).sum +
        (tableBytes im.tables[k] im.stringBias).length, rfl,
      by simp [Image.anchorAt, hk'], by simp only [Image.anchorAt, hk', if_true, hsum, Nat.add_assoc],
      by omega, by omega, fun hfit => ?_⟩
    have := hfit.tableLen im.tables[k] (List.getElem_mem hk')
    omega
  · -- the data block
    exact ⟨_, _, _, _, rfl, rfl, rfl, by omega, by omega, fun hfit => by
      have := hfit.scriptLen
      omega⟩
  · -- a group's start
    obtain ⟨hlo, hhi, hev⟩ := groupStarts_bounds cat im.codeStart im.groups j hj
    have hcs : im.codeStart % 2 = 0 := by simp [Image.codeStart]; omega
    have hlen : im.dataLen cat = im.codeStart + cat.itemsSize (im.groups.flatMap (·.items)) := rfl
    refine ⟨_, _, im.headerSize, im.headerSize + (groupStarts cat im.codeStart im.groups)[j]?.getD 0,
      rfl, rfl, by simp [Image.anchorAt, hj], by omega, by omega, fun hfit => ?_⟩
    have := hfit.scriptLen
    omega

/-- Where the spans fit, every field of a written script resolves to the span between the
anchors it names. -/
theorem resolve_encodePieces (im : Image) (htables : im.tables.length = im.region.languages.length)
    (hfit : im.SpansFit cat) :
    ∀ q ∈ Piece.fields 0 (encodePieces cat im),
      q.2.resolve (Builder.empty.putAll (encodePieces cat im)).marks q.1 =
        .ok (spanValue (im.anchorAt cat) q.2) := by
  intro q hq
  have hat : ∀ a, (Builder.empty.putAll (encodePieces cat im)).marks.lookup a = im.anchorAt cat a :=
    find?_encodePieces cat im
  obtain ⟨s, e, a, z, hf, hs, he, hle, heven, hbound⟩ := field_span_encodePieces cat im htables q hq
  rw [hf, resolve_words ((hat s).trans hs) ((hat e).trans he) hle heven, if_pos (hbound hfit)]
  simp [spanValue, hs, he]

theorem flatMap_range_length {α β : Type} (f : Nat → List β) (g : α → List β) :
    ∀ (l : List α), (∀ k (hk : k < l.length), f k = g l[k]) →
      (List.range l.length).flatMap f = l.flatMap g
  | [], _ => rfl
  | a :: l, h => by
    rw [List.length_cons, List.range_succ_eq_map, List.flatMap_cons, List.flatMap_map,
      List.flatMap_cons]
    congr 1
    · exact h 0 (by simp)
    · exact flatMap_range_length (f ∘ Nat.succ) g l (fun k hk => h (k + 1) (by simpa using hk))

theorem length_groupStarts : ∀ (n : Nat) (gs : List GroupCode), (groupStarts cat n gs).length = gs.length
  | _, [] => rfl
  | n, g :: gs => by simp [groupStarts, length_groupStarts _ gs]

theorem flatMap_filled_headerPieces (val : Field Anchor → List UInt8) (r : Region) (cc sc : Nat)
    (unk1 : UInt16) :
    (headerPieces r cc sc unk1).flatMap (Piece.filled val) =
      word16 cc ++ word16 sc ++ val (.words .dataStart .constData) ++
        val (.words .constData .constEnd) ++
        (List.range r.languages.length).flatMap (fun k => val (.words (.stringStart k) (.stringEnd k))) ++
        (if r = .europe then [] else word16 unk1.toNat) := by
  simp only [headerPieces, List.flatMap_append, List.flatMap_map]
  split <;> simp [Piece.filled]

theorem flatMap_filled_groupTablePieces (val : Field Anchor → List UInt8) :
    ∀ (i : Nat) (gs : List GroupCode) (sts : List Nat), sts.length = gs.length →
      (∀ j < gs.length, val (.words .dataStart (.group (i + j))) = word16 (sts.getD j 0 / 2)) →
      (groupTablePieces i (gs.map fun g => (g.kind, g.unk2))).flatMap (Piece.filled val) =
        wordBytes ((gs.zip sts).flatMap fun p => [p.2 / 2, p.1.kind.toNat, p.1.unk2.toNat])
  | _, [], _, _, _ => rfl
  | _, _ :: _, [], h, _ => by simp at h
  | i, g :: gs, st :: sts, hlen, hval => by
    have h0 := hval 0 (by simp)
    have hrest := flatMap_filled_groupTablePieces val (i + 1) gs sts (by simpa using hlen)
      (fun j hj => by simpa [Nat.add_assoc, Nat.add_comm 1 j] using hval (j + 1) (by simpa using hj))
    simp only [List.map_cons, groupTablePieces, List.flatMap_cons, Piece.filled, hrest,
      List.zip_cons_cons, wordBytes_append, wordBytes_cons, wordBytes_nil, List.append_nil]
    simp only [Nat.add_zero, List.getD_cons_zero] at h0
    simp [h0]

theorem flatMap_raw_codePieces :
    ∀ (k : Nat) (gs : List GroupCode),
      (codePieces cat k gs).flatMap Piece.raw = cat.codeBytes (gs.flatMap (·.items))
  | _, [] => rfl
  | k, g :: gs => by
    simp [codePieces, Piece.raw, flatMap_raw_codePieces (k + 1) gs]

theorem flatMap_raw_languagePieces (bias : Nat) :
    ∀ (k : Nat) (ts : List (List (List UInt8))),
      (languagePieces bias k ts).flatMap Piece.raw = ts.flatMap (tableBytes · bias)
  | _, [] => rfl
  | k, t :: ts => by
    simp [languagePieces, Piece.raw, flatMap_raw_tablePieces, flatMap_raw_languagePieces bias (k + 1) ts]

/-- Finished with the spans between the anchors, the pieces of an image are its bytes. -/
theorem flatMap_filled_encodePieces (im : Image)
    (htables : im.tables.length = im.region.languages.length) :
    (encodePieces cat im).flatMap (Piece.filled (spanValue (im.anchorAt cat))) = im.bytes cat := by
  have hstrings := im.stringsStart_eq cat
  have hheader : (List.range im.region.languages.length).flatMap
      (fun k => spanValue (im.anchorAt cat) (.words (.stringStart k) (.stringEnd k))) =
      wordBytes (im.tables.map fun t => (tableBytes t im.stringBias).length / 2) := by
    rw [← htables, wordBytes, List.flatMap_map]
    apply flatMap_range_length
    intro k hk
    have hsum := List.sum_take_succ (tableLens im.stringBias im.tables) k
      (by simpa [tableLens] using hk)
    simp only [spanValue, Image.anchorAt, hk, if_true, Option.getD_some, hsum]
    rw [← Nat.add_assoc, Nat.add_sub_cancel_left]
    simp [tableLens]
  have hgroups := flatMap_filled_groupTablePieces (spanValue (im.anchorAt cat)) 0 im.groups
    (groupStarts cat im.codeStart im.groups) (length_groupStarts cat _ _) (by
      intro j hj
      simp [spanValue, Image.anchorAt, hj, List.getD_eq_getElem?_getD])
  have hno : ∀ ps : List (Piece Anchor), (∀ f, Piece.field f ∉ ps) →
      ps.flatMap (Piece.filled (spanValue (im.anchorAt cat))) = ps.flatMap Piece.raw :=
    Piece.flatMap_filled_of_no_field _
  simp only [encodePieces, List.flatMap_append, flatMap_filled_headerPieces, hheader, hgroups,
    hno _ (field_not_mem_codePieces cat 0 im.groups), flatMap_raw_codePieces,
    hno _ (field_not_mem_languagePieces _ 0 im.tables), flatMap_raw_languagePieces,
    hno (tablePieces im.constants (2 * im.stringCount) .constData) (by simp [tablePieces]),
    flatMap_raw_tablePieces]
  simp only [Image.bytes, Image.header, Image.dataBlock, Image.groupTable, Image.items,
    wordBytes_append, wordBytes_cons, wordBytes_nil, List.flatMap_cons, List.flatMap_nil,
    Piece.filled, spanValue, Image.anchorAt, Option.getD_some, List.append_assoc,
    List.append_nil, List.nil_append, Image.constLen, hstrings]
  -- the constant strings' length is the span from their anchor to the next
  have hconst : im.headerSize + (im.dataLen cat + (2 * im.constants.length +
      (tableBody im.constants).length)) - (im.headerSize + (im.dataLen cat +
        2 * im.constants.length)) = (tableBody im.constants).length := by omega
  split <;> simp [Nat.add_assoc, hconst]

theorem span_le_of_resolve {α : Type} [DecidableEq α] {ms : List (α × Nat)} {p : Nat} {s e : α}
    {a z : Nat} {v : List UInt8} (hs : ms.lookup s = some a) (he : ms.lookup e = some z)
    (hle : a ≤ z) (heven : (z - a) % 2 = 0) (h : (Field.words s e).resolve ms p = .ok v) :
    (z - a) / 2 ≤ 0xFFFF := by
  rw [resolve_words hs he hle heven] at h
  split at h
  · assumption
  · cases h

/-- Finishing the pieces of an image succeeds exactly when the header's spans fit, and gives the
image's bytes. -/
theorem fill_encodePieces_eq_ok_iff (im : Image)
    (htables : im.tables.length = im.region.languages.length) (out : List UInt8) :
    Piece.fill (Builder.empty.putAll (encodePieces cat im)).marks 0 (encodePieces cat im) =
        .ok out ↔ im.SpansFit cat ∧ out = im.bytes cat := by
  constructor
  · intro h
    -- a field of the pieces resolves, so its span fits
    have hres : ∀ f, Piece.field f ∈ encodePieces cat im →
        ∃ p v, f.resolve (Builder.empty.putAll (encodePieces cat im)).marks p = .ok v := by
      intro f hf
      obtain ⟨p, hp⟩ := Piece.mem_fields_of_field_mem (n := 0) hf
      obtain ⟨v, hv⟩ := Piece.resolve_of_fill _ 0 _ out h (p, f) hp
      exact ⟨p, v, hv⟩
    have hat := find?_encodePieces cat im
    have hds := hat .dataStart
    have hcd := hat .constData
    have hce := hat .constEnd
    simp only [Builder.find?, Image.anchorAt] at hds hcd hce
    have hdata := im.dataLen_even cat
    have hconst := length_tableBody_even im.constants
    have hstrings := im.stringsStart_eq cat
    simp only [Image.constLen] at hstrings
    have hfit : im.SpansFit cat := by
      refine ⟨?_, ?_, ?_⟩
      · obtain ⟨p, v, hv⟩ := hres (.words .dataStart .constData)
          (by simp [encodePieces, headerPieces])
        have := span_le_of_resolve hds hcd (by omega) (by omega) hv
        omega
      · obtain ⟨p, v, hv⟩ := hres (.words .constData .constEnd)
          (by simp [encodePieces, headerPieces])
        have := span_le_of_resolve hcd hce (by omega) (by omega) hv
        simp only [Image.constLen]
        omega
      · intro t ht
        obtain ⟨k, hk, rfl⟩ := List.mem_iff_getElem.1 ht
        have hk' : k < im.region.languages.length := htables ▸ hk
        obtain ⟨p, v, hv⟩ := hres (.words (.stringStart k) (.stringEnd k))
          (by simp [encodePieces, headerPieces, hk'])
        have hkl : k < (tableLens im.stringBias im.tables).length := by simpa [tableLens] using hk
        have hsum := List.sum_take_succ (tableLens im.stringBias im.tables) k hkl
        have hss := hat (.stringStart k)
        have hse := hat (.stringEnd k)
        simp only [Builder.find?, Image.anchorAt, hk, if_true, hsum] at hss hse
        have heven := even_of_mem_tableLens (List.getElem_mem hkl)
        have := span_le_of_resolve hss hse (by omega) (by omega) hv
        simp only [tableLens, List.getElem_map] at this
        omega
    refine ⟨hfit, ?_⟩
    rw [Piece.fill_eq_of_resolve _ _ 0 _ (resolve_encodePieces cat im htables hfit),
      flatMap_filled_encodePieces cat im htables] at h
    exact (Except.ok.inj h).symm
  · rintro ⟨hfit, rfl⟩
    rw [Piece.fill_eq_of_resolve _ _ 0 _ (resolve_encodePieces cat im htables hfit),
      flatMap_filled_encodePieces cat im htables]

/-- Finishing the pieces of an image fails only on a span of more than `0xFFFF` words: every
anchor a field names is placed, and every span runs forward over an even number of bytes. -/
theorem fill_encodePieces_eq_error (im : Image)
    (htables : im.tables.length = im.region.languages.length) {f : BuildFault Anchor}
    (h : Piece.fill (Builder.empty.putAll (encodePieces cat im)).marks 0 (encodePieces cat im) =
      .error f) :
    ∃ p w, 0xFFFF < w ∧ f = .tooWide p w 16 := by
  obtain ⟨q, hq, hres⟩ := Piece.resolve_of_fill_error _ 0 _ f h
  have hat : ∀ a, (Builder.empty.putAll (encodePieces cat im)).marks.lookup a = im.anchorAt cat a :=
    find?_encodePieces cat im
  obtain ⟨s, e, a, z, hf, hs, he, hle, heven, -⟩ := field_span_encodePieces cat im htables q hq
  rw [hf, resolve_words ((hat s).trans hs) ((hat e).trans he) hle heven] at hres
  -- a span that fits resolves, so the fault is the span that does not
  split_ifs at hres with hwide
  cases hres
  exact ⟨q.1, (z - a) / 2, by omega, rfl⟩

end DungeonFormats.Script
