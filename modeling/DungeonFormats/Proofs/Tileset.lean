import Mathlib
import DungeonFormats.Tileset
import DungeonFormats.Proofs.ScriptRead

/-!
# Tileset round trips

A tileset is written as its `image`: the upper layer's start (always 28, right after the
header), the lower layer's start (0 for none), the two layer descriptions (zeros for a missing
lower layer), and the layers' data. The lower start is a 16-bit word, so writing succeeds
exactly when there is no lower layer or it starts below `0x10000` (`encode_eq_ok_iff`), and the
image reads back as the tileset (`decode_image`).

Reading keeps less than a file holds: the bytes between the header and a later upper start, and
the description of a missing lower layer, are dropped. So every file that reads back is written
again, but as itself exactly when its upper layer starts at 28 and, without a lower layer, its
lower description is all zeros (`tileset_round_trip`).
-/

namespace DungeonFormats

namespace Tileset

/-! ## The layout -/

/-- The bytes of a layer description: its six words, little-endian. -/
def LayerInfo.bytes (i : LayerInfo) : List UInt8 :=
  Script.wordBytes (i.words.map UInt16.toNat)

/-- The description written for the lower layer: its own, or zeros when there is none. -/
def lowerInfo : Option Layer → LayerInfo
  | some l => l.info
  | none => LayerInfo.zero

/-- The data written for the lower layer. -/
def lowerData : Option Layer → List UInt8
  | some l => l.data
  | none => []

/-- Where the lower layer starts in the file, 0 for none. -/
def lowerStart (t : Tileset) : Nat :=
  match t.lower with
  | some _ => headerSize + t.upper.data.length
  | none => 0

/-- The file a tileset is written as. -/
def image (t : Tileset) : List UInt8 :=
  Script.word16 headerSize ++ Script.word16 t.lowerStart ++ t.upper.info.bytes ++
    (lowerInfo t.lower).bytes ++ t.upper.data ++ lowerData t.lower

/-- The lower layer's start fits its 16-bit word. -/
def Fits (t : Tileset) : Prop :=
  t.lower = none ∨ headerSize + t.upper.data.length ≤ 0xFFFF

instance (t : Tileset) : Decidable t.Fits :=
  inferInstanceAs (Decidable (t.lower = none ∨ headerSize + t.upper.data.length ≤ 0xFFFF))

@[simp] theorem LayerInfo.length_bytes (i : LayerInfo) : i.bytes.length = 12 := by
  simp [bytes, words]

theorem LayerInfo.zero_bytes : LayerInfo.zero.bytes = List.replicate 12 0 := by
  decide

/-! ## Writing -/

/-- What the writer gives its builder. -/
def pieces (t : Tileset) : List (Piece Anchor) :=
  [.field (.position .upper 2 .little)] ++
    (match t.lower with
      | some _ => [.field (.position .lower 2 .little)]
      | none => [.bytes (Script.word16 0)]) ++
    [.bytes (t.upper.info.bytes ++ (lowerInfo t.lower).bytes), .mark .upper,
      .bytes t.upper.data] ++
    (match t.lower with
      | some l => [.mark .lower, .bytes l.data]
      | none => [])

theorem foldl_u16 {α : Type} (b : Builder α) (ws : List UInt16) :
    ws.foldl Builder.u16 b = b.append (Script.wordBytes (ws.map UInt16.toNat)) := by
  induction ws generalizing b with
  | nil => simp
  | cons w ws ih => rw [List.foldl_cons, ih, Builder.u16_eq, Builder.append_append]; rfl

/-- The writer places each anchor once, so it is the builder given its pieces, finished. -/
theorem encode_eq (t : Tileset) :
    t.encode = ((Builder.empty.putAll t.pieces).finish).mapError .build := by
  obtain ⟨⟨ui, ud⟩, lower⟩ := t
  cases lower with
  | none =>
    simp only [encode, pieces, lowerInfo, foldl_u16, LayerInfo.bytes, Builder.u16_eq,
      Builder.append_append, List.map_append, Script.wordBytes_append]
    rw [Builder.placeOnce_eq_ok rfl]
    simp only [Except.mapError, bind, Except.bind, pure, Except.pure, Builder.putAll_cons,
      Builder.putAll_nil, Builder.put, Builder.append_append, List.append_nil, List.nil_append,
      List.cons_append, UInt16.toNat_zero]
  | some l =>
    simp only [encode, pieces, lowerInfo, foldl_u16, LayerInfo.bytes, List.map_append,
      Script.wordBytes_append]
    rw [Builder.placeOnce_eq_ok rfl]
    simp only [Except.mapError, bind, Except.bind]
    rw [Builder.placeOnce_eq_ok rfl]
    simp only [pure, Except.pure, Builder.putAll_cons, Builder.putAll_nil, Builder.put,
      List.nil_append, List.cons_append]

/-- Writing a tileset gives its image when the lower layer's start fits its word, and otherwise
fails on that word. -/
theorem encode_spec (t : Tileset) :
    t.encode = if t.Fits then Except.ok t.image
      else Except.error (.build (.tooWide 2 (headerSize + t.upper.data.length) 16)) := by
  have hmarks : (Builder.empty : Builder Anchor).marks = [] := rfl
  rw [encode_eq, finish_putAll, Builder.marks_putAll, hmarks]
  obtain ⟨⟨ui, ud⟩, lower⟩ := t
  cases lower with
  | none =>
    simp [pieces, Piece.marks, Piece.fill, Field.resolve, Field.size, Fits, image, lowerStart,
      lowerInfo, lowerData, headerSize, Script.word16, ByteOrder.length_encode, Except.mapError,
      bind, Except.bind, pure, Except.pure]
  | some l =>
    have hne : (Anchor.upper == Anchor.lower) = false := by decide
    -- the lower start is written only if it fits its word
    by_cases h : 28 + ud.length < 65536
    · simp [pieces, Piece.marks, Piece.fill, Field.resolve, Field.size, Fits, image, lowerStart,
        lowerInfo, lowerData, headerSize, Script.word16, List.lookup, hne, h, Except.mapError, bind,
        Except.bind, pure, Except.pure, show 28 + ud.length ≤ 65535 by omega]
    · simp [pieces, Piece.marks, Piece.fill, Field.resolve, Field.size, Fits, lowerInfo,
        headerSize, List.lookup, hne, h, Except.mapError, bind, Except.bind,
        show ¬ 28 + ud.length ≤ 65535 by omega]

/-- Writing succeeds exactly when the lower start fits its word, and then gives the image. -/
theorem encode_eq_ok_iff {t : Tileset} {b : List UInt8} : t.encode = .ok b ↔ t.Fits ∧ t.image = b := by
  rw [encode_spec]
  split <;> simp_all

/-! ## Reading -/

/-- A layer description read is the twelve bytes it was read from. -/
theorem LayerInfo.rest_of_read {c d : Cursor} {i : LayerInfo} (h : LayerInfo.read c = .ok (i, d)) :
    c.rest = i.bytes ++ d.rest ∧ d.data = c.data := by
  simp only [LayerInfo.read, bind, Except.bind] at h
  -- six words, each its two bytes
  split at h; · cases h
  rename_i p1 h1
  split at h; · cases h
  rename_i p2 h2
  split at h; · cases h
  rename_i p3 h3
  split at h; · cases h
  rename_i p4 h4
  split at h; · cases h
  rename_i p5 h5
  split at h; · cases h
  rename_i p6 h6
  simp only [pure, Except.pure, Except.ok.injEq, Prod.mk.injEq] at h
  obtain ⟨rfl, rfl⟩ := h
  obtain ⟨r1, d1, -⟩ := Cursor.rest_of_u16 h1
  obtain ⟨r2, d2, -⟩ := Cursor.rest_of_u16 h2
  obtain ⟨r3, d3, -⟩ := Cursor.rest_of_u16 h3
  obtain ⟨r4, d4, -⟩ := Cursor.rest_of_u16 h4
  obtain ⟨r5, d5, -⟩ := Cursor.rest_of_u16 h5
  obtain ⟨r6, d6, -⟩ := Cursor.rest_of_u16 h6
  refine ⟨?_, by rw [d6, d5, d4, d3, d2, d1]⟩
  simp [r1, r2, r3, r4, r5, r6, LayerInfo.bytes, LayerInfo.words]

/-- A layer description whose bytes are next reads as itself. -/
theorem LayerInfo.read_of_rest {c : Cursor} {i : LayerInfo} {r : List UInt8}
    (h : c.rest = i.bytes ++ r) :
    ∃ d, LayerInfo.read c = .ok (i, d) ∧ d.data = c.data ∧ d.pos = c.pos + 12 ∧ d.rest = r := by
  obtain ⟨nb, u2, u3, u4, u5, tl⟩ := i
  simp only [LayerInfo.bytes, LayerInfo.words, List.map_cons, List.map_nil, Script.wordBytes_cons,
    Script.wordBytes_nil, List.append_nil, List.append_assoc] at h
  obtain ⟨d1, h1, e1, p1, r1⟩ := Cursor.u16_of_rest h nb.toNat_lt
  obtain ⟨d2, h2, e2, p2, r2⟩ := Cursor.u16_of_rest r1 u2.toNat_lt
  obtain ⟨d3, h3, e3, p3, r3⟩ := Cursor.u16_of_rest r2 u3.toNat_lt
  obtain ⟨d4, h4, e4, p4, r4⟩ := Cursor.u16_of_rest r3 u4.toNat_lt
  obtain ⟨d5, h5, e5, p5, r5⟩ := Cursor.u16_of_rest r4 u5.toNat_lt
  obtain ⟨d6, h6, e6, p6, r6⟩ := Cursor.u16_of_rest r5 tl.toNat_lt
  refine ⟨d6, ?_, by rw [e6, e5, e4, e3, e2, e1], by omega, r6⟩
  simp [LayerInfo.read, h1, h2, h3, h4, h5, h6, UInt16.ofNat_toNat, bind, Except.bind, pure,
    Except.pure]

/-- The first 28 bytes of a file: the two starts and the two layer descriptions. -/
def header (u l : Nat) (ui li : LayerInfo) : List UInt8 :=
  Script.word16 u ++ Script.word16 l ++ ui.bytes ++ li.bytes

@[simp] theorem length_header (u l : Nat) (ui li : LayerInfo) : (header u l ui li).length = 28 := by
  simp [header]

/-- Reading a file by its header: the upper layer runs from its start to the lower start, or to
the end without one, and both layers are cut out when those bounds lie in order within the file;
the description of a missing lower layer is dropped. -/
theorem decode_header {u l : Nat} {ui li : LayerInfo} (r : List UInt8) (hu : u < 65536)
    (hl : l < 65536) :
    decode (header u l ui li ++ r) =
      if headerSize ≤ u ∧ u ≤ (if l = 0 then 28 + r.length else l) ∧
          (if l = 0 then 28 + r.length else l) ≤ 28 + r.length then
        .ok ⟨⟨ui, ((header u l ui li ++ r).take (if l = 0 then 28 + r.length else l)).drop u⟩,
          if l = 0 then none else some ⟨li, (header u l ui li ++ r).drop l⟩⟩
      else .error (.badOffsets u l (28 + r.length)) := by
  have h0 : (Cursor.start (header u l ui li ++ r)).rest =
      Script.word16 u ++ (Script.word16 l ++ ui.bytes ++ li.bytes ++ r) := by
    simp [Cursor.rest, Cursor.start, header]
  obtain ⟨c1, e1, -, -, r1⟩ := Cursor.u16_of_rest h0 hu
  simp only [List.append_assoc] at r1
  obtain ⟨c2, e2, -, -, r2⟩ := Cursor.u16_of_rest r1 hl
  obtain ⟨c3, e3, -, -, r3⟩ := LayerInfo.read_of_rest r2
  obtain ⟨c4, e4, -, -, -⟩ := LayerInfo.read_of_rest r3
  have hlen : (header u l ui li ++ r).length = 28 + r.length := by simp
  unfold decode
  simp only [e1, e2, e3, e4, Except.mapError, bind, Except.bind, Script.toNat_toUInt16_of_lt hu,
    Script.toNat_toUInt16_of_lt hl, hlen]
  -- within the bounds both cuts are slices of the file
  by_cases hl0 : l = 0
  · simp only [hl0, if_true]
    split
    · rename_i hb
      rw [slice_eq_ok hb.2.1 (hlen ▸ hb.2.2)]
      rfl
    · rfl
  · simp only [hl0, if_false]
    split
    · rename_i hb
      rw [slice_eq_ok hb.2.1 (hlen ▸ hb.2.2), sliceFrom_eq_ok (hlen ▸ hb.2.2)]
      rfl
    · rfl

theorem image_eq_header (t : Tileset) :
    t.image = header headerSize t.lowerStart t.upper.info (lowerInfo t.lower) ++
      (t.upper.data ++ lowerData t.lower) := by
  simp [image, header]

/-- A tileset whose lower start fits its word reads back from its image. -/
theorem decode_image {t : Tileset} (h : t.Fits) : decode t.image = .ok t := by
  obtain ⟨⟨ui, ud⟩, lower⟩ := t
  cases lower with
  | none =>
    have himg : image ⟨⟨ui, ud⟩, none⟩ = header 28 0 ui LayerInfo.zero ++ ud := by
      simp [image, header, lowerStart, lowerInfo, lowerData, headerSize]
    have hcut : ((header 28 0 ui LayerInfo.zero ++ ud).take (28 + ud.length)).drop 28 = ud := by
      rw [List.take_of_length_le (by simp), List.drop_left' (length_header _ _ _ _)]
    rw [himg, decode_header _ (by decide) (by decide)]
    simp [headerSize, hcut]
  | some l =>
    simp only [Fits, reduceCtorEq, false_or, headerSize] at h
    have himg : image ⟨⟨ui, ud⟩, some l⟩ =
        (header 28 (28 + ud.length) ui l.info ++ ud) ++ l.data := by
      simp [image, header, lowerStart, lowerInfo, lowerData, headerSize]
    have hpre : (header 28 (28 + ud.length) ui l.info ++ ud).length = 28 + ud.length := by simp
    rw [himg, List.append_assoc, decode_header _ (by decide) (by omega), ← List.append_assoc]
    have hne : ¬ 28 + ud.length = 0 := by omega
    simp only [if_neg hne, List.take_left' hpre, List.drop_left' hpre,
      List.drop_left' (length_header _ _ _ _)]
    rw [if_pos ⟨Nat.le_refl _, by omega, by simp⟩]

/-- A file that reads back starts with a whole header. -/
theorem header_of_decode {b : List UInt8} {x : Tileset} (h : decode b = .ok x) :
    ∃ u l ui li r, u < 65536 ∧ l < 65536 ∧ b = header u l ui li ++ r := by
  unfold decode at h
  obtain ⟨⟨us, c1⟩, h1, h⟩ := Except.bind_eq_ok_iff.1 h
  obtain ⟨⟨ls, c2⟩, h2, h⟩ := Except.bind_eq_ok_iff.1 h
  obtain ⟨⟨ui, c3⟩, h3, h⟩ := Except.bind_eq_ok_iff.1 h
  obtain ⟨⟨li, c4⟩, h4, -⟩ := Except.bind_eq_ok_iff.1 h
  obtain ⟨r1, -, -⟩ := Cursor.rest_of_u16 (Except.mapError_eq_ok_iff.1 h1)
  obtain ⟨r2, -, -⟩ := Cursor.rest_of_u16 (Except.mapError_eq_ok_iff.1 h2)
  obtain ⟨r3, -⟩ := LayerInfo.rest_of_read (Except.mapError_eq_ok_iff.1 h3)
  obtain ⟨r4, -⟩ := LayerInfo.rest_of_read (Except.mapError_eq_ok_iff.1 h4)
  refine ⟨us.toNat, ls.toNat, ui, li, c4.rest, us.toNat_lt, ls.toNat_lt, ?_⟩
  have hb : (Cursor.start b).rest = b := rfl
  rw [← hb, r1, r2, r3, r4]
  simp [header]

/-- The fields of a header are read off its bytes: the two starts, then the two layer
descriptions. -/
theorem header_fields (u l : Nat) (ui li : LayerInfo) (r : List UInt8) (hu : u < 65536)
    (hl : l < 65536) :
    ByteOrder.little.decode ((header u l ui li ++ r).take 2) = u ∧
      ByteOrder.little.decode (((header u l ui li ++ r).drop 2).take 2) = l ∧
      ((header u l ui li ++ r).drop 4).take 12 = ui.bytes ∧
      ((header u l ui li ++ r).drop 16).take 12 = li.bytes := by
  have h2 : ∀ n, (Script.word16 n).length = 2 := Script.length_word16
  have hmod : ∀ n, n < 65536 → n % 256 ^ 2 = n := fun n hn =>
    Nat.mod_eq_of_lt (Nat.lt_of_lt_of_eq hn (by decide))
  simp only [header, List.append_assoc]
  refine ⟨?_, ?_, ?_, ?_⟩
  · rw [List.take_left' (h2 u), Script.word16, ByteOrder.decode_encode, hmod u hu]
  · rw [List.drop_left' (h2 u), List.take_left' (h2 l), Script.word16, ByteOrder.decode_encode,
      hmod l hl]
  · rw [show 4 = (Script.word16 u).length + (Script.word16 l).length by simp, ← List.drop_drop,
      List.drop_left' rfl, List.drop_left' rfl, List.take_left' (LayerInfo.length_bytes ui)]
  · rw [show 16 = (Script.word16 u).length + ((Script.word16 l).length + ui.bytes.length) by simp,
      ← List.drop_drop, ← List.drop_drop, List.drop_left' rfl, List.drop_left' rfl,
      List.drop_left' rfl, List.take_left' (LayerInfo.length_bytes li)]

/-- A layer description is determined by its bytes. -/
theorem LayerInfo.bytes_injective {i j : LayerInfo} (h : i.bytes = j.bytes) : i = j := by
  have e1 : (Cursor.start i.bytes).rest = i.bytes ++ [] := by simp [Cursor.rest, Cursor.start]
  have e2 : (Cursor.start i.bytes).rest = j.bytes ++ [] := by simp [Cursor.rest, Cursor.start, h]
  obtain ⟨d, hd, -⟩ := LayerInfo.read_of_rest e1
  obtain ⟨d', hd', -⟩ := LayerInfo.read_of_rest e2
  rw [hd] at hd'
  simp only [Except.ok.injEq, Prod.mk.injEq] at hd'
  exact hd'.1

theorem LayerInfo.bytes_inj {i j : LayerInfo} : i.bytes = j.bytes ↔ i = j :=
  ⟨LayerInfo.bytes_injective, congrArg _⟩

/-! ## Round trips -/

/-- Cutting a file at `m` after its first `n` bytes, `n ≤ m`, and joining the parts gives what
follows the first `n` bytes. -/
theorem drop_take_append_drop (D : List UInt8) {n m : Nat} (h : n ≤ m) :
    (D.take m).drop n ++ D.drop m = D.drop n := by
  rw [List.drop_take, show m = n + (m - n) by omega, ← List.drop_drop, Nat.add_sub_cancel_left,
    List.take_append_drop]

theorem drop_header (u l : Nat) (ui li : LayerInfo) (r : List UInt8) :
    (header u l ui li ++ r).drop headerSize = r :=
  List.drop_left' (length_header _ _ _ _)

/-- A file that reads back is written again, and as itself exactly when its upper layer starts
right after the header and, without a lower layer, the lower description is all zeros. -/
theorem image_of_decode {u l : Nat} {ui li : LayerInfo} {r : List UInt8} {x : Tileset}
    (hu : u < 65536) (hl : l < 65536) (h : decode (header u l ui li ++ r) = .ok x) :
    x.Fits ∧ (x.image = header u l ui li ++ r ↔ u = headerSize ∧ (l ≠ 0 ∨ li = LayerInfo.zero)) := by
  have hlen : (header u l ui li ++ r).length = 28 + r.length := by simp
  have hD := header_fields u l ui li r hu hl
  have hhs : headerSize = 28 := rfl
  rw [decode_header r hu hl] at h
  rcases ite_eq_iff.1 h with ⟨⟨h28, hue, hend⟩, h⟩ | ⟨-, h⟩
  swap
  · cases h
  simp only [Except.ok.injEq] at h
  subst h
  by_cases hl0 : l = 0
  · -- no lower layer: the upper layer runs to the end of the file
    subst hl0
    simp only [if_true] at hue hend ⊢
    rw [List.take_of_length_le (by simp)]
    have himg : image ⟨⟨ui, (header u 0 ui li ++ r).drop u⟩, none⟩ =
        header 28 0 ui LayerInfo.zero ++ (header u 0 ui li ++ r).drop u := by
      simp [image, header, lowerStart, lowerInfo, lowerData, headerSize]
    refine ⟨Or.inl rfl, ?_⟩
    rw [himg]
    constructor
    · intro he
      have hI := header_fields 28 0 ui LayerInfo.zero ((header u 0 ui li ++ r).drop u) (by decide)
        (by decide)
      rw [he] at hI
      exact ⟨hD.1.symm.trans hI.1, Or.inr (LayerInfo.bytes_injective (hD.2.2.2.symm.trans
        hI.2.2.2))⟩
    · rintro ⟨rfl, hz⟩
      rcases hz with hz | rfl
      · exact absurd rfl hz
      · rw [drop_header]
        rfl
  · -- a lower layer: the upper layer runs to its start
    simp only [hl0, if_false] at hue hend ⊢
    have hup : (((header u l ui li ++ r).take l).drop u).length = l - u := by
      simp only [List.length_drop, List.length_take, hlen]
      omega
    have himg : image ⟨⟨ui, ((header u l ui li ++ r).take l).drop u⟩,
        some ⟨li, (header u l ui li ++ r).drop l⟩⟩ =
        header headerSize (headerSize + (l - u)) ui li ++
          (((header u l ui li ++ r).take l).drop u ++ (header u l ui li ++ r).drop l) := by
      rw [image_eq_header]
      simp only [lowerStart, lowerInfo, lowerData, hup]
    refine ⟨Or.inr (by simp only [hup]; omega), ?_⟩
    rw [himg]
    constructor
    · intro he
      have hI := header_fields headerSize (headerSize + (l - u)) ui li (((header u l ui li ++ r).take l).drop u ++
        (header u l ui li ++ r).drop l) (by decide) (by omega)
      rw [he] at hI
      exact ⟨hD.1.symm.trans hI.1, Or.inl hl0⟩
    · rintro ⟨rfl, -⟩
      rw [drop_take_append_drop _ hue, drop_header, show headerSize + (l - headerSize) = l by omega]

/-- Writing and reading tilesets undo each other in both directions. A tileset is written exactly
when its lower start fits its word, and what is written reads back as it. A file that reads back
is always written again, and as itself exactly when its first word is 28 and either its second
word is not zero or its bytes 16 to 28 are all zero. -/
theorem tileset_round_trip :
    (∀ x : Tileset,
        ((∃ b, x.encode = .ok b) ↔ x.lower = none ∨ headerSize + x.upper.data.length ≤ 0xFFFF) ∧
          ∀ b, x.encode = .ok b → decode b = .ok x) ∧
      ∀ b x, decode b = .ok x → ∃ b', x.encode = .ok b' ∧
        (b' = b ↔ ByteOrder.little.decode (b.take 2) = headerSize ∧
          (ByteOrder.little.decode ((b.drop 2).take 2) ≠ 0 ∨
            (b.drop 16).take 12 = List.replicate 12 0)) := by
  refine ⟨fun x => ⟨⟨?_, ?_⟩, ?_⟩, ?_⟩
  · rintro ⟨b, hb⟩
    exact (encode_eq_ok_iff.1 hb).1
  · intro h
    exact ⟨x.image, encode_eq_ok_iff.2 ⟨h, rfl⟩⟩
  · intro b hb
    obtain ⟨hfit, rfl⟩ := encode_eq_ok_iff.1 hb
    exact decode_image hfit
  · -- a file that reads back is a header and the rest; its fields decide the comparison
    intro b x hx
    obtain ⟨u, l, ui, li, r, hu, hl, rfl⟩ := header_of_decode hx
    obtain ⟨hfit, himg⟩ := image_of_decode hu hl hx
    obtain ⟨h1, h2, -, h4⟩ := header_fields u l ui li r hu hl
    refine ⟨x.image, encode_eq_ok_iff.2 ⟨hfit, rfl⟩, ?_⟩
    rw [himg, h1, h2, h4, ← LayerInfo.zero_bytes, LayerInfo.bytes_inj]

/-- The file of a tileset with both layers: its header points the lower layer past the upper
data, and it reads back as the tileset. -/
theorem tileset_round_trip_both_layers :
    (⟨⟨⟨10, 1, 2, 3, 4, 20⟩, [1, 2, 3]⟩, some ⟨⟨20, 1, 2, 3, 4, 40⟩, [4, 5]⟩⟩ : Tileset).encode =
        .ok [28, 0, 31, 0, 10, 0, 1, 0, 2, 0, 3, 0, 4, 0, 20, 0, 20, 0, 1, 0, 2, 0, 3, 0, 4, 0, 40,
          0, 1, 2, 3, 4, 5] ∧
      decode [28, 0, 31, 0, 10, 0, 1, 0, 2, 0, 3, 0, 4, 0, 20, 0, 20, 0, 1, 0, 2, 0, 3, 0, 4, 0,
          40, 0, 1, 2, 3, 4, 5] =
        .ok ⟨⟨⟨10, 1, 2, 3, 4, 20⟩, [1, 2, 3]⟩, some ⟨⟨20, 1, 2, 3, 4, 40⟩, [4, 5]⟩⟩ := by
  have henc : (⟨⟨⟨10, 1, 2, 3, 4, 20⟩, [1, 2, 3]⟩, some ⟨⟨20, 1, 2, 3, 4, 40⟩, [4, 5]⟩⟩ :
      Tileset).encode = .ok [28, 0, 31, 0, 10, 0, 1, 0, 2, 0, 3, 0, 4, 0, 20, 0, 20, 0, 1, 0, 2, 0,
        3, 0, 4, 0, 40, 0, 1, 2, 3, 4, 5] := by decide
  exact ⟨henc, (tileset_round_trip.1 _).2 _ henc⟩

end DungeonFormats.Tileset
