import Mathlib
import DungeonFormats.Proofs.Word
import DungeonFormats.Proofs.ScriptWrite
import DungeonFormats.Script.Decode

/-!
# Reading a laid-out script

What `Script.decode` makes of the bytes of an image. Every number the layout writes as a word
reads back as itself when it fits one, so the header, the head of the data block and the group
table read back as the image's counts, lengths and group starts; every string table reads back as
its strings, from the pointers of both string-base rules; and the data block is the image's
(`decode_bytes`). What the code reads back as is the subject of `CodeRead`.
-/

namespace DungeonFormats

namespace Cursor

/-- A cursor's position moved past bytes that are next. -/
theorem rest_of_advance {c d : Cursor} {bs r : List UInt8} (h : c.rest = bs ++ r)
    (hd : d.data = c.data) (hp : d.pos = c.pos + bs.length) : d.rest = r := by
  have := congrArg (List.drop bs.length) h
  simp only [List.drop_left] at this
  rw [← this, rest, rest, hd, hp, List.drop_drop, Nat.add_comm]

/-- Reading a word whose two bytes are next. -/
theorem u16_of_rest {c : Cursor} {n : Nat} {r : List UInt8} (h : c.rest = Script.word16 n ++ r)
    (hn : n < 65536) :
    ∃ d, c.u16 = .ok (n.toUInt16, d) ∧ d.data = c.data ∧ d.pos = c.pos + 2 ∧ d.rest = r := by
  have hlen : 2 ≤ c.size - c.pos := by
    have := congrArg List.length h
    simp only [List.length_append, Script.length_word16, length_rest] at this
    omega
  have htake : c.rest.take 2 = Script.word16 n := by
    rw [h, List.take_left' (Script.length_word16 n)]
  obtain ⟨d, hd⟩ : ∃ d, c.word .little 2 = .ok (n, d) := by
    refine ⟨⟨c.data, c.pos + 2, ?_⟩, word_eq_ok_iff.2 ⟨hlen, ?_, rfl, rfl⟩⟩
    · simp only [size] at hlen
      omega
    · rw [htake, Script.word16, ByteOrder.decode_encode, Nat.mod_eq_of_lt (by simpa using hn)]
  obtain ⟨-, -, hdata, hpos⟩ := word_eq_ok_iff.1 hd
  refine ⟨d, ?_, hdata, hpos, rest_of_advance h hdata (by simpa using hpos)⟩
  simp [u16, hd, bind, Except.bind, pure, Except.pure]

/-- A word read is the two bytes it was read from. -/
theorem rest_of_u16 {c d : Cursor} {v : UInt16} (h : c.u16 = .ok (v, d)) :
    c.rest = Script.word16 v.toNat ++ d.rest ∧ d.data = c.data ∧ d.pos = c.pos + 2 := by
  obtain ⟨n, hn, rfl⟩ : ∃ n, c.word .little 2 = .ok (n, d) ∧ v = n.toUInt16 := by
    simp only [u16, bind, Except.bind] at h
    split at h
    · cases h
    · rename_i p hp
      simp only [pure, Except.pure, Except.ok.injEq, Prod.mk.injEq] at h
      obtain ⟨rfl, rfl⟩ := h
      exact ⟨p.1, hp, rfl⟩
  obtain ⟨hlen, rfl, hd, hp⟩ := word_eq_ok_iff.1 hn
  have htake : (c.rest.take 2).length = 2 := by
    simp only [List.length_take, length_rest]
    omega
  have hword : Script.word16 (ByteOrder.little.decode (c.rest.take 2)).toUInt16.toNat =
      c.rest.take 2 := by
    rw [Script.toNat_toUInt16_of_lt (Nat.lt_of_lt_of_eq (htake ▸ ByteOrder.decode_lt _ _) (by decide)),
      Script.word16]
    have := ByteOrder.encode_decode ByteOrder.little (c.rest.take 2)
    rwa [htake] at this
  refine ⟨?_, hd, hp⟩
  rw [hword, rest, rest, hd, hp, ← List.drop_drop, List.take_append_drop]

/-- Reading words whose bytes are next, one after another. -/
theorem times_u16_of_rest :
    ∀ {c : Cursor} {ns : List Nat} {r : List UInt8}, c.rest = Script.wordBytes ns ++ r →
      (∀ n ∈ ns, n < 65536) →
      ∃ d, c.times u16 ns.length = .ok (ns.map Nat.toUInt16, d) ∧ d.data = c.data ∧
        d.pos = c.pos + 2 * ns.length ∧ d.rest = r
  | c, [], r, h, _ => ⟨c, rfl, rfl, rfl, by simpa using h⟩
  | c, n :: ns, r, h, hlt => by
    rw [Script.wordBytes_cons, List.append_assoc] at h
    obtain ⟨d, hd, hdata, hpos, hrest⟩ := u16_of_rest h (hlt n (List.mem_cons_self ..))
    obtain ⟨e, he, edata, epos, erest⟩ :=
      times_u16_of_rest hrest (fun m hm => hlt m (List.mem_cons_of_mem _ hm))
    refine ⟨e, ?_, edata.trans hdata, by simp only [List.length_cons]; omega, erest⟩
    simp [times, hd, he, bind, Except.bind, pure, Except.pure]

/-- Reading a string whose bytes and NUL are next. -/
theorem terminated_of_rest {c : Cursor} {s r : List UInt8} (h : c.rest = s ++ 0 :: r)
    (hs : 0 ∉ s) :
    ∃ d, c.terminated = .ok (s, d) ∧ d.data = c.data ∧ d.pos = c.pos + s.length + 1 := by
  have hlen : c.pos + s.length + 1 ≤ c.data.length := by
    have := congrArg List.length h
    simp only [length_rest, size, List.length_append, List.length_cons] at this
    omega
  refine ⟨⟨c.data, c.pos + s.length + 1, hlen⟩,
    terminated_eq_ok_iff.2 ⟨c.pos + s.length, by omega, ?_, ?_, ?_, rfl, rfl⟩, rfl, rfl⟩
  · rw [← getElem?_rest, h]
    simp
  · intro i hi hlt h0
    rw [show i = c.pos + (i - c.pos) by omega, ← getElem?_rest, h,
      List.getElem?_append_left (by omega)] at h0
    exact hs (List.mem_of_getElem? h0)
  · rw [h, Nat.add_sub_cancel_left]
    simp

/-- Seeking from the start of the bytes. -/
theorem rest_of_seek {data : List UInt8} {p : Nat} {d : Cursor} (h : (start data).seek p = .ok d) :
    d.rest = data.drop p ∧ d.data = data := by
  obtain ⟨-, hd, hp⟩ := seek_eq_ok_iff.1 h
  exact ⟨by rw [rest, hd, hp]; rfl, hd⟩

end Cursor

namespace Script

/-! ## String tables -/

section Tables

variable (data : List UInt8) (base correction : Nat)

/-- Room for `n` strings is made when `n` is at most `(2 ^ 63 - 8) / 24`. -/
theorem withCapacity_strings {n : Nat} (h : n ≤ 384307168202282325) :
    withCapacity 24 8 n = .ok () :=
  withCapacity_eq_ok (by unfold isizeMax; omega)

/-- The strings behind pointers that count `bias` past the start of their table at `tablePos`,
the first string lying `pos` bytes into the table, read with the reader's `base` and
`correction`: each pointer is found where the layout put it, as long as its sum with the base
is a `usize`. -/
theorem readStrings_pointerValues (tablePos bias : Nat)
    (hbase : base + bias = tablePos + correction) :
    ∀ (ss : List (List UInt8)) (pos : Nat) (g : Cursor) (r rest : List UInt8),
      g.rest = wordBytes (pointerValues bias pos ss) ++ r →
      data.drop (tablePos + pos) = ss.flatMap (· ++ [0]) ++ rest →
      (∀ s ∈ ss, 0 ∉ s) → (∀ p ∈ pointerValues bias pos ss, p < 65536) →
      (∀ p ∈ pointerValues bias pos ss, base + p < usizeLimit) →
      readStrings data base correction ss.length g = .ok ss
  | [], _, _, _, _, _, _, _, _, _ => rfl
  | s :: ss, pos, g, r, rest, hg, hdata, hnul, hlt, hsum => by
    have hsum0 : uadd base (bias + pos) = .ok (base + (bias + pos)) :=
      uadd_eq_ok (hsum _ (List.mem_cons_self ..))
    simp only [pointerValues, wordBytes_cons, List.append_assoc] at hg
    obtain ⟨d, hd, -, -, hrest⟩ := Cursor.u16_of_rest hg (hlt _ (List.mem_cons_self ..))
    have hp : (bias + pos).toUInt16.toNat = bias + pos :=
      toNat_toUInt16_of_lt (hlt _ (List.mem_cons_self ..))
    simp only [List.flatMap_cons, List.append_assoc, List.singleton_append] at hdata
    -- the string starts where its pointer says, and its NUL ends it
    have hin : tablePos + pos < data.length := by
      have := congrArg List.length hdata
      simp only [List.length_drop, List.length_append, List.length_cons] at this
      omega
    obtain ⟨sc, hsc⟩ : ∃ sc, (Cursor.start data).seek (base + (bias + pos) - correction) = .ok sc :=
      ⟨⟨data, tablePos + pos, hin.le⟩, Cursor.seek_eq_ok_iff.2
        ⟨by simp only [Cursor.size, Cursor.start]; omega, rfl, by dsimp only; omega⟩⟩
    obtain ⟨hscr, -⟩ := Cursor.rest_of_seek hsc
    rw [show base + (bias + pos) - correction = tablePos + pos by omega, hdata] at hscr
    obtain ⟨e, he, -, -⟩ := Cursor.terminated_of_rest hscr (hnul s (List.mem_cons_self ..))
    have htail : data.drop (tablePos + (pos + s.length + 1)) = ss.flatMap (· ++ [0]) ++ rest := by
      rw [show tablePos + (pos + s.length + 1) = tablePos + pos + (s.length + 1) by omega,
        ← List.drop_drop, hdata]
      simp
    have ih := readStrings_pointerValues tablePos bias hbase ss (pos + s.length + 1) d r rest hrest
      htail (fun t ht => hnul t (List.mem_cons_of_mem _ ht))
      (fun p hp => hlt p (List.mem_cons_of_mem _ hp)) (fun p hp => hsum p (List.mem_cons_of_mem _ hp))
    simp only [List.length_cons, readStrings, hd, Except.mapError, bind, Except.bind, hp, hsum0]
    rw [if_neg (by omega), hsc]
    simp [he, ih, pure, Except.pure]

/-- Pointers followed by their strings read back as the strings, from wherever the pointers
count and whatever follows the strings, when room is made for the strings and the base plus
each pointer is a `usize`. -/
theorem readTable_of_drop (tablePos bias : Nat) (hbase : base + bias = tablePos + correction)
    (ss : List (List UInt8)) (rest : List UInt8)
    (hdata : data.drop tablePos =
      wordBytes (pointerValues bias (2 * ss.length) ss) ++ ss.flatMap (· ++ [0]) ++ rest)
    (hfits : TableFits ss bias) (hcap : ss.length ≤ 384307168202282325)
    (hsum : ∀ p ∈ pointerValues bias (2 * ss.length) ss, base + p < usizeLimit) :
    readTable data tablePos base ss.length correction = .ok ss := by
  unfold readTable
  split
  · rename_i h
    simp [List.length_eq_zero_iff.1 h]
  rename_i hne
  have hin : tablePos ≤ data.length := by
    have := congrArg List.length hdata
    simp only [List.length_drop, List.length_append, length_wordBytes, length_pointerValues] at this
    omega
  obtain ⟨g, hg⟩ : ∃ g, (Cursor.start data).seek tablePos = .ok g :=
    ⟨⟨data, tablePos, hin⟩, Cursor.seek_eq_ok_iff.2 ⟨hin, rfl, rfl⟩⟩
  obtain ⟨hgr, -⟩ := Cursor.rest_of_seek hg
  rw [hdata, List.append_assoc] at hgr
  -- the strings follow the pointers, one word per string
  have hbody : data.drop (tablePos + 2 * ss.length) = ss.flatMap (· ++ [0]) ++ rest := by
    rw [← List.drop_drop, hdata, List.append_assoc,
      List.drop_left' (by simp [length_pointerValues])]
  simp only [hg, withCapacity_strings hcap, Except.mapError, bind, Except.bind]
  exact readStrings_pointerValues data base correction tablePos bias hbase ss _ g _ _ hgr hbody
    hfits.no_nul hfits.pointers_lt hsum

/-- A string table reads back as its strings, from wherever its pointers count. -/
theorem readTable_tableBytes (tablePos bias : Nat) (hbase : base + bias = tablePos + correction)
    (ss : List (List UInt8)) (rest : List UInt8) (hdata : data.drop tablePos = tableBytes ss bias ++ rest)
    (hfits : TableFits ss bias) (hcap : ss.length ≤ 384307168202282325)
    (hsum : ∀ p ∈ pointerValues bias (2 * ss.length) ss, base + p < usizeLimit) :
    readTable data tablePos base ss.length correction = .ok ss :=
  readTable_of_drop data base correction tablePos bias hbase ss
    (List.replicate ((ss.flatMap (· ++ [0])).length % 2) 0 ++ rest)
    (by rw [hdata, tableBytes, tableBody]; simp only [List.append_assoc]) hfits hcap hsum

/-- A string table that lies within `data`, read with correction `0`: the base plus each pointer
stays below the length of `data`. -/
theorem sum_lt_of_tableBytes {tablePos bias : Nat} (hbase : base + bias = tablePos)
    {ss : List (List UInt8)} {rest : List UInt8} (hdata : data.drop tablePos = tableBytes ss bias ++ rest) :
    ∀ p ∈ pointerValues bias (2 * ss.length) ss, base + p < data.length := by
  intro p hp
  have hp' := lt_of_mem_pointerValues hp
  have hne : 0 < ss.length := length_pointerValues bias _ ss ▸ List.length_pos_of_mem hp
  have hlen := congrArg List.length hdata
  simp only [List.length_drop, List.length_append, tableBytes, tableBody, length_wordBytes,
    length_pointerValues, List.length_replicate] at hlen
  omega

/-- The string tables of languages, one after another from `stringStart`, read back as the
tables, each set for its language. -/
theorem readLanguageTables_tables (stringStart sc bias : Nat) (hbase : base + bias = stringStart)
    (hcap : sc ≤ 384307168202282325) (hlim : data.length ≤ usizeLimit) :
    ∀ (ls : List Language) (ts : List (List (List UInt8))) (off : Nat)
      (acc : PerLanguage (List (List UInt8))) (rest : List UInt8),
      ls.length = ts.length → (∀ t ∈ ts, t.length = sc) → (∀ t ∈ ts, TableFits t bias) →
      (∀ t ∈ ts, (tableBytes t bias).length / 2 ≤ 0xFFFF) →
      data.drop (stringStart + off) = ts.flatMap (tableBytes · bias) ++ rest →
      readLanguageTables data stringStart base sc ls
          ((ts.map fun t => (tableBytes t bias).length / 2).map Nat.toUInt16) off acc =
        .ok ((ls.zip ts).foldl (fun a p => a.set p.1 p.2) acc)
  | [], ts, _, acc, _, hlen, _, _, _, _ => by
    cases ts with
    | nil => rfl
    | cons t ts => simp at hlen
  | l :: ls, [], _, _, _, hlen, _, _, _, _ => by simp at hlen
  | l :: ls, t :: ts, off, acc, rest, hlen, hsc, hfits, hspan, hdata => by
    simp only [List.mem_cons, forall_eq_or_imp] at hsc hfits hspan
    rw [List.flatMap_cons, List.append_assoc] at hdata
    have ht := readTable_tableBytes data (base + off) 0 (stringStart + off) bias (by omega) t _ hdata
      hfits.1 (by rw [hsc.1]; exact hcap) fun p hp =>
        Nat.lt_of_lt_of_le (sum_lt_of_tableBytes data (base + off) (by omega) hdata p hp) hlim
    rw [hsc.1] at ht
    have heven := length_tableBytes_even t bias
    have hword : ((tableBytes t bias).length / 2).toUInt16.toNat = (tableBytes t bias).length / 2 :=
      toNat_toUInt16_of_lt (by omega)
    -- the next table starts where this one's length says
    have hnext : data.drop (stringStart + (off + 2 * ((tableBytes t bias).length / 2).toUInt16.toNat)) =
        ts.flatMap (tableBytes · bias) ++ rest := by
      rw [hword, show stringStart + (off + 2 * ((tableBytes t bias).length / 2)) =
        stringStart + off + (tableBytes t bias).length by omega, ← List.drop_drop, hdata,
        List.drop_left]
    have ih := readLanguageTables_tables stringStart sc bias hbase hcap hlim ls ts _ (acc.set l t) rest
      (by simpa using hlen) hsc.2 hfits.2 hspan.2 hnext
    simp only [List.map_cons, readLanguageTables, ht, bind, Except.bind]
    simpa using ih

end Tables

/-! ## The header and the data block -/

/-- Headers outside Europe are all read alike. -/
theorem Header.read_of_ne_europe (c : Cursor) {r : Region} (hr : r ≠ .europe) :
    Header.read c r = Header.read c .northAmerica := by
  cases r <;> simp_all [Header.read]

namespace Image

variable (cat : Catalog) (im : Image)

/-- The header the bytes of an image are read as. -/
def readHeader : Header :=
  ⟨im.constants.length.toUInt16, im.stringCount.toUInt16,
    ((im.dataLen cat + 2 * im.constants.length) / 2).toUInt16, (im.constLen / 2).toUInt16,
    (im.tables.map fun t => (tableBytes t im.stringBias).length / 2).map Nat.toUInt16, im.unk1⟩

/-- The group table as read: each group's start in words, its kind and its spare word. -/
def entries : List GroupEntry :=
  (im.groups.zip (groupStarts cat im.codeStart im.groups)).map
    fun p => ⟨(p.2 / 2).toUInt16, p.1.kind, p.1.unk2⟩

end Image

/-- An image's header reads back as its counts and lengths, and the reader stops right after it. -/
theorem read_header (cat : Catalog) (im : Image) (hfit : im.Fits cat)
    (htables : im.tables.length = im.region.languages.length) (rest : List UInt8) :
    ∃ c, Header.read (Cursor.start (im.header cat ++ rest)) im.region = .ok (im.readHeader cat, c) ∧
      c.data = im.header cat ++ rest ∧ c.pos = im.headerSize ∧ c.rest = rest := by
  obtain ⟨c0, hc0⟩ : ∃ c0, Cursor.start (im.header cat ++ rest) = c0 := ⟨_, rfl⟩
  have h0 : c0.rest = im.header cat ++ rest := by rw [← hc0]; rfl
  have hp0 : c0.pos = 0 := by rw [← hc0]; rfl
  have hd0 : c0.data = im.header cat ++ rest := by rw [← hc0]; rfl
  simp only [Image.header, wordBytes_append, wordBytes_cons, wordBytes_nil, List.nil_append,
    List.append_assoc] at h0
  rw [hc0]
  have hscript := hfit.spans.scriptLen
  have hconst := hfit.spans.constLen
  obtain ⟨c1, h1, d1, p1, r1⟩ := Cursor.u16_of_rest h0 hfit.constCount
  obtain ⟨c2, h2, d2, p2, r2⟩ := Cursor.u16_of_rest r1 hfit.stringCount
  obtain ⟨c3, h3, d3, p3, r3⟩ := Cursor.u16_of_rest r2 (by omega : _ < 65536)
  obtain ⟨c4, h4, d4, p4, r4⟩ := Cursor.u16_of_rest r3 (by omega : _ < 65536)
  have hlens : ∀ n ∈ im.tables.map (fun t => (tableBytes t im.stringBias).length / 2), n < 65536 := by
    simp only [List.mem_map]
    rintro n ⟨t, ht, rfl⟩
    have := hfit.spans.tableLen t ht
    omega
  by_cases hr : im.region = .europe
  · -- five table lengths and no spare word
    have hlen5 : (im.tables.map fun t => (tableBytes t im.stringBias).length / 2).length = 5 := by
      simp [htables, hr, Region.languages]
    simp only [hr, if_true, wordBytes_nil, List.nil_append] at r4
    obtain ⟨c5, h5, d5, p5, r5⟩ := Cursor.times_u16_of_rest r4 hlens
    refine ⟨c5, ?_, by rw [d5, d4, d3, d2, d1, hd0], ?_, r5⟩
    · rw [hlen5] at h5
      simp [Header.read, hr, h1, h2, h3, h4, h5, bind, Except.bind, pure, Except.pure,
        Image.readHeader, hfit.unk1 hr]
    · rw [hlen5] at p5
      simp only [Image.headerSize, hr, if_true, Region.languages, List.length_cons,
        List.length_nil]
      omega
  · -- one table length and the spare word
    obtain ⟨t, ht⟩ : ∃ t, im.tables = [t] := by
      have : im.tables.length = 1 := by
        rw [htables]
        cases h : im.region <;> simp_all [Region.languages]
      exact List.length_eq_one_iff.1 this
    simp only [hr, if_false, ht, List.map_cons, List.map_nil, wordBytes_cons, wordBytes_nil,
      List.append_nil] at r4
    obtain ⟨c5, h5, d5, p5, r5⟩ := Cursor.u16_of_rest r4 (hlens _ (by simp [ht]))
    obtain ⟨c6, h6, d6, p6, r6⟩ := Cursor.u16_of_rest r5 (UInt16.toNat_lt _)
    refine ⟨c6, ?_, by rw [d6, d5, d4, d3, d2, d1, hd0], ?_, r6⟩
    · rw [Header.read_of_ne_europe _ hr]
      simp [Header.read, h1, h2, h3, h4, h5, h6, bind, Except.bind, pure, Except.pure,
        Image.readHeader, ht]
    · have : im.region.languages.length = 1 := by
        cases h : im.region <;> simp_all [Region.languages]
      simp only [Image.headerSize, hr, if_false, this]
      omega

/-- The group table reads back as one entry per group: its start in words and its two words. -/
theorem times_groupEntries :
    ∀ (ps : List (GroupCode × Nat)) (c : Cursor) (r : List UInt8),
      c.rest = wordBytes (ps.flatMap fun p => [p.2 / 2, p.1.kind.toNat, p.1.unk2.toNat]) ++ r →
      (∀ p ∈ ps, p.2 / 2 < 65536) →
      ∃ d, c.times GroupEntry.read ps.length =
          .ok (ps.map fun p => ⟨(p.2 / 2).toUInt16, p.1.kind, p.1.unk2⟩, d) ∧
        d.data = c.data ∧ d.rest = r
  | [], c, r, h, _ => ⟨c, rfl, rfl, by simpa using h⟩
  | (g, st) :: ps, c, r, h, hlt => by
    simp only [List.flatMap_cons, wordBytes_append, wordBytes_cons, wordBytes_nil,
      List.append_nil, List.append_assoc] at h
    obtain ⟨c1, h1, d1, -, r1⟩ := Cursor.u16_of_rest h (hlt _ (List.mem_cons_self ..))
    obtain ⟨c2, h2, d2, -, r2⟩ := Cursor.u16_of_rest r1 (UInt16.toNat_lt g.kind)
    obtain ⟨c3, h3, d3, -, r3⟩ := Cursor.u16_of_rest r2 (UInt16.toNat_lt g.unk2)
    obtain ⟨e, he, edata, erest⟩ :=
      times_groupEntries ps c3 r r3 (fun p hp => hlt p (List.mem_cons_of_mem _ hp))
    refine ⟨e, ?_, by rw [edata, d3, d2, d1], erest⟩
    simp [Cursor.times, GroupEntry.read, h1, h2, h3, he, bind, Except.bind, pure, Except.pure]

theorem le_of_mem_groupStarts (cat : Catalog) :
    ∀ (n : Nat) (gs : List GroupCode) (st : Nat), st ∈ groupStarts cat n gs →
      st ≤ n + cat.itemsSize (gs.flatMap (·.items))
  | _, [], _, h => by simp [groupStarts] at h
  | n, g :: gs, st, h => by
    simp only [groupStarts, List.mem_cons] at h
    rcases h with rfl | h
    · omega
    · have := le_of_mem_groupStarts cat (n + cat.itemsSize g.items) gs st h
      simp only [List.flatMap_cons, itemsSize_append]
      omega

theorem Image.length_dataBlock (cat : Catalog) (im : Image) :
    (im.dataBlock cat).length = im.dataLen cat := by
  simp [Image.dataBlock, Image.groupTable, Image.dataLen, Image.codeStart, Image.items,
    length_groupStarts]
  omega

/-- The head of an image's data block and its group table read back as the data block's length,
the group count and the image's entries. -/
theorem read_dataHead (cat : Catalog) (im : Image) (hfit : im.Fits cat) (c : Cursor)
    (r : List UInt8) (hc : c.rest = im.dataBlock cat ++ r) :
    ∃ d e, DataHeader.read c = .ok (⟨(im.dataLen cat / 2).toUInt16, im.groups.length.toUInt16⟩, d) ∧
      d.times GroupEntry.read im.groups.length = .ok (im.entries cat, e) ∧ e.data = c.data := by
  have hdl : im.dataLen cat / 2 < 65536 := by
    have := hfit.spans.scriptLen
    omega
  simp only [Image.dataBlock, Image.groupTable, wordBytes_cons, wordBytes_nil, List.append_nil,
    List.append_assoc] at hc
  obtain ⟨c1, h1, d1, -, r1⟩ := Cursor.u16_of_rest hc hdl
  obtain ⟨c2, h2, d2, -, r2⟩ := Cursor.u16_of_rest r1 hfit.groupCount
  have hstarts : ∀ p ∈ im.groups.zip (groupStarts cat im.codeStart im.groups), p.2 / 2 < 65536 := by
    intro p hp
    have := le_of_mem_groupStarts cat _ _ _ (List.of_mem_zip hp).2
    have := hfit.spans.scriptLen
    simp only [Image.dataLen, Image.items] at *
    omega
  obtain ⟨e, he, ed, -⟩ := times_groupEntries _ c2 _ r2 hstarts
  have hlen : (im.groups.zip (groupStarts cat im.codeStart im.groups)).length = im.groups.length := by
    simp [length_groupStarts]
  rw [hlen] at he
  exact ⟨c2, e, by simp [DataHeader.read, h1, h2, bind, Except.bind, pure, Except.pure], he,
    by rw [ed, d2, d1]⟩

theorem Image.length_header_eq (cat : Catalog) (im : Image)
    (htables : im.tables.length = im.region.languages.length) :
    (im.header cat).length = im.headerSize := by
  cases hr : im.region <;> simp [Image.header, Image.headerSize, htables, hr, Region.languages]

theorem Region.length_languages_le (r : Region) : r.languages.length ≤ 5 := by
  cases r <;> decide

theorem Image.headerSize_le (im : Image) : im.headerSize ≤ 20 := by
  have := Region.length_languages_le im.region
  unfold Image.headerSize
  split <;> omega

theorem length_flatMap_tableBytes_le {bias : Nat} {ts : List (List (List UInt8))}
    (h : ∀ t ∈ ts, (tableBytes t bias).length / 2 ≤ 0xFFFF) :
    (ts.flatMap (tableBytes · bias)).length ≤ 131071 * ts.length := by
  induction ts with
  | nil => simp
  | cons t ts ih =>
    simp only [List.mem_cons, forall_eq_or_imp] at h
    have := ih h.2
    simp only [List.flatMap_cons, List.length_append, List.length_cons]
    omega

/-- The bytes of a fitting image are far fewer than `2 ^ 64`: each of their spans fits a word,
and there are at most five string tables. -/
theorem Image.length_bytes_le (cat : Catalog) (im : Image) (hfit : im.Fits cat)
    (htables : im.tables.length = im.region.languages.length) :
    (im.bytes cat).length ≤ usizeLimit := by
  have hhdr := im.headerSize_le
  have hdl := hfit.spans.scriptLen
  have hcl := hfit.spans.constLen
  have hts := length_flatMap_tableBytes_le hfit.spans.tableLen
  have hlang := Region.length_languages_le im.region
  rw [Image.bytes, List.length_append, List.length_append, List.length_append,
    Image.length_header_eq cat im htables, Image.length_dataBlock, length_tableBytes]
  simp only [Image.constLen] at hcl
  unfold usizeLimit
  omega

/-- The constants of an image's bytes read back from right past its data block. -/
theorem Image.readTable_constants (cat : Catalog) (im : Image) (hfit : im.Fits cat)
    (htables : im.tables.length = im.region.languages.length) :
    readTable (im.bytes cat) (im.headerSize + im.dataLen cat) (im.headerSize + im.dataLen cat)
      (im.readHeader cat).constCount.toNat (2 * (im.readHeader cat).stringCount.toNat) = .ok im.constants := by
  simp only [Image.readHeader, toNat_toUInt16_of_lt hfit.constCount, toNat_toUInt16_of_lt hfit.stringCount]
  refine readTable_tableBytes _ _ _ _ _ rfl _ (im.tables.flatMap (tableBytes · im.stringBias)) ?_
    hfit.constTable (by have := hfit.constCount; omega) fun p hp => ?_
  · rw [Image.bytes, List.append_assoc,
      List.drop_left' (by simp [Image.length_header_eq cat im htables, Image.length_dataBlock])]
  · -- the constants' base lies within the header and the data block, each pointer within a word
    have hp := hfit.constTable.pointers_lt p hp
    have hhdr := im.headerSize_le
    have hdl := hfit.spans.scriptLen
    unfold usizeLimit
    omega

/-- The string tables of an image's bytes read back, each set for its language, from where the
header's lengths say they start and with either rule for the base of their pointers. -/
theorem Image.readLanguageTables_strings (cat : Catalog) (im : Image) (hfit : im.Fits cat)
    (htables : im.tables.length = im.region.languages.length)
    (hsame : ∀ t ∈ im.tables, t.length = im.stringCount) :
    readLanguageTables (im.bytes cat) ((im.readHeader cat).stringStart im.headerSize)
      (if 0 < (im.readHeader cat).constCount.toNat then im.headerSize + im.dataLen cat
        else (im.readHeader cat).stringStart im.headerSize)
      (im.readHeader cat).stringCount.toNat im.region.languages
      (im.readHeader cat).stringLens 0 PerLanguage.empty =
        .ok (PerLanguage.ofList (im.region.languages.zip im.tables)) := by
  have hcc := toNat_toUInt16_of_lt hfit.constCount
  have hsc := toNat_toUInt16_of_lt hfit.stringCount
  have hdl := hfit.spans.scriptLen
  have hcl := hfit.spans.constLen
  have heven := im.dataLen_even cat
  have hceven := length_tableBody_even im.constants
  have hSS : (im.readHeader cat).stringStart im.headerSize =
      im.headerSize + im.dataLen cat + 2 * im.constants.length + im.constLen := by
    simp only [Header.stringStart, Image.readHeader, Image.constLen] at hcl ⊢
    rw [toNat_toUInt16_of_lt (by omega), toNat_toUInt16_of_lt (by omega)]
    omega
  rw [hSS]
  simp only [Image.readHeader, hcc, hsc]
  refine readLanguageTables_tables _ _ _ im.stringCount im.stringBias ?_
    (by have := hfit.stringCount; omega) (Image.length_bytes_le cat im hfit htables) _ _ 0 _ []
    htables.symm hsame hfit.stringTables hfit.spans.tableLen ?_
  · -- both string-base rules point the tables' pointers at their strings
    split
    · simp only [Image.stringBias, Image.constLen]
      omega
    · rename_i hzero
      have : im.constants = [] := List.length_eq_zero_iff.1 (by omega)
      simp [Image.stringBias, Image.constLen, this, tableBody]
  · rw [Nat.add_zero, List.append_nil, Image.bytes, List.drop_left' (by
      simp [Image.length_header_eq cat im htables, Image.length_dataBlock, length_tableBytes,
        Image.constLen]
      omega)]

/-- The bytes of a fitting image read back as its constants, its string tables set for the
region's languages and its spare word, with groups and raw targets arranged from its data block
over its group table. -/
theorem decode_bytes (game : Game) (im : Image) (hreg : im.region = game.region)
    (hfit : im.Fits game.catalog) (htables : im.tables.length = im.region.languages.length)
    (hsame : ∀ t ∈ im.tables, t.length = im.stringCount) :
    Script.decode game (im.bytes game.catalog) =
      (Code.decode game.catalog (im.dataBlock game.catalog) im.codeStart).map fun code =>
        ⟨(code.arrange game.catalog (im.entries game.catalog) im.codeStart
            (im.dataLen game.catalog)).1, im.constants,
          PerLanguage.ofList (im.region.languages.zip im.tables),
          (code.arrange game.catalog (im.entries game.catalog) im.codeStart
            (im.dataLen game.catalog)).2, im.unk1⟩ := by
  obtain ⟨c1, hh, hd1, hp1, hr1⟩ := read_header game.catalog im hfit htables
    (im.dataBlock game.catalog ++ (tableBytes im.constants (2 * im.stringCount) ++
      im.tables.flatMap (tableBytes · im.stringBias)))
  obtain ⟨c2, c3, hdh, hent, hd3⟩ := read_dataHead game.catalog im hfit c1 _ hr1
  have hdl := hfit.spans.scriptLen
  have heven := im.dataLen_even game.catalog
  have hDL : 2 * (im.dataLen game.catalog / 2).toUInt16.toNat = im.dataLen game.catalog := by
    rw [toNat_toUInt16_of_lt (by omega)]
    omega
  have hG : im.groups.length.toUInt16.toNat = im.groups.length := toNat_toUInt16_of_lt hfit.groupCount
  have hseek : c3.seek c1.pos = .ok c1 :=
    Cursor.seek_eq_ok_iff.2 ⟨by have := c1.pos_le; simp only [Cursor.size, hd3]; omega, hd3.symm, rfl⟩
  obtain ⟨c4, htake⟩ : ∃ c4, c1.take (im.dataLen game.catalog) = .ok (im.dataBlock game.catalog, c4) := by
    have hlen := congrArg List.length hr1
    simp only [Cursor.length_rest, List.length_append, Image.length_dataBlock] at hlen
    refine ⟨⟨c1.data, c1.pos + im.dataLen game.catalog, ?_⟩, Cursor.take_eq_ok_iff.2
      ⟨by omega, ?_, rfl, rfl⟩⟩
    · have := c1.pos_le
      simp only [Cursor.size] at hlen
      omega
    · rw [hr1, List.take_left' (Image.length_dataBlock _ _)]
  -- the string tables, where the header's lengths say
  have hconsts := Image.readTable_constants game.catalog im hfit htables
  have hstrings := Image.readLanguageTables_strings game.catalog im hfit htables hsame
  rw [← hp1] at hconsts hstrings
  simp only [Image.bytes, List.append_assoc] at hconsts hstrings
  have hfits : ¬ im.dataLen game.catalog < 4 + 6 * im.groups.length := by
    simp only [Image.dataLen, Image.codeStart]
    omega
  unfold Script.decode
  simp only [Image.bytes, List.append_assoc, ← hreg, hh, hdh, hDL, hG, hent, hseek, htake,
    Except.mapError, bind, Except.bind, hfits, if_false, hconsts, hstrings, Image.codeStart]
  cases Code.decode game.catalog (im.dataBlock game.catalog) (4 + 6 * im.groups.length) <;> rfl

end Script

end DungeonFormats
