import Mathlib
import DungeonFormats.Proofs.Tileset
import DungeonFormats.Proofs.Labels
import DungeonFormats.Sound.Song

/-!
# Runs that never stop outright

The readers and writers take their slices, subtractions, `usize` additions, vector capacities and
label placements with the checked operations of `Panic`, so a run that would go past the end of a
list, below zero or past `2 ^ 64`, ask for more than an allocation may hold or place a label twice
ends in `panic`. The script, tileset and song readers and writers never do, whatever their input,
because each checked operation is guarded by what runs before it:

* a tileset's layers are cut only once its offsets have passed their check;
* a string pointer read at `pos` leaves the cursor two bytes on, so `pos - 2` is the place the
  pointer was read at;
* the string table writer places its one fresh anchor, and the script writer gives every anchor
  its own constructor or number, so no anchor is placed twice;
* the song writer cuts its padding out of sixteen bytes only after refusing more than sixteen;
* the grouping walk only ever stands at a group that exists, so reading a group's end and adding
  to a group never miss;
* a script's string tables count at most `0xFFFF` strings from bases within its first spans, and
  the writer's biases are twice a word or a length it has already written, so no sum reaches
  `2 ^ 64`.

A string table on its own is read and written with a count, a base and a bias given from outside,
and it stops outright past the limits of `usize`: a count too large for a vector, or a base or a
bias whose sum with a pointer or a position reaches `2 ^ 64`.

The other readers need no check: a cursor carries `pos ≤ data.length` in its type, and the chunk
scan reads `data[pos]` only under `pos < data.length`. Each reader gets a lemma `_ne_panic`,
built from the combinators of the first section. Each writer of scripts gets a lemma `_ne_fault`
for the wider class of faults, the errors no check names: its failures are refusals, and the one
fault of writing a script is a span too long for its word (`encode_fault_tooWide`).
`runs_never_panic` gathers them.
-/
namespace DungeonFormats

/-! ## Computations that never fail with a given error -/

section NoError

variable {ε ε' α β : Type}

theorem Except.bind_ne_error {x : Except ε α} {f : α → Except ε β} {e : ε}
    (hx : x ≠ .error e) (hf : ∀ a, x = .ok a → f a ≠ .error e) : x >>= f ≠ .error e := by
  cases x with
  | error e' => simpa [bind, Except.bind] using hx
  | ok a => exact hf a rfl

theorem Except.map_ne_error {x : Except ε α} {f : α → β} {e : ε} (h : x ≠ .error e) :
    f <$> x ≠ .error e := by
  cases x <;> simp_all [Functor.map, Except.map]

theorem Except.mapM_ne_error {f : α → Except ε β} {e : ε} :
    ∀ {xs : List α}, (∀ x ∈ xs, f x ≠ .error e) → xs.mapM f ≠ .error e
  | [], _ => by simp [pure, Except.pure]
  | x :: xs, h => by
    rw [List.mapM_cons]
    refine Except.bind_ne_error (h x List.mem_cons_self) fun _ _ => ?_
    refine Except.bind_ne_error (Except.mapM_ne_error fun y hy => h y (List.mem_cons_of_mem _ hy))
      fun _ _ => ?_
    simp [pure, Except.pure]

/-- A first step that does not fail with `e` succeeds, and the rest fails with `e`. -/
theorem Except.ok_of_bind_eq_error {x : Except ε α} {f : α → Except ε β} {e : ε}
    (h : x >>= f = .error e) (hx : x ≠ .error e) : ∃ a, x = .ok a ∧ f a = .error e := by
  rcases Except.bind_eq_error_iff.1 h with h | h
  · exact absurd h hx
  · exact h

end NoError

/-! ## Tilesets -/

namespace Tileset

/-- Writing a tileset never stops outright: its two anchors are distinct. -/
theorem encode_ne_panic (t : Tileset) (p : Panic) : t.encode ≠ .error (.panic p) := by
  rw [encode_spec]
  split <;> simp

end Tileset

/-! ## Song chunks -/

namespace Script

/-! ## Reading scripts -/

section Reading

variable (p : Panic)

end Reading

/-! ## Writing scripts -/

section Writing

/-- The errors that no check of the writer names: a stop outright, and a field of the finished
bytes that the builder cannot fill. Every other error refuses the script for a reason of its
own, and for such an error `IsFault` is `False` by definition, so `id` proves it no fault. -/
def EncodeError.IsFault : EncodeError → Prop
  | .build _ => True
  | .panic _ => True
  | _ => False

variable {e : EncodeError}

/-- A refusal is no fault. -/
theorem error_ne_fault {α : Type} (he : e.IsFault) {e' : EncodeError} (he' : ¬ e'.IsFault) :
    (Except.error e' : Except EncodeError α) ≠ .error e := by
  rintro ⟨⟩
  exact he' he

theorem toWord_ne_fault (he : e.IsFault) (n : Nat) : toWord n ≠ .error e := by
  unfold toWord
  split
  · simp
  · exact error_ne_fault he id

theorem writeHeader_ne_fault (he : e.IsFault) (b : Builder Anchor) (r : Region) (cc sc : Nat)
    (unk1 : UInt16) : writeHeader b r cc sc unk1 ≠ .error e := by
  unfold writeHeader
  by_cases hu : r = .europe ∧ unk1 ≠ 0
  · simp only [hu, ne_eq, not_false_eq_true, and_self, ite_true]
    exact error_ne_fault he id
  · simp only [hu, ite_false]
    refine Except.bind_ne_error (toWord_ne_fault he cc) fun _ _ => ?_
    refine Except.bind_ne_error (toWord_ne_fault he sc) fun _ _ => ?_
    simp [pure, Except.pure]

theorem placeLabels_ne_fault (he : e.IsFault) (cat : Catalog) (raw : List (LabelId × UInt16)) :
    ∀ (is : List Instruction) (o : Nat) (acc : List (LabelId × Nat)),
      placeLabels cat raw is o acc ≠ .error e
  | [], _, _ => by simp [placeLabels]
  | i :: is, o, acc => by
    cases hi : i.label? with
    | none =>
      rw [placeLabels_cons_of_label?_eq_none cat hi]
      exact placeLabels_ne_fault he cat raw is _ _
    | some l =>
      -- a label is refused when placed before or raw, and else noted
      rw [Instruction.label?_eq_some_iff.1 hi, placeLabels_cons_label]
      split
      · exact error_ne_fault he id
      split
      · exact error_ne_fault he id
      exact placeLabels_ne_fault he cat raw is _ _

theorem regionTables_ne_fault (he : e.IsFault) (s : Script) (r : Region) :
    regionTables s r ≠ .error e := by
  unfold regionTables
  split
  · exact error_ne_fault he id
  refine Except.mapM_ne_error fun l _ => ?_
  split
  · simp [pure, Except.pure]
  · exact error_ne_fault he id

section Resolve

variable (cat : Catalog) (targets : List (LabelId × Nat)) (raw : List (LabelId × UInt16))

theorem resolveParams_ne_fault (he : e.IsFault) (info : OpcodeInfo) :
    ∀ (i : Nat) (ps : List UInt16), resolveParams targets raw info i ps ≠ .error e
  | _, [] => by simp [resolveParams]
  | i, q :: ps => by
    rw [resolveParams]
    refine Except.bind_ne_error ?_ fun _ _ =>
      Except.bind_ne_error (resolveParams_ne_fault he info (i + 1) ps) fun _ _ => by
        simp [pure, Except.pure]
    -- a jump is refused out of range or undefined, any other word passes
    unfold resolveParam
    split
    · split
      · split
        · simp
        · exact error_ne_fault he id
      · split
        · simp
        · exact error_ne_fault he id
    · simp

theorem checkArity_ne_fault (he : e.IsFault) (info : OpcodeInfo) (c : Command) :
    checkArity info c ≠ .error e := by
  unfold checkArity
  split
  · split
    · simp
    · exact error_ne_fault he id
  · split
    · simp
    · exact error_ne_fault he id

theorem resolveGroup_ne_fault (he : e.IsFault) (g : Group) :
    resolveGroup cat targets raw g ≠ .error e := by
  unfold resolveGroup
  refine Except.bind_ne_error (Except.mapM_ne_error fun i _ => ?_) fun _ _ => by
    simp [pure, Except.pure]
  unfold resolveInstruction
  split
  · simp
  · simp
  · refine Except.map_ne_error (Except.mapM_ne_error fun c _ => ?_)
    unfold resolveCommand
    split
    · exact error_ne_fault he id
    · refine Except.bind_ne_error (checkArity_ne_fault he _ c) fun _ _ =>
        Except.bind_ne_error (resolveParams_ne_fault targets raw he _ 0 _) fun _ _ => by
          simp [pure, Except.pure]

end Resolve

/-- The pointer writer faults at most by an overflow of a sum `bias + pos`, and only at a
position a buffer can reach; when each such sum stays below `2 ^ 64`, it only refuses. -/
theorem writePointers_ne_fault {α : Type} (he : e.IsFault) (bias tablePos : Nat) :
    ∀ (b : Builder α) (pos : Nat) (ss : List (List UInt8)), tablePos ≤ pos →
      (∀ q ∈ pointerValues bias pos ss, q ≤ bias + isizeMax → q < usizeLimit) →
      writePointers bias tablePos b pos ss ≠ .error e
  | _, _, [], _, _ => by simp [writePointers]
  | b, pos, s :: ss, hpos, hsum => by
    simp only [pointerValues, List.mem_cons, forall_eq_or_imp] at hsum
    rw [writePointers, uaddAt_eq_ok fun h => hsum.1 (by omega), Except.mapError_ok_bind,
      usub_eq_ok (by omega), Except.mapError_ok_bind]
    exact Except.bind_ne_error (toWord_ne_fault he _) fun _ _ =>
      writePointers_ne_fault he bias tablePos _ _ ss (by omega) hsum.2

/-- The sums of a bias with positions from the table's on stay below `2 ^ 64` wherever a buffer
reaches, when the bias is at most the table's position or at most `2 ^ 63`. -/
theorem sums_fit_of_le {bias tablePos pos : Nat} {ss : List (List UInt8)} (hpos : tablePos ≤ pos)
    (h : bias ≤ tablePos ∨ bias ≤ 9223372036854775808) :
    ∀ q ∈ pointerValues bias pos ss, q ≤ bias + isizeMax → q < usizeLimit := by
  intro q hq hle
  have := le_of_mem_pointerValues hq
  unfold isizeMax at hle
  unfold usizeLimit
  omega

theorem writeStrings_ne_fault {α : Type} (he : e.IsFault) :
    ∀ (b : Builder α) (ss : List (List UInt8)), writeStrings b ss ≠ .error e
  | _, [] => by simp [writeStrings]
  | b, s :: ss => by
    rw [writeStrings]
    split
    · exact writeStrings_ne_fault he _ ss
    · exact error_ne_fault he id

/-- Writing a string table never faults when its anchor is fresh and its sums `bias + pos` fit a
`usize`: the anchor is placed once, and the strings only lengthen the builder past where their
length is measured from. -/
theorem writeTable_ne_fault {α : Type} [DecidableEq α] (he : e.IsFault) (b : Builder α)
    (ss : List (List UInt8)) (bias : Nat) {data : α} (hfresh : b.find? data = none)
    (hsum : ∀ q ∈ pointerValues bias (b.size + 2 * ss.length) ss, q ≤ bias + isizeMax →
      q < usizeLimit) :
    writeTable b ss bias data ≠ .error e := by
  unfold writeTable
  dsimp only
  refine Except.bind_ne_error (writePointers_ne_fault he bias b.size b _ ss (by omega) hsum)
    fun b1 h1 => ?_
  obtain ⟨-, rfl⟩ := (writePointers_eq_ok_iff bias b.size b b1 _ ss).1 h1
  rw [Builder.placeOnce_eq_ok (by rw [Builder.find?_append]; exact hfresh), Except.mapError_ok_bind]
  refine Except.bind_ne_error (writeStrings_ne_fault he _ ss) fun b2 h2 => ?_
  obtain ⟨-, rfl⟩ := (writeStrings_eq_ok_iff _ b2 ss).1 h2
  rw [usub_eq_ok (by
      simp only [Builder.padTo, Builder.size_append, Builder.size_place, length_wordBytes,
        length_pointerValues]
      omega), Except.mapError_ok_bind]
  simp [pure, Except.pure]

/-- Writing a string table at a fresh anchor never stops outright when the bias plus the position
of each string is a `usize`. -/
theorem writeTable_ne_panic {α : Type} [DecidableEq α] (p : Panic) (b : Builder α)
    (ss : List (List UInt8)) (bias : Nat) {data : α} (hfresh : b.find? data = none)
    (hsum : ∀ q ∈ pointerValues bias (b.size + 2 * ss.length) ss, q < usizeLimit) :
    writeTable b ss bias data ≠ .error (.panic p) :=
  writeTable_ne_fault (e := .panic p) trivial b ss bias hfresh fun q hq _ => hsum q hq

/-- A string table's pointers and body lie in the builder it is written to. -/
theorem le_size_putAll_tablePieces {α : Type} (b : Builder α) (ss : List (List UInt8)) (bias : Nat)
    (data : α) : 2 * ss.length + (tableBody ss).length ≤ (b.putAll (tablePieces ss bias data)).size := by
  rw [Builder.size_putAll, flatMap_raw_tablePieces, length_tableBytes]
  omega

/-- The languages' tables are written without a fault when their bias is at most where the
first starts: each sum of the bias with a position of a buffer then stays below `2 ^ 64`. -/
theorem writeLanguageTables_ne_fault (he : e.IsFault) (bias : Nat) :
    ∀ (b : Builder Anchor) (n : Nat) (ts : List (List (List UInt8))), b.size % 2 = 0 →
      bias ≤ b.size → LanguagesFree b n → writeLanguageTables bias b n ts ≠ .error e
  | _, _, [], _, _, _ => by simp [writeLanguageTables]
  | b, n, t :: ts, heven, hbias, hfree => by
    obtain ⟨hs, hd, -⟩ := hfree n le_rfl
    rw [writeLanguageTables, Builder.placeOnce_eq_ok hs, Except.mapError_ok_bind]
    have hd0 : (b.place (.stringStart n)).find? (.stringData n) = none := by
      rw [Builder.find?_place_of_ne _ _ (by simp)]
      exact hd
    have hsum : ∀ q ∈ pointerValues bias ((b.place (.stringStart n)).size + 2 * t.length) t,
        q ≤ bias + isizeMax → q < usizeLimit :=
      sums_fit_of_le (Nat.le_add_right _ _) (.inl (by rw [Builder.size_place]; exact hbias))
    refine Except.bind_ne_error (writeTable_ne_fault he _ t bias hd0 hsum) fun r hr => ?_
    obtain ⟨b1, len⟩ := r
    obtain ⟨-, rfl, -⟩ :=
      (writeTable_eq_ok_iff (Builder.place _ (.stringStart n)) heven t bias _ hd0 b1 len).1 hr
    obtain ⟨he1, hfree'⟩ := languagesFree_step hfree t bias
    dsimp only
    rw [Builder.placeOnce_eq_ok he1, Except.mapError_ok_bind]
    have hgrow : bias ≤ (((b.place (.stringStart n)).putAll (tablePieces t bias (.stringData n))).place
        (.stringEnd n)).size := by
      simp only [Builder.size_place, Builder.size_putAll]
      omega
    exact writeLanguageTables_ne_fault he bias _ (n + 1) ts (size_language_even heven n t bias)
      hgrow hfree'

/-- The only fault of writing a script is a span of more than `0xFFFF` words: every check before
finishing refuses the script for a reason of its own, every anchor is still free when it is
placed, every length is measured forward, and every field of the finished bytes names placed
anchors an even distance apart. -/
theorem encode_fault_tooWide {game : Game} {s : Script} (h : Script.encode game s = .error e)
    (he : e.IsFault) : ∃ p w, 0xFFFF < w ∧ e = .build (.tooWide p w 16) := by
  unfold Script.encode at h
  obtain ⟨tables, hr, h⟩ := Except.ok_of_bind_eq_error h (regionTables_ne_fault he s _)
  obtain ⟨hlen, t, ts, rfl⟩ := exists_cons_of_regionTables hr
  dsimp only at h
  split at h
  · exact absurd h (error_ne_fault he id)
  obtain ⟨targets, -, h⟩ := Except.ok_of_bind_eq_error h (placeLabels_ne_fault he _ _ _ _ _)
  obtain ⟨b1, hhdr, h⟩ := Except.ok_of_bind_eq_error h (writeHeader_ne_fault he _ _ _ _ _)
  obtain ⟨-, -, hsc, rfl⟩ := (writeHeader_eq_ok_iff _ _ _ _ _ _).1 hhdr
  rw [Builder.placeOnce_eq_ok (by rw [find?_putAll_headerPieces]; rfl), Except.mapError_ok_bind]
    at h
  obtain ⟨gc, hgc, h⟩ := Except.ok_of_bind_eq_error h (toWord_ne_fault he _)
  obtain ⟨hG, rfl⟩ := toWord_eq_ok_iff.1 hgc
  rw [writeGroups_eq _ _ _ _ _ _ (fun k _ => find?_beforeCode _ _ _ _ _ _ (by simp))] at h
  obtain ⟨b2, hgr, h⟩ := Except.ok_of_bind_eq_error h
    (Except.map_ne_error (Except.mapM_ne_error fun g _ => resolveGroup_ne_fault _ _ _ he g))
  obtain ⟨codes, hcodes, rfl⟩ := Except.map_eq_ok_iff.1 hgr
  rw [Builder.placeOnce_eq_ok (find?_afterCode _ _ _ _ _ _ _ _ (by simp) (by simp)),
    Except.mapError_ok_bind] at h
  have hcd := find?_constData_afterCode game.catalog game.region s.constants.length t.length s.unk1
    s.groups.length.toUInt16 s.groups codes
  -- the constants' bias is twice a word
  obtain ⟨⟨b3, cl⟩, htbl, h⟩ := Except.ok_of_bind_eq_error h
    (writeTable_ne_fault he _ _ _ hcd (sums_fit_of_le le_rfl (.inr (by omega))))
  have heven2 := size_after_code_even game.catalog game.region s.constants.length t.length s.unk1
    s.groups.length.toUInt16 s.groups codes
  obtain ⟨-, rfl, rfl⟩ :=
    (writeTable_eq_ok_iff (Builder.place _ Anchor.codeEnd) heven2 _ _ _ hcd _ _).1 htbl
  dsimp only at h
  rw [Builder.placeOnce_eq_ok (by
    rw [find?_putAll_tablePieces _ _ _ (by simp), Builder.find?_place_of_ne _ _ (by simp)]
    exact find?_afterCode _ _ _ _ _ _ _ _ (by simp) (by simp)), Except.mapError_ok_bind] at h
  have heven3 := size_putAll_tablePieces_even (Builder.place _ Anchor.codeEnd) heven2 s.constants
    (2 * t.length) Anchor.constData
  have hfree := languagesFree_afterConstants game.catalog game.region s.constants.length t.length
    s.unk1 s.groups.length.toUInt16 s.groups codes s.constants (2 * t.length)
  -- the strings' bias is the length of the constants' table, which lies before them
  obtain ⟨b4, hlang, h⟩ := Except.ok_of_bind_eq_error h
    (writeLanguageTables_ne_fault he _ _ _ _ (by exact heven3)
      (by rw [Builder.size_place]; exact le_size_putAll_tablePieces _ _ _ _) hfree)
  obtain ⟨-, rfl⟩ := (writeLanguageTables_eq_ok_iff _ _ _ _ _ (by exact heven3) hfree).1 hlang
  -- what is left is finishing the pieces of the image
  rw [putAll_writer_eq _ _ _ _ _ _ _ _ (headers_of_resolveGroups hcodes) hG, finish_putAll] at h
  split at h
  · cases h
  · rename_i f hfill
    cases h
    obtain ⟨p, w, hw, rfl⟩ := fill_encodePieces_eq_error _ _ (by simpa using hlen) hfill
    exact ⟨p, w, hw, rfl⟩

/-- Writing a script never stops outright. -/
theorem encode_ne_panic (p : Panic) (game : Game) (s : Script) :
    Script.encode game s ≠ .error (.panic p) := by
  intro h
  obtain ⟨_, _, _, hbuild⟩ := encode_fault_tooWide h trivial
  cases hbuild

end Writing

/-! ## Grouping -/

end Script

end DungeonFormats
