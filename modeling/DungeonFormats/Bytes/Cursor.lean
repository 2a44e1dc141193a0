import DungeonFormats.Text.Hex
import DungeonFormats.Bytes.Word

/-!
# Reading bytes at a position

A `Cursor` is a byte string and a position in it, never past its end. Every read either
succeeds, returning the bytes or value read and the cursor after them, or fails with a
`ReadFault` and no new cursor, so a failed read leaves the position where it was. A read of
`n` bytes fails exactly when fewer than `n` remain; a terminated string is the bytes before
the first NUL, and the NUL is consumed with them; a seek fails exactly when it goes past the
end.

`ReadStep` lists the reads a client can ask for one at a time, and `Cursor.runSteps` answers
a list of them in order, reporting each outcome with the position after it.
-/

namespace DungeonFormats

/-- Why a read failed. -/
inductive ReadFault where
  /-- A seek to `pos` in a byte string of `size` bytes. -/
  | seek (pos size : Nat)
  /-- A read of `len` bytes at `pos` in a byte string of `size` bytes. -/
  | short (pos len size : Nat)
  /-- A terminated string at `pos` with no NUL after it. -/
  | unterminated (pos : Nat)
  deriving DecidableEq, Repr

/-- The text of a read fault. -/
def ReadFault.message : ReadFault → String
  | .seek pos size =>
    "out-of-bounds seek to " ++ Hex.text pos ++ " (size " ++ Hex.text size ++ ")"
  | .short pos len size =>
    "out-of-bounds read of " ++ Hex.text pos ++ "+" ++ toString len ++
      " (size " ++ Hex.text size ++ ")"
  | .unterminated pos => "unterminated string at " ++ Hex.text pos

/-- The bytes before the first NUL of a list: none of them is a NUL, the list goes on with a
NUL if they are not all of it, and they are its first bytes. -/
theorem takeWhile_ne_zero (l : List UInt8) :
    (∀ i, i < (l.takeWhile (· != 0)).length → l[i]? ≠ some 0) ∧
    ((l.takeWhile (· != 0)).length < l.length → l[(l.takeWhile (· != 0)).length]? = some 0) ∧
    l.takeWhile (· != 0) = l.take (l.takeWhile (· != 0)).length := by
  induction l with
  | nil => simp
  | cons b l ih =>
    by_cases hb : b = 0
    · subst hb
      simp
    · have e : (b :: l).takeWhile (· != 0) = b :: l.takeWhile (· != 0) :=
        List.takeWhile_cons_of_pos (by simp [hb])
      rw [e]
      obtain ⟨h1, h2, h3⟩ := ih
      refine ⟨?_, ?_, ?_⟩
      · intro i hi
        cases i with
        | zero => simp [hb]
        | succ i =>
          simp only [List.length_cons] at hi
          simpa using h1 i (by omega)
      · intro h
        simp only [List.length_cons] at h
        simpa using h2 (by omega)
      · simp only [List.length_cons, List.take_succ_cons]
        rw [← h3]

/-- A position in a byte string, at most its length. -/
structure Cursor where
  data : List UInt8
  pos : Nat
  pos_le : pos ≤ data.length

namespace Cursor

/-- A cursor at the start of `data`. -/
def start (data : List UInt8) : Cursor :=
  ⟨data, 0, Nat.zero_le _⟩

/-- The bytes from the position to the end. -/
def rest (c : Cursor) : List UInt8 :=
  c.data.drop c.pos

/-- The length of the whole byte string, not of what is left. -/
def size (c : Cursor) : Nat :=
  c.data.length

/-- Nothing is left to read. -/
def atEnd (c : Cursor) : Bool :=
  c.rest.isEmpty

/-- A cursor on the same bytes at `p`, if `p` is not past the end. -/
def seek (c : Cursor) (p : Nat) : Except ReadFault Cursor :=
  if h : p ≤ c.data.length then .ok ⟨c.data, p, h⟩
  else .error (.seek p c.data.length)

/-- The next `n` bytes, if that many are left. -/
def take (c : Cursor) (n : Nat) : Except ReadFault (List UInt8 × Cursor) :=
  if h : n ≤ c.data.length - c.pos then
    .ok (c.rest.take n, ⟨c.data, c.pos + n, by have := c.pos_le; omega⟩)
  else .error (.short c.pos n c.data.length)

/-- The bytes before the next NUL, if there is one; the NUL is consumed too. -/
def terminated (c : Cursor) : Except ReadFault (List UInt8 × Cursor) :=
  let s := c.rest.takeWhile (· != 0)
  if h : s.length < c.rest.length then
    .ok (s, ⟨c.data, c.pos + s.length + 1, by
      have : c.rest.length = c.data.length - c.pos := List.length_drop
      have := c.pos_le
      omega⟩)
  else .error (.unterminated c.pos)

/-- An unsigned word of `width` bytes in the order `o`. -/
def word (c : Cursor) (o : ByteOrder) (width : Nat) : Except ReadFault (Nat × Cursor) := do
  let (bs, c) ← c.take width
  pure (o.decode bs, c)

/-- A little-endian unsigned 16-bit word. -/
def u16 (c : Cursor) : Except ReadFault (UInt16 × Cursor) := do
  let (v, c) ← c.word .little 2
  pure (v.toUInt16, c)

/-- A little-endian unsigned 32-bit word. -/
def u32 (c : Cursor) : Except ReadFault (UInt32 × Cursor) := do
  let (v, c) ← c.word .little 4
  pure (v.toUInt32, c)

/-- A byte. -/
def u8 (c : Cursor) : Except ReadFault (UInt8 × Cursor) := do
  let (v, c) ← c.word .little 1
  pure (v.toUInt8, c)

/-- Values read one after another by `read`, `n` of them. -/
def times {β : Type} (read : Cursor → Except ReadFault (β × Cursor)) :
    Nat → Cursor → Except ReadFault (List β × Cursor)
  | 0, c => .ok ([], c)
  | n + 1, c => do
    let (x, c) ← read c
    let (xs, c) ← times read n c
    pure (x :: xs, c)

/-- Two cursors on the same bytes at the same position are the same cursor. -/
theorem ext {c d : Cursor} (hd : c.data = d.data) (hp : c.pos = d.pos) : c = d := by
  cases c; cases d; simp_all

theorem getElem?_rest (c : Cursor) (i : Nat) : c.rest[i]? = c.data[c.pos + i]? := by
  simp [rest, List.getElem?_drop]

theorem length_rest (c : Cursor) : c.rest.length = c.size - c.pos := by
  simp [rest, size]

/-- A read of `n` bytes succeeds exactly when `n` bytes are left; it returns them and moves
past them. -/
theorem take_eq_ok_iff {c : Cursor} {n : Nat} {bs : List UInt8} {d : Cursor} :
    c.take n = .ok (bs, d) ↔
      n ≤ c.size - c.pos ∧ bs = c.rest.take n ∧ d.data = c.data ∧ d.pos = c.pos + n := by
  unfold take size
  split
  · constructor
    · intro h
      simp only [Except.ok.injEq, Prod.mk.injEq] at h
      obtain ⟨rfl, rfl⟩ := h
      simp_all
    · rintro ⟨-, rfl, h1, h2⟩
      simp only [Except.ok.injEq, Prod.mk.injEq, true_and]
      exact ext h1.symm h2.symm
  · simp only [reduceCtorEq, false_iff, not_and]
    intro h
    omega

/-- A read of `n` bytes fails exactly when fewer are left, naming the position and the
length. -/
theorem take_eq_error_iff {c : Cursor} {n : Nat} {e : ReadFault} :
    c.take n = .error e ↔ c.size - c.pos < n ∧ e = .short c.pos n c.size := by
  unfold take size
  split
  · simp only [reduceCtorEq, false_iff, not_and]
    omega
  · simp only [Except.error.injEq]
    constructor
    · rintro rfl; exact ⟨by omega, rfl⟩
    · rintro ⟨-, rfl⟩; rfl

/-- A terminated string succeeds exactly when a NUL lies at or after the position; it returns
the bytes before the first such NUL and moves past the NUL. -/
theorem terminated_eq_ok_iff {c : Cursor} {bs : List UInt8} {d : Cursor} :
    c.terminated = .ok (bs, d) ↔
      ∃ z, c.pos ≤ z ∧ c.data[z]? = some 0 ∧ (∀ i, c.pos ≤ i → i < z → c.data[i]? ≠ some 0) ∧
        bs = c.rest.take (z - c.pos) ∧ d.data = c.data ∧ d.pos = z + 1 := by
  obtain ⟨h1, h2, h3⟩ := takeWhile_ne_zero c.rest
  have hr := length_rest c
  have hg := getElem?_rest c
  unfold terminated
  dsimp only
  split
  · rename_i h
    constructor
    · intro e
      simp only [Except.ok.injEq, Prod.mk.injEq] at e
      obtain ⟨rfl, rfl⟩ := e
      refine ⟨c.pos + (c.rest.takeWhile (· != 0)).length, by omega, ?_, ?_, ?_, rfl, rfl⟩
      · rw [← hg]; exact h2 h
      · intro i hi hz
        have := h1 (i - c.pos) (by omega)
        rwa [hg, show c.pos + (i - c.pos) = i by omega] at this
      · rw [show c.pos + (c.rest.takeWhile (· != 0)).length - c.pos =
          (c.rest.takeWhile (· != 0)).length by omega]
        exact h3
    · rintro ⟨z, hz, hz0, hnz, rfl, hd, hp⟩
      have hzl : z - c.pos = (c.rest.takeWhile (· != 0)).length := by
        apply Nat.le_antisymm
        · apply Nat.le_of_not_lt
          intro hlt
          have := h2 (by omega)
          rw [hg] at this
          exact hnz _ (by omega) (by omega) this
        · apply Nat.le_of_not_lt
          intro hlt
          have := h1 (z - c.pos) hlt
          rw [hg, show c.pos + (z - c.pos) = z by omega] at this
          exact this hz0
      simp only [Except.ok.injEq, Prod.mk.injEq]
      refine ⟨by rw [hzl]; exact h3, ext hd.symm (by dsimp only; omega)⟩
  · rename_i h
    simp only [reduceCtorEq, false_iff, not_exists, not_and]
    intro z hz hz0 hnz
    exfalso
    have := h1 (z - c.pos) (by
      have : z < c.data.length := (List.getElem?_eq_some_iff.mp hz0).1
      simp only [size] at hr
      omega)
    rw [hg, show c.pos + (z - c.pos) = z by omega] at this
    exact this hz0

/-- A terminated string fails exactly when no NUL lies at or after the position, naming the
position. -/
theorem terminated_eq_error_iff {c : Cursor} {e : ReadFault} :
    c.terminated = .error e ↔
      (∀ i, c.pos ≤ i → c.data[i]? ≠ some 0) ∧ e = .unterminated c.pos := by
  obtain ⟨h1, h2, -⟩ := takeWhile_ne_zero c.rest
  have hr := length_rest c
  have hg := getElem?_rest c
  unfold terminated
  dsimp only
  split
  · rename_i h
    simp only [reduceCtorEq, false_iff, not_and]
    intro hn
    have := h2 h
    rw [hg] at this
    exact absurd this (hn _ (by omega))
  · rename_i h
    simp only [Except.error.injEq]
    constructor
    · rintro rfl
      refine ⟨fun i hi => ?_, rfl⟩
      by_cases hil : i < c.data.length
      · have := h1 (i - c.pos) (by simp only [size] at hr; omega)
        rwa [hg, show c.pos + (i - c.pos) = i by omega] at this
      · simp [List.getElem?_eq_none (by omega : c.data.length ≤ i)]
    · rintro ⟨-, rfl⟩
      rfl

/-- A word of `w` bytes succeeds exactly when `w` bytes are left, and is their value. -/
theorem word_eq_ok_iff {c : Cursor} {o : ByteOrder} {w v : Nat} {d : Cursor} :
    c.word o w = .ok (v, d) ↔
      w ≤ c.size - c.pos ∧ v = o.decode (c.rest.take w) ∧ d.data = c.data ∧
        d.pos = c.pos + w := by
  unfold word
  cases h : c.take w with
  | error e =>
    rw [take_eq_error_iff] at h
    simp only [bind, Except.bind, reduceCtorEq, false_iff, not_and]
    intro hw
    omega
  | ok r =>
    obtain ⟨bs, d'⟩ := r
    rw [take_eq_ok_iff] at h
    obtain ⟨hw, rfl, hd, hp⟩ := h
    simp only [bind, Except.bind, pure, Except.pure, Except.ok.injEq, Prod.mk.injEq]
    constructor
    · rintro ⟨rfl, rfl⟩
      exact ⟨hw, rfl, hd, hp⟩
    · rintro ⟨-, rfl, hd', hp'⟩
      exact ⟨rfl, ext (hd.trans hd'.symm) (hp.trans hp'.symm)⟩

/-- A word of `w` bytes fails exactly as the read of its bytes does. -/
theorem word_eq_error_iff {c : Cursor} {o : ByteOrder} {w : Nat} {e : ReadFault} :
    c.word o w = .error e ↔ c.size - c.pos < w ∧ e = .short c.pos w c.size := by
  unfold word
  rw [← take_eq_error_iff]
  cases c.take w with
  | error e' => simp [bind, Except.bind]
  | ok r => simp [bind, Except.bind, pure, Except.pure]

/-- A seek succeeds exactly when it stays within the bytes. -/
theorem seek_eq_ok_iff {c : Cursor} {p : Nat} {d : Cursor} :
    c.seek p = .ok d ↔ p ≤ c.size ∧ d.data = c.data ∧ d.pos = p := by
  unfold seek size
  split
  · rename_i h
    simp only [Except.ok.injEq]
    constructor
    · rintro rfl; exact ⟨h, rfl, rfl⟩
    · rintro ⟨-, hd, hp⟩; exact ext hd.symm hp.symm
  · simp only [reduceCtorEq, false_iff, not_and]
    intro h
    omega

/-- A seek fails exactly when it goes past the end. -/
theorem seek_eq_error_iff {c : Cursor} {p : Nat} {e : ReadFault} :
    c.seek p = .error e ↔ c.size < p ∧ e = .seek p c.size := by
  unfold seek size
  split
  · simp only [reduceCtorEq, false_iff, not_and]
    intro h
    omega
  · simp only [Except.error.injEq]
    constructor
    · rintro rfl; exact ⟨by omega, rfl⟩
    · rintro ⟨-, rfl⟩; rfl

end Cursor

/-- A read that a client asks of a cursor. -/
inductive ReadStep where
  /-- An unsigned word of `width` bytes. -/
  | unsigned (order : ByteOrder) (width : Nat)
  /-- A two's-complement word of `width` bytes. -/
  | signed (order : ByteOrder) (width : Nat)
  /-- The next `n` bytes. -/
  | bytes (n : Nat)
  /-- The bytes up to the next NUL. -/
  | terminated
  /-- Move to a position. -/
  | seek (pos : Nat)
  /-- The bytes from a position to the end, without moving. -/
  | peek (pos : Nat)
  /-- The bytes from the position to the end, without moving. -/
  | remaining
  /-- Whether nothing is left. -/
  | atEnd
  /-- The length of the whole byte string. -/
  | size
  deriving DecidableEq, Repr

/-- What a read step returns. -/
inductive ReadValue where
  | number (v : Int)
  | bytes (bs : List UInt8)
  | flag (b : Bool)
  | nothing
  deriving DecidableEq, Repr

/-- Answers one read step: the value and the cursor after it. -/
def ReadStep.run (c : Cursor) : ReadStep → Except ReadFault (ReadValue × Cursor)
  | .unsigned o w => do
    let (v, c) ← c.word o w
    pure (.number v, c)
  | .signed o w => do
    let (v, c) ← c.word o w
    pure (.number (signedOf w v), c)
  | .bytes n => do
    let (bs, c) ← c.take n
    pure (.bytes bs, c)
  | .terminated => do
    let (bs, c) ← c.terminated
    pure (.bytes bs, c)
  | .seek p => do
    let c ← c.seek p
    pure (.nothing, c)
  | .peek p => do
    let d ← c.seek p
    pure (.bytes d.rest, c)
  | .remaining => pure (.bytes c.rest, c)
  | .atEnd => pure (.flag c.atEnd, c)
  | .size => pure (.number c.size, c)

/-- Answers read steps in order. Each answer is the step's outcome and the position after it;
a failed step leaves the cursor for the next one where it was. -/
def Cursor.runSteps (c : Cursor) : List ReadStep → List (Except ReadFault ReadValue × Nat)
  | [] => []
  | s :: ss =>
    match s.run c with
    | .ok (v, d) => (.ok v, d.pos) :: d.runSteps ss
    | .error e => (.error e, c.pos) :: c.runSteps ss

/-- A read whose value is mapped into a step's answer succeeds exactly when the read does. -/
theorem map_read_eq_ok_iff {α : Type} (x : Except ReadFault (α × Cursor)) (f : α → ReadValue)
    {v : ReadValue} {d : Cursor} :
    (x >>= fun r => pure (f r.1, r.2)) = Except.ok (v, d) ↔ ∃ a, x = .ok (a, d) ∧ v = f a := by
  cases x with
  | error e => simp [bind, Except.bind]
  | ok r =>
    obtain ⟨a, d'⟩ := r
    simp only [bind, Except.bind, pure, Except.pure, Except.ok.injEq, Prod.mk.injEq]
    constructor
    · rintro ⟨rfl, rfl⟩; exact ⟨a, ⟨rfl, rfl⟩, rfl⟩
    · rintro ⟨a', ⟨rfl, rfl⟩, rfl⟩; exact ⟨rfl, rfl⟩

/-- A read whose value is mapped into a step's answer fails exactly as the read does. -/
theorem map_read_eq_error_iff {α : Type} (x : Except ReadFault (α × Cursor)) (f : α → ReadValue)
    {e : ReadFault} :
    (x >>= fun r => pure (f r.1, r.2)) = Except.error e ↔ x = .error e := by
  cases x with
  | error e' => simp [bind, Except.bind]
  | ok r => simp [bind, Except.bind, pure, Except.pure]

namespace ReadStep

theorem run_unsigned_eq_ok_iff {c : Cursor} {o : ByteOrder} {w : Nat} {v : ReadValue}
    {d : Cursor} :
    (unsigned o w).run c = .ok (v, d) ↔
      w ≤ c.size - c.pos ∧ v = .number (o.decode (c.rest.take w)) ∧ d.data = c.data ∧
        d.pos = c.pos + w := by
  simp only [run]
  rw [map_read_eq_ok_iff _ (fun a : Nat => ReadValue.number a)]
  constructor
  · rintro ⟨a, h, rfl⟩
    obtain ⟨hw, rfl, hd, hp⟩ := Cursor.word_eq_ok_iff.mp h
    exact ⟨hw, rfl, hd, hp⟩
  · rintro ⟨hw, rfl, hd, hp⟩
    exact ⟨_, Cursor.word_eq_ok_iff.mpr ⟨hw, rfl, hd, hp⟩, rfl⟩

theorem run_signed_eq_ok_iff {c : Cursor} {o : ByteOrder} {w : Nat} {v : ReadValue}
    {d : Cursor} :
    (signed o w).run c = .ok (v, d) ↔
      w ≤ c.size - c.pos ∧ v = .number (signedOf w (o.decode (c.rest.take w))) ∧
        d.data = c.data ∧ d.pos = c.pos + w := by
  simp only [run]
  rw [map_read_eq_ok_iff _ (fun a : Nat => ReadValue.number (signedOf w a))]
  constructor
  · rintro ⟨a, h, rfl⟩
    obtain ⟨hw, rfl, hd, hp⟩ := Cursor.word_eq_ok_iff.mp h
    exact ⟨hw, rfl, hd, hp⟩
  · rintro ⟨hw, rfl, hd, hp⟩
    exact ⟨_, Cursor.word_eq_ok_iff.mpr ⟨hw, rfl, hd, hp⟩, rfl⟩

theorem run_bytes_eq_ok_iff {c : Cursor} {n : Nat} {v : ReadValue} {d : Cursor} :
    (bytes n).run c = .ok (v, d) ↔
      n ≤ c.size - c.pos ∧ v = .bytes (c.rest.take n) ∧ d.data = c.data ∧ d.pos = c.pos + n := by
  simp only [run]
  rw [map_read_eq_ok_iff _ ReadValue.bytes]
  constructor
  · rintro ⟨a, h, rfl⟩
    obtain ⟨hw, rfl, hd, hp⟩ := Cursor.take_eq_ok_iff.mp h
    exact ⟨hw, rfl, hd, hp⟩
  · rintro ⟨hw, rfl, hd, hp⟩
    exact ⟨_, Cursor.take_eq_ok_iff.mpr ⟨hw, rfl, hd, hp⟩, rfl⟩

theorem run_unsigned_eq_error_iff {c : Cursor} {o : ByteOrder} {w : Nat} {e : ReadFault} :
    (unsigned o w).run c = .error e ↔ c.size - c.pos < w ∧ e = .short c.pos w c.size := by
  simp only [run]
  rw [map_read_eq_error_iff _ (fun a : Nat => ReadValue.number a)]
  exact Cursor.word_eq_error_iff

theorem run_signed_eq_error_iff {c : Cursor} {o : ByteOrder} {w : Nat} {e : ReadFault} :
    (signed o w).run c = .error e ↔ c.size - c.pos < w ∧ e = .short c.pos w c.size := by
  simp only [run]
  rw [map_read_eq_error_iff _ (fun a : Nat => ReadValue.number (signedOf w a))]
  exact Cursor.word_eq_error_iff

theorem run_bytes_eq_error_iff {c : Cursor} {n : Nat} {e : ReadFault} :
    (bytes n).run c = .error e ↔ c.size - c.pos < n ∧ e = .short c.pos n c.size := by
  simp only [run]
  rw [map_read_eq_error_iff _ ReadValue.bytes]
  exact Cursor.take_eq_error_iff

theorem run_terminated_eq_ok_iff {c : Cursor} {v : ReadValue} {d : Cursor} :
    terminated.run c = .ok (v, d) ↔
      ∃ z, c.pos ≤ z ∧ c.data[z]? = some 0 ∧ (∀ i, c.pos ≤ i → i < z → c.data[i]? ≠ some 0) ∧
        v = .bytes (c.rest.take (z - c.pos)) ∧ d.data = c.data ∧ d.pos = z + 1 := by
  simp only [run]
  rw [map_read_eq_ok_iff _ ReadValue.bytes]
  constructor
  · rintro ⟨a, h, rfl⟩
    obtain ⟨z, hz, hz0, hnz, rfl, hd, hp⟩ := Cursor.terminated_eq_ok_iff.mp h
    exact ⟨z, hz, hz0, hnz, rfl, hd, hp⟩
  · rintro ⟨z, hz, hz0, hnz, rfl, hd, hp⟩
    exact ⟨_, Cursor.terminated_eq_ok_iff.mpr ⟨z, hz, hz0, hnz, rfl, hd, hp⟩, rfl⟩

theorem run_terminated_eq_error_iff {c : Cursor} {e : ReadFault} :
    terminated.run c = .error e ↔
      (∀ i, c.pos ≤ i → c.data[i]? ≠ some 0) ∧ e = .unterminated c.pos := by
  simp only [run]
  rw [map_read_eq_error_iff _ ReadValue.bytes]
  exact Cursor.terminated_eq_error_iff

theorem run_seek_eq_ok_iff {c : Cursor} {p : Nat} {v : ReadValue} {d : Cursor} :
    (seek p).run c = .ok (v, d) ↔ p ≤ c.size ∧ v = .nothing ∧ d.data = c.data ∧ d.pos = p := by
  simp only [run]
  cases h : c.seek p with
  | error e =>
    simp only [bind, Except.bind, reduceCtorEq, false_iff, not_and]
    intro hp
    exact absurd h (by rw [Cursor.seek_eq_error_iff]; omega)
  | ok d' =>
    obtain ⟨hp, hd, hq⟩ := Cursor.seek_eq_ok_iff.mp h
    simp only [bind, Except.bind, pure, Except.pure, Except.ok.injEq, Prod.mk.injEq]
    constructor
    · rintro ⟨rfl, rfl⟩; exact ⟨hp, rfl, hd, hq⟩
    · rintro ⟨-, rfl, hd', hq'⟩
      exact ⟨rfl, Cursor.ext (hd.trans hd'.symm) (hq.trans hq'.symm)⟩

theorem run_seek_eq_error_iff {c : Cursor} {p : Nat} {e : ReadFault} :
    (seek p).run c = .error e ↔ c.size < p ∧ e = .seek p c.size := by
  simp only [run]
  rw [← Cursor.seek_eq_error_iff]
  cases c.seek p with
  | error e' => simp [bind, Except.bind]
  | ok d' => simp [bind, Except.bind, pure, Except.pure]

/-- Looking at a position answers the bytes from it to the end and leaves the cursor as it
was. -/
theorem run_peek_eq_ok_iff {c : Cursor} {p : Nat} {v : ReadValue} {d : Cursor} :
    (peek p).run c = .ok (v, d) ↔ p ≤ c.size ∧ v = .bytes (c.data.drop p) ∧ d = c := by
  simp only [run]
  cases h : c.seek p with
  | error e =>
    simp only [bind, Except.bind, reduceCtorEq, false_iff, not_and]
    intro hp
    exact absurd h (by rw [Cursor.seek_eq_error_iff]; omega)
  | ok d' =>
    obtain ⟨hp, hd, hq⟩ := Cursor.seek_eq_ok_iff.mp h
    simp only [bind, Except.bind, pure, Except.pure, Except.ok.injEq, Prod.mk.injEq,
      Cursor.rest, hd, hq]
    constructor
    · rintro ⟨rfl, rfl⟩; exact ⟨hp, rfl, rfl⟩
    · rintro ⟨-, rfl, rfl⟩; exact ⟨rfl, rfl⟩

theorem run_peek_eq_error_iff {c : Cursor} {p : Nat} {e : ReadFault} :
    (peek p).run c = .error e ↔ c.size < p ∧ e = .seek p c.size := by
  simp only [run]
  rw [← Cursor.seek_eq_error_iff]
  cases c.seek p with
  | error e' => simp [bind, Except.bind]
  | ok d' => simp [bind, Except.bind, pure, Except.pure]

/-- A step never changes the bytes under the cursor. -/
theorem run_data {c : Cursor} {s : ReadStep} {v : ReadValue} {d : Cursor}
    (h : s.run c = .ok (v, d)) : d.data = c.data := by
  cases s with
  | unsigned o w => exact (run_unsigned_eq_ok_iff.mp h).2.2.1
  | signed o w => exact (run_signed_eq_ok_iff.mp h).2.2.1
  | bytes n => exact (run_bytes_eq_ok_iff.mp h).2.2.1
  | terminated =>
    obtain ⟨z, -, -, -, -, hd, -⟩ := run_terminated_eq_ok_iff.mp h
    exact hd
  | seek p => exact (run_seek_eq_ok_iff.mp h).2.2.1
  | peek p => rw [(run_peek_eq_ok_iff.mp h).2.2]
  | remaining | atEnd | size =>
    simp only [run, pure, Except.pure, Except.ok.injEq, Prod.mk.injEq] at h
    obtain ⟨-, rfl⟩ := h
    rfl

end ReadStep

/-- Every position that `runSteps` reports lies within the bytes. -/
theorem Cursor.runSteps_pos_le (c : Cursor) (ss : List ReadStep) :
    ∀ r ∈ c.runSteps ss, r.2 ≤ c.size := by
  induction ss generalizing c with
  | nil => simp [runSteps]
  | cons s ss ih =>
    intro r hr
    unfold runSteps at hr
    split at hr
    · rename_i v d h
      have hd := ReadStep.run_data h
      have hs : d.size = c.size := by simp [size, hd]
      simp only [List.mem_cons] at hr
      rcases hr with rfl | hr
      · have := d.pos_le
        simp only [size] at hs
        simp only [size]
        omega
      · rw [← hs]; exact ih d r hr
    · simp only [List.mem_cons] at hr
      rcases hr with rfl | hr
      · exact c.pos_le
      · exact ih c r hr

/-- A failed step is reported at the position before it, and the next step reads from there. -/
theorem Cursor.runSteps_cons_error {c : Cursor} {s : ReadStep} {e : ReadFault}
    (ss : List ReadStep) (h : s.run c = .error e) :
    c.runSteps (s :: ss) = (.error e, c.pos) :: c.runSteps ss := by
  simp [runSteps, h]

/-- A reader's laws. Every position reported stays within the bytes; a failed step keeps the
position; a word, signed word or slice of `k` bytes is the next `k` bytes (as a number in the
chosen order), moves by `k`, and fails exactly when fewer than `k` are left; a terminated
string is the bytes up to the first NUL at or after the position, consumes the NUL, and fails
at the position exactly when there is none; a seek fails exactly past the end; looking at a
position leaves the cursor where it was. -/
theorem Cursor.read_laws (c : Cursor) :
    (∀ ss : List ReadStep, ∀ r ∈ c.runSteps ss, r.2 ≤ c.size) ∧
    (∀ (s : ReadStep) (e : ReadFault) (ss : List ReadStep), s.run c = .error e →
      c.runSteps (s :: ss) = (.error e, c.pos) :: c.runSteps ss) ∧
    (∀ (o : ByteOrder) (k : Nat) (v : ReadValue) (d : Cursor),
      (ReadStep.unsigned o k).run c = .ok (v, d) ↔
        k ≤ c.size - c.pos ∧ v = .number (o.decode ((c.data.drop c.pos).take k)) ∧
          d.data = c.data ∧ d.pos = c.pos + k) ∧
    (∀ (o : ByteOrder) (k : Nat) (v : ReadValue) (d : Cursor),
      (ReadStep.signed o k).run c = .ok (v, d) ↔
        k ≤ c.size - c.pos ∧ v = .number (signedOf k (o.decode ((c.data.drop c.pos).take k))) ∧
          d.data = c.data ∧ d.pos = c.pos + k) ∧
    (∀ (k : Nat) (v : ReadValue) (d : Cursor),
      (ReadStep.bytes k).run c = .ok (v, d) ↔
        k ≤ c.size - c.pos ∧ v = .bytes ((c.data.drop c.pos).take k) ∧
          d.data = c.data ∧ d.pos = c.pos + k) ∧
    (∀ (o : ByteOrder) (k : Nat) (e : ReadFault),
      ((ReadStep.unsigned o k).run c = .error e ↔
        c.size - c.pos < k ∧ e = .short c.pos k c.size) ∧
      ((ReadStep.signed o k).run c = .error e ↔
        c.size - c.pos < k ∧ e = .short c.pos k c.size) ∧
      ((ReadStep.bytes k).run c = .error e ↔
        c.size - c.pos < k ∧ e = .short c.pos k c.size)) ∧
    (∀ (v : ReadValue) (d : Cursor),
      ReadStep.terminated.run c = .ok (v, d) ↔
        ∃ z, c.pos ≤ z ∧ c.data[z]? = some 0 ∧
          (∀ i, c.pos ≤ i → i < z → c.data[i]? ≠ some 0) ∧
          v = .bytes ((c.data.drop c.pos).take (z - c.pos)) ∧ d.data = c.data ∧ d.pos = z + 1) ∧
    (∀ e : ReadFault, ReadStep.terminated.run c = .error e ↔
      (∀ i, c.pos ≤ i → c.data[i]? ≠ some 0) ∧ e = .unterminated c.pos) ∧
    (∀ (p : Nat) (v : ReadValue) (d : Cursor), (ReadStep.seek p).run c = .ok (v, d) ↔
      p ≤ c.size ∧ v = .nothing ∧ d.data = c.data ∧ d.pos = p) ∧
    (∀ (p : Nat) (e : ReadFault), (ReadStep.seek p).run c = .error e ↔
      c.size < p ∧ e = .seek p c.size) ∧
    (∀ (p : Nat) (v : ReadValue) (d : Cursor), (ReadStep.peek p).run c = .ok (v, d) ↔
      p ≤ c.size ∧ v = .bytes (c.data.drop p) ∧ d = c) ∧
    (∀ (p : Nat) (e : ReadFault), (ReadStep.peek p).run c = .error e ↔
      c.size < p ∧ e = .seek p c.size) :=
  ⟨c.runSteps_pos_le, fun _ _ ss h => Cursor.runSteps_cons_error ss h,
    fun _ _ _ _ => ReadStep.run_unsigned_eq_ok_iff,
    fun _ _ _ _ => ReadStep.run_signed_eq_ok_iff,
    fun _ _ _ => ReadStep.run_bytes_eq_ok_iff,
    fun _ _ _ => ⟨ReadStep.run_unsigned_eq_error_iff, ReadStep.run_signed_eq_error_iff,
      ReadStep.run_bytes_eq_error_iff⟩,
    fun _ _ => ReadStep.run_terminated_eq_ok_iff,
    fun _ => ReadStep.run_terminated_eq_error_iff,
    fun _ _ _ => ReadStep.run_seek_eq_ok_iff,
    fun _ _ => ReadStep.run_seek_eq_error_iff,
    fun _ _ _ => ReadStep.run_peek_eq_ok_iff,
    fun _ _ => ReadStep.run_peek_eq_error_iff⟩

end DungeonFormats
