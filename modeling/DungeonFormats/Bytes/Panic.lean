import DungeonFormats.Bytes.Builder

/-!
# Stopping outright

Some operations do not return an error when they cannot go on: they stop the whole run (they
panic). Slicing past the end of a byte string or with its bounds the wrong way round, indexing past
the end of a list, subtracting below zero, adding past the largest `usize`, making room for more
bytes than one allocation may hold and placing a builder's label a second time are such
operations. Each is written here as a checked operation whose failure is a `Panic`, so that a
reader or writer built from them shows a panic as an outcome of its own, apart from its errors,
and "it never panics" is a statement about its results.
-/

namespace DungeonFormats

/-- Why a run stops outright. -/
inductive Panic where
  /-- A slice `[start..stop]` whose start lies after its end. -/
  | sliceOrder (start stop : Nat)
  /-- A slice that starts at `start`, past the end of `size` elements. -/
  | sliceStart (start size : Nat)
  /-- A slice that ends at `stop`, past the end of `size` elements. -/
  | sliceEnd (stop size : Nat)
  /-- An index `i` into `size` elements. -/
  | index (i size : Nat)
  /-- A subtraction below zero. -/
  | underflow
  /-- An addition past the largest `usize`. -/
  | overflow
  /-- Room asked for more bytes than one allocation may hold. -/
  | capacityOverflow
  /-- A builder stopped by a label placed twice. -/
  | build (a : BuildAbort)
  deriving DecidableEq, Repr

/-- The text of a panic. -/
def Panic.message : Panic → String
  | .sliceOrder a b => "slice index starts at " ++ toString a ++ " but ends at " ++ toString b
  | .sliceStart a n =>
    "range start index " ++ toString a ++ " out of range for slice of length " ++ toString n
  | .sliceEnd b n =>
    "range end index " ++ toString b ++ " out of range for slice of length " ++ toString n
  | .index i n =>
    "index out of bounds: the len is " ++ toString n ++ " but the index is " ++ toString i
  | .underflow => "attempt to subtract with overflow"
  | .overflow => "attempt to add with overflow"
  | .capacityOverflow => "capacity overflow"
  | .build a => a.message

variable {α : Type}

/-- The elements from `start` up to `stop` of `xs`, which must be in order and within it. -/
def slice (xs : List α) (start stop : Nat) : Except Panic (List α) :=
  if start ≤ stop then
    if stop ≤ xs.length then .ok ((xs.take stop).drop start) else .error (.sliceEnd stop xs.length)
  else .error (.sliceOrder start stop)

/-- The elements of `xs` from `start` on, which must not lie past its end. -/
def sliceFrom (xs : List α) (start : Nat) : Except Panic (List α) :=
  if start ≤ xs.length then .ok (xs.drop start) else .error (.sliceStart start xs.length)

/-- The element of `xs` at `i`, which must lie within it. -/
def index (xs : List α) (i : Nat) : Except Panic α :=
  if h : i < xs.length then .ok xs[i] else .error (.index i xs.length)

/-- `a - b`, which must not go below zero. -/
def usub (a b : Nat) : Except Panic Nat :=
  if b ≤ a then .ok (a - b) else .error .underflow

/-- `2 ^ 64`: every `usize` lies below it. -/
def usizeLimit : Nat := 18446744073709551616

/-- `2 ^ 63 - 1`, that is `isize::MAX`: no allocation holds more bytes, so no buffer is longer. -/
def isizeMax : Nat := 9223372036854775807

/-- `a + b` in `usize`, which must stay below `2 ^ 64`. -/
def uadd (a b : Nat) : Except Panic Nat :=
  if a + b < usizeLimit then .ok (a + b) else .error .overflow

/-- `offset + pos` in `usize`, for a position `pos` in a buffer. A buffer never grows past
`isizeMax` bytes, so a run reaches no position past it: the buffers of this model are unbounded,
and it adds such a position without the check that a reachable one is given. -/
def uaddAt (offset pos : Nat) : Except Panic Nat :=
  if pos ≤ isizeMax then uadd offset pos else .ok (offset + pos)

/-- Makes room for `n` elements of `size` bytes aligned to `align`, as a vector is made with a
capacity: more than `isizeMax` bytes, less what the alignment may add, is a capacity overflow. -/
def withCapacity (size align n : Nat) : Except Panic Unit :=
  if size * n ≤ isizeMax - (align - 1) then .ok () else .error .capacityOverflow

/-- Places `l` at the current length, which stops the run if `l` was placed before. -/
def Builder.placeOnce [DecidableEq α] (b : Builder α) (l : α) : Except Panic (Builder α) :=
  match b.find? l with
  | some p => .error (.build (.placedTwice p))
  | none => .ok (b.place l)

theorem slice_eq_ok {xs : List α} {start stop : Nat} (h1 : start ≤ stop) (h2 : stop ≤ xs.length) :
    slice xs start stop = .ok ((xs.take stop).drop start) := by
  simp [slice, h1, h2]

theorem sliceFrom_eq_ok {xs : List α} {start : Nat} (h : start ≤ xs.length) :
    sliceFrom xs start = .ok (xs.drop start) := by
  simp [sliceFrom, h]

theorem usub_eq_ok {a b : Nat} (h : b ≤ a) : usub a b = .ok (a - b) := by
  simp [usub, h]

theorem uadd_eq_ok {a b : Nat} (h : a + b < usizeLimit) : uadd a b = .ok (a + b) := by
  simp [uadd, h]

theorem uaddAt_eq_ok {a pos : Nat} (h : pos ≤ isizeMax → a + pos < usizeLimit) :
    uaddAt a pos = .ok (a + pos) := by
  unfold uaddAt
  split
  · rename_i hpos
    exact uadd_eq_ok (h hpos)
  · rfl

theorem eq_add_of_uaddAt_eq_ok {a pos r : Nat} (h : uaddAt a pos = .ok r) : r = a + pos := by
  unfold uaddAt uadd at h
  split at h
  · split at h
    · exact (Except.ok.inj h).symm
    · cases h
  · exact (Except.ok.inj h).symm

theorem withCapacity_eq_ok {size align n : Nat} (h : size * n ≤ isizeMax - (align - 1)) :
    withCapacity size align n = .ok () := by
  simp [withCapacity, h]

theorem Builder.placeOnce_eq_ok [DecidableEq α] {b : Builder α} {l : α} (h : b.find? l = none) :
    b.placeOnce l = .ok (b.place l) := by
  simp [placeOnce, h]

theorem Builder.placeOnce_eq_ok_iff [DecidableEq α] {b b' : Builder α} {l : α} :
    b.placeOnce l = .ok b' ↔ b.find? l = none ∧ b' = b.place l := by
  unfold placeOnce
  split
  · rename_i p hp
    simp [hp]
  · rename_i hp
    simp [hp, eq_comm]

end DungeonFormats
