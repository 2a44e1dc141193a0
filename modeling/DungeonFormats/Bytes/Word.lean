/-!
# Words as bytes

Unsigned words of a fixed number of bytes in either byte order, and their two's-complement
readings. A word of `width` bytes stands for a number below `256 ^ width`: `ByteOrder.encode`
writes its base-256 digits (least significant first in little-endian order, last in big-endian
order) and `ByteOrder.decode` reads any list of digits back. Signed values are stored modulo
`256 ^ width` (`unsignedOf`) and read back with `Int.bmod` (`signedOf`), which picks the
representative in `[-256 ^ width / 2, 256 ^ width / 2)`.
-/

namespace DungeonFormats

/-- The order in which a word's bytes are stored. -/
inductive ByteOrder where
  | little
  | big
  deriving DecidableEq, Repr

/-- The first `width` base-256 digits of `n`, least significant first. -/
def lowFirst : (width n : Nat) → List UInt8
  | 0, _ => []
  | w + 1, n => (n % 256).toUInt8 :: lowFirst w (n / 256)

/-- The number whose base-256 digits, least significant first, are `bs`. -/
def ofLowFirst : List UInt8 → Nat
  | [] => 0
  | b :: bs => b.toNat + 256 * ofLowFirst bs

namespace ByteOrder

/-- The `width` bytes of `n` modulo `256 ^ width`, in this order. -/
def encode : ByteOrder → (width n : Nat) → List UInt8
  | little, w, n => lowFirst w n
  | big, w, n => (lowFirst w n).reverse

/-- The number that the bytes `bs` spell in this order. -/
def decode : ByteOrder → List UInt8 → Nat
  | little, bs => ofLowFirst bs
  | big, bs => ofLowFirst bs.reverse

end ByteOrder

/-- The two's-complement value of the `width`-byte word `n`. -/
def signedOf (width n : Nat) : Int :=
  Int.bmod n (Nat.pow 256 width)

/-- The `width`-byte word that stores `v` in two's complement. -/
def unsignedOf (width : Nat) (v : Int) : Nat :=
  (v % (Nat.pow 256 width : Nat)).toNat

theorem length_lowFirst (w n : Nat) : (lowFirst w n).length = w := by
  induction w generalizing n with
  | zero => rfl
  | succ w ih => simp [lowFirst, ih]

theorem ByteOrder.length_encode (o : ByteOrder) (w n : Nat) : (o.encode w n).length = w := by
  cases o <;> simp [encode, length_lowFirst]

end DungeonFormats
