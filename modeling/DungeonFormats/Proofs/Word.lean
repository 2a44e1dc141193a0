import Mathlib
import DungeonFormats.Bytes.Word

/-!
# Round trips of words

Reading back the `width` bytes written for `n` gives `n` modulo `256 ^ width`, and writing back
the value read from some bytes gives those bytes: a word's bytes are its base-256 digits, and
digits are unique.
-/

namespace DungeonFormats

theorem ofLowFirst_lowFirst (w n : Nat) : ofLowFirst (lowFirst w n) = n % 256 ^ w := by
  induction w generalizing n with
  | zero => simp [lowFirst, ofLowFirst, Nat.mod_one]
  | succ w ih =>
    simp only [lowFirst, ofLowFirst, ih]
    have hdigit : ((n % 256).toUInt8).toNat = n % 256 := by
      simp [Nat.toUInt8]
    rw [hdigit, Nat.pow_succ, Nat.mul_comm (256 ^ w) 256, Nat.mod_mul, Nat.add_comm]

theorem ofLowFirst_lt (bs : List UInt8) : ofLowFirst bs < 256 ^ bs.length := by
  induction bs with
  | nil => simp [ofLowFirst]
  | cons b bs ih =>
    have hb := b.toNat_lt
    simp only [ofLowFirst, List.length_cons, Nat.pow_succ]
    omega

theorem lowFirst_ofLowFirst (bs : List UInt8) : lowFirst bs.length (ofLowFirst bs) = bs := by
  induction bs with
  | nil => rfl
  | cons b bs ih =>
    have hb := b.toNat_lt
    have hlow : (b.toNat + 256 * ofLowFirst bs) % 256 = b.toNat := by omega
    have hhigh : (b.toNat + 256 * ofLowFirst bs) / 256 = ofLowFirst bs := by omega
    simp only [List.length_cons, lowFirst, ofLowFirst, hlow, hhigh, ih]
    simp

namespace ByteOrder

/-- Reading back a written word gives its value modulo the width. -/
@[simp] theorem decode_encode (o : ByteOrder) (w n : Nat) : o.decode (o.encode w n) = n % 256 ^ w := by
  cases o <;> simp [encode, decode, ofLowFirst_lowFirst]

theorem decode_lt (o : ByteOrder) (bs : List UInt8) : o.decode bs < 256 ^ bs.length := by
  cases o
  · exact ofLowFirst_lt bs
  · simpa [decode] using ofLowFirst_lt bs.reverse

/-- Writing back a value read from bytes gives the bytes. -/
@[simp] theorem encode_decode (o : ByteOrder) (bs : List UInt8) :
    o.encode bs.length (o.decode bs) = bs := by
  cases o
  · exact lowFirst_ofLowFirst bs
  · simpa [encode, decode] using congrArg List.reverse (lowFirst_ofLowFirst bs.reverse)

theorem encode_injective (o : ByteOrder) (w : Nat) {m n : Nat} (hm : m < 256 ^ w)
    (hn : n < 256 ^ w) (h : o.encode w m = o.encode w n) : m = n := by
  have := congrArg o.decode h
  rwa [decode_encode, decode_encode, Nat.mod_eq_of_lt hm, Nat.mod_eq_of_lt hn] at this

end ByteOrder

end DungeonFormats
