/-!
# Hexadecimal text of positions and words

Messages write positions, sizes and words as `0x` followed by uppercase hexadecimal digits, with
no leading zeros, or zero-padded after the `0x` so that the whole text reaches a given width
(`0x000B` at width 6). Identifiers shown as numbers in lowercase escapes use `lowerDigits`.
-/

namespace DungeonFormats.Hex

/-- The uppercase hexadecimal digits of `n`, most significant first; `0` has the one digit `0`. -/
def digits (n : Nat) : List Char :=
  (Nat.toDigits 16 n).map Char.toUpper

/-- The lowercase hexadecimal digits of `n`, most significant first. -/
def lowerDigits (n : Nat) : List Char :=
  Nat.toDigits 16 n

/-- The text `0x` and the uppercase digits of `n`. -/
def text (n : Nat) : String :=
  "0x" ++ String.ofList (digits n)

/-- The text `0x` and the uppercase digits of `n`, with zeros after the `0x` so that it has at
least `width` characters. -/
def padded (width n : Nat) : String :=
  let ds := digits n
  "0x" ++ String.ofList (List.replicate (width - 2 - ds.length) '0' ++ ds)

end DungeonFormats.Hex
