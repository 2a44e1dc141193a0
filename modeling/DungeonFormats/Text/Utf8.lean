/-!
# Lossy UTF-8 decoding

`decodeLossy` reads a byte string as UTF-8 and replaces every ill-formed part with U+FFFD, one
replacement character per maximal subpart: a lead byte followed by as many continuation bytes as
can still begin a well-formed sequence is replaced as a whole, and a byte that can begin no
sequence is replaced on its own. Well-formed sequences never encode a surrogate or a code point
above U+10FFFF, because the admissible second bytes of each lead byte rule them out.
-/

namespace DungeonFormats.Utf8

/-- The replacement character. -/
def replacement : Char := '�'

/-- A continuation byte, `10xxxxxx`. -/
def isContinuation (b : UInt8) : Bool :=
  0x80 ≤ b && b ≤ 0xBF

/-- The second bytes that may follow a three-byte lead byte: no overlong forms after `E0` and
no surrogates after `ED`. -/
def secondOfThree (lead b : UInt8) : Bool :=
  if lead == 0xE0 then 0xA0 ≤ b && b ≤ 0xBF
  else if lead == 0xED then 0x80 ≤ b && b ≤ 0x9F
  else isContinuation b

/-- The second bytes that may follow a four-byte lead byte: no overlong forms after `F0` and
nothing above U+10FFFF after `F4`. -/
def secondOfFour (lead b : UInt8) : Bool :=
  if lead == 0xF0 then 0x90 ≤ b && b ≤ 0xBF
  else if lead == 0xF4 then 0x80 ≤ b && b ≤ 0x8F
  else isContinuation b

/-- The low six bits of a continuation byte. -/
def low6 (b : UInt8) : Nat :=
  b.toNat % 64

/-- Decodes UTF-8, replacing each maximal ill-formed subpart by U+FFFD. -/
def decodeLossy : List UInt8 → List Char
  | [] => []
  | b :: r =>
    if b < 0x80 then Char.ofNat b.toNat :: decodeLossy r
    else if 0xC2 ≤ b && b ≤ 0xDF then
      match r with
      | c :: r2 =>
        if isContinuation c then
          Char.ofNat ((b.toNat % 32) * 64 + low6 c) :: decodeLossy r2
        else replacement :: decodeLossy (c :: r2)
      | [] => [replacement]
    else if 0xE0 ≤ b && b ≤ 0xEF then
      match r with
      | c :: r2 =>
        if secondOfThree b c then
          match r2 with
          | d :: r3 =>
            if isContinuation d then
              Char.ofNat ((b.toNat % 16) * 4096 + low6 c * 64 + low6 d) :: decodeLossy r3
            else replacement :: decodeLossy (d :: r3)
          | [] => [replacement]
        else replacement :: decodeLossy (c :: r2)
      | [] => [replacement]
    else if 0xF0 ≤ b && b ≤ 0xF4 then
      match r with
      | c :: r2 =>
        if secondOfFour b c then
          match r2 with
          | d :: r3 =>
            if isContinuation d then
              match r3 with
              | e :: r4 =>
                if isContinuation e then
                  Char.ofNat ((b.toNat % 8) * 262144 + low6 c * 4096 + low6 d * 64 + low6 e) ::
                    decodeLossy r4
                else replacement :: decodeLossy (e :: r4)
              | [] => [replacement]
            else replacement :: decodeLossy (d :: r3)
          | [] => [replacement]
        else replacement :: decodeLossy (c :: r2)
      | [] => [replacement]
    else replacement :: decodeLossy r

end DungeonFormats.Utf8
