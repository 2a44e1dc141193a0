import DungeonFormats.Text.Hex
import DungeonFormats.Text.Printable
import DungeonFormats.Text.GraphemeExtend
import DungeonFormats.Text.Utf8

/-!
# Quoted text for messages

Messages show a string between double quotes, escaped so that every character is visible:
NUL, tab, carriage return and line feed as `\0`, `\t`, `\r`, `\n`; the backslash and the double
quote behind a backslash; a grapheme extender or a character that is not printable as `\u`
followed by its code point in lowercase hexadecimal between braces. Every other character,
the single quote included, stands for itself. A byte string is first decoded lossily as UTF-8.
-/

namespace DungeonFormats.Text

/-- The escape of a character by its code point. -/
def unicodeEscape (c : Char) : List Char :=
  ['\\', 'u', '\x7b'] ++ Hex.lowerDigits c.toNat ++ ['\x7d']

/-- How a character is written inside quotes. -/
def escapeChar (c : Char) : List Char :=
  if c = '\x00' then ['\\', '0']
  else if c = '\t' then ['\\', 't']
  else if c = '\r' then ['\\', 'r']
  else if c = '\n' then ['\\', 'n']
  else if c = '\\' then ['\\', '\\']
  else if c = '"' then ['\\', '"']
  else if isGraphemeExtend c then unicodeEscape c
  else if isPrintable c then [c]
  else unicodeEscape c

/-- The characters between double quotes, each escaped. -/
def quote (cs : List Char) : String :=
  String.ofList ('"' :: cs.flatMap escapeChar ++ ['"'])

/-- A byte string, decoded lossily as UTF-8, between double quotes. -/
def quoteBytes (bs : List UInt8) : String :=
  quote (Utf8.decodeLossy bs)

end DungeonFormats.Text
