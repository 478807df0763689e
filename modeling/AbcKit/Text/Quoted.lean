import AbcKit.Text.Printable
import AbcKit.Text.GraphemeExtend
/-!
Quoted text, as listings show string operands: the text between double quotes, where a tab,
carriage return, line feed, NUL, double quote or backslash is written as a backslash escape, a
character that extends a grapheme or is not printable as `\u` with its code point in lowercase
hexadecimal between braces, and every other character (the single quote included) as itself.
-/
namespace AbcKit.Text

/-- `\u` and the code point in lowercase hexadecimal, between braces -/
def unicodeEscape (c : Char) : List Char :=
  ['\\', 'u', '\x7b'] ++ Nat.toDigits 16 c.toNat ++ ['\x7d']

/-- how one character is written between the quotes -/
def escapeChar (c : Char) : List Char :=
  if c = '\t' then ['\\', 't']
  else if c = '\r' then ['\\', 'r']
  else if c = '\n' then ['\\', 'n']
  else if c = '\x00' then ['\\', '0']
  else if c = '"' then ['\\', '"']
  else if c = '\\' then ['\\', '\\']
  else if isGraphemeExtend c || !isPrintable c then unicodeEscape c
  else [c]

/-- the quoted form of a text -/
def quote (s : String) : String :=
  String.ofList ('"' :: s.toList.flatMap escapeChar ++ ['"'])

end AbcKit.Text
