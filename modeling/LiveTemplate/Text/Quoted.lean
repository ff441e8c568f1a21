/-!
# Quoted text

The written form of a text literal: double quotes around the characters, a backslash form for the
characters that have one, and the hexadecimal code point for the remaining characters that would not
show.
-/
namespace LiveTemplate.Text

/-- Whether a character shows in a quoted text by its code point only: controls, separators, format
characters, the blocks of combining marks, private use and the code points that stand for no
character. -/
def isHidden (c : Char) : Bool :=
  let n := c.toNat
  n < 0x20 || (0x7F ≤ n && n ≤ 0xA0) || n == 0xAD || (0x300 ≤ n && n ≤ 0x36F) || n == 0x1680 ||
    (0x1AB0 ≤ n && n ≤ 0x1AFF) || (0x1DC0 ≤ n && n ≤ 0x1DFF) || (0x2000 ≤ n && n ≤ 0x200F) ||
    (0x2028 ≤ n && n ≤ 0x202F) || (0x205F ≤ n && n ≤ 0x206F) || (0x20D0 ≤ n && n ≤ 0x20F0) ||
    n == 0x3000 || (0xE000 ≤ n && n ≤ 0xF8FF) || (0xFE00 ≤ n && n ≤ 0xFE0F) ||
    (0xFE20 ≤ n && n ≤ 0xFE2F) || n == 0xFEFF || (0xFFF0 ≤ n && n ≤ 0xFFFB) || n == 0xFFFE ||
    n == 0xFFFF || 0xE0000 ≤ n

/-- The lowercase hexadecimal digits of a code point, without padding. -/
def hexDigits (c : Char) : List Char :=
  Nat.toDigits 16 c.toNat

/-- The form of one character inside double quotes. -/
def escape (c : Char) : List Char :=
  if c == '\t' then ['\\', 't']
  else if c == '\r' then ['\\', 'r']
  else if c == '\n' then ['\\', 'n']
  else if c.toNat == 0 then ['\\', '0']
  else if c == '\\' then ['\\', '\\']
  else if c == '"' then ['\\', '"']
  else if isHidden c then ['\\', 'u', '\x7b'] ++ hexDigits c ++ ['\x7d']
  else [c]

def quoted (s : String) : String :=
  String.ofList ('"' :: (s.toList.flatMap escape ++ ['"']))

end LiveTemplate.Text
