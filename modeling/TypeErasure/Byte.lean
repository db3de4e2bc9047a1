/-!
# Bytes and byte classes

Source text is scanned as the bytes of its UTF-8 encoding. Every delimiter the scanner knows is an
ASCII character, and every byte of a longer encoding is `128` or more, so a byte can be compared
with a character directly and a byte outside ASCII always belongs to a name.

All classes are stated on `Byte.toNat`, which keeps facts about them within reach of `omega`.
-/

namespace TypeErasure

/-- One byte of a UTF-8 encoded text. -/
abbrev Byte := UInt8

namespace Byte

/-- The byte encodes the ASCII character `ch`. -/
def is (c : Byte) (ch : Char) : Bool :=
  c.toNat == ch.toNat

/-- The byte encodes one of the ASCII characters `chars`. -/
def among (c : Byte) (chars : List Char) : Bool :=
  chars.any c.is

/-- The byte encodes a character between `lo` and `hi`, both included. -/
def between (c : Byte) (lo hi : Char) : Bool :=
  lo.toNat ≤ c.toNat && c.toNat ≤ hi.toNat

/-! ### Layout -/

/-- Spaces and tabs, which never end a line. -/
def isBlank (c : Byte) : Bool :=
  c.among [' ', '\t']

/-- Whitespace with line breaks: space, tab, line feed, form feed and carriage return. The vertical
tab is not among them. -/
def isSpace (c : Byte) : Bool :=
  c.among [' ', '\t', '\n', '\x0c', '\r']

/-! ### Names -/

/-- A decimal digit. -/
def isDigit (c : Byte) : Bool :=
  c.between '0' '9'

/-- An ASCII letter. -/
def isLetter (c : Byte) : Bool :=
  c.between 'a' 'z' || c.between 'A' 'Z'

/-- A byte that can start a name. Bytes outside ASCII count, whatever character they encode. -/
def isNameStart (c : Byte) : Bool :=
  c.isLetter || c.among ['_', '$'] || 128 ≤ c.toNat

/-- A byte that can stand in a name after its first byte. -/
def isNamePart (c : Byte) : Bool :=
  c.isNameStart || c.isDigit

/-! ### Delimiters -/

/-- The quotes of a string literal. -/
def isQuote (c : Byte) : Bool :=
  c.among ['\'', '"']

/-- Opening brackets other than the angle bracket. -/
def isOpener (c : Byte) : Bool :=
  c.among ['(', '[', '{']

/-- Closing brackets other than the angle bracket. -/
def isCloser (c : Byte) : Bool :=
  c.among [')', ']', '}']

end Byte

end TypeErasure
