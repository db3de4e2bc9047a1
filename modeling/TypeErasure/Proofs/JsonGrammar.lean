import TypeErasure.Json.Reader
import TypeErasure.Proofs.Literal

/-!
# The grammar of JSON

Which texts are JSON, stated on its own: values (`Written`), what can stand between the quotes of a
string (`StringText`) and which text that stands for (`Spells`).

A string is a text of the grammar whatever its escapes stand for. It stands for a text itself only
if the surrogates among them form pairs, which is what a key has to do that is read for what it is.
-/

namespace TypeErasure.Json

open Byte (ofChar)

/-! ### Whitespace -/

/-- A text of whitespace. -/
def White (w : List Byte) : Prop :=
  ∀ c ∈ w, c ∈ [' ', '\t', '\n', '\r'].map ofChar

/-! ### Numbers -/

/-- One or more digits. -/
def Digits (d : List Byte) : Prop :=
  d ≠ [] ∧ ∀ c ∈ d, c.isDigit = true

/-- The digits before the point: a zero, or digits of which the first is none. -/
inductive Whole : List Byte → Prop where
  | zero : Whole [ofChar '0']
  | digits {c : Byte} {d : List Byte} (hc : c.isDigit = true) (hzero : c.is '0' = false)
      (hd : ∀ c ∈ d, c.isDigit = true) : Whole (c :: d)

/-- The point and the digits behind it, or nothing. -/
inductive Fraction : List Byte → Prop where
  | none : Fraction []
  | some {d : List Byte} (hd : Digits d) : Fraction (ofChar '.' :: d)

/-- The exponent with its mark and its sign, or nothing. -/
inductive Exponent : List Byte → Prop where
  | none : Exponent []
  | some {mark : Char} {sign d : List Byte} (hmark : mark = 'e' ∨ mark = 'E')
      (hsign : sign = [] ∨ sign = [ofChar '+'] ∨ sign = [ofChar '-']) (hd : Digits d) :
      Exponent (ofChar mark :: (sign ++ d))

/-- No byte of a number comes next. -/
def Follows (rest : List Byte) : Prop :=
  ∀ c ∈ rest.head?, c.isDigit = false ∧ c.among ['.', 'e', 'E'] = false

/-! ### Strings -/

/-- The letters that can stand behind a backslash, with the characters they stand for. -/
def shortEscapes : List (Char × Char) :=
  [('"', '"'), ('\\', '\\'), ('/', '/'), ('b', '\x08'), ('f', '\x0c'), ('n', '\n'), ('r', '\r'),
    ('t', '\t')]

/-- A byte that stands for itself in a string. -/
structure Plain (c : Byte) : Prop where
  notQuote : c.is '"' = false
  notBackslash : c.is '\\' = false
  notControl : 32 ≤ c.toNat

instance (c : Byte) : Decidable (Plain c) :=
  decidable_of_iff (c.is '"' = false ∧ c.is '\\' = false ∧ 32 ≤ c.toNat)
    ⟨fun h => ⟨h.1, h.2.1, h.2.2⟩, fun h => ⟨h.1, h.2, h.3⟩⟩

/-- The hexadecimal digits, with their values. -/
def hexDigits : List (Char × Nat) :=
  [('0', 0), ('1', 1), ('2', 2), ('3', 3), ('4', 4),
    ('5', 5), ('6', 6), ('7', 7), ('8', 8), ('9', 9),
    ('a', 10), ('b', 11), ('c', 12), ('d', 13), ('e', 14), ('f', 15),
    ('A', 10), ('B', 11), ('C', 12), ('D', 13), ('E', 14), ('F', 15)]

/-- Four hexadecimal digits, with the number that they give. -/
inductive HexCode : List Byte → Nat → Prop where
  | digits {a b c d : Char} {k l m n : Nat} (ha : (a, k) ∈ hexDigits) (hb : (b, l) ∈ hexDigits)
      (hc : (c, m) ∈ hexDigits) (hd : (d, n) ∈ hexDigits) :
      HexCode ([a, b, c, d].map ofChar) (((k * 16 + l) * 16 + m) * 16 + n)

/-- What can stand between the quotes of a string. -/
inductive StringText : List Byte → Prop where
  | nil : StringText []
  | plain {c : Byte} {s : List Byte} (hc : Plain c) (hs : StringText s) : StringText (c :: s)
  | short {ch ch' : Char} {s : List Byte} (hch : (ch, ch') ∈ shortEscapes) (hs : StringText s) :
      StringText (ofChar '\\' :: ofChar ch :: s)
  | code {digits s : List Byte} {n : Nat} (hn : HexCode digits n) (hs : StringText s) :
      StringText (ofChar '\\' :: ofChar 'u' :: (digits ++ s))

/-- What stands between the quotes of a string spells a text. Characters beyond the first 65536 are
escaped as a pair of surrogates, and surrogates stand for nothing unless they form a pair. -/
inductive Spells : List Byte → List Byte → Prop where
  | nil : Spells [] []
  | plain {c : Byte} {s t : List Byte} (hc : Plain c) (hs : Spells s t) : Spells (c :: s) (c :: t)
  | short {ch ch' : Char} {s t : List Byte} (hch : (ch, ch') ∈ shortEscapes) (hs : Spells s t) :
      Spells (ofChar '\\' :: ofChar ch :: s) (ofChar ch' :: t)
  | code {digits s t : List Byte} {n : Nat} (hn : HexCode digits n)
      (hsurrogate : n < 0xd800 ∨ 0xe000 ≤ n) (hs : Spells s t) :
      Spells (ofChar '\\' :: ofChar 'u' :: (digits ++ s))
        (String.utf8EncodeChar (Char.ofNat n) ++ t)
  | pair {digits digits' s t : List Byte} {high low : Nat} (hn : HexCode digits high)
      (hn' : HexCode digits' low) (hhigh : 0xd800 ≤ high ∧ high < 0xdc00)
      (hlow : 0xdc00 ≤ low ∧ low < 0xe000) (hs : Spells s t) :
      Spells (ofChar '\\' :: ofChar 'u' :: (digits ++
          ofChar '\\' :: ofChar 'u' :: (digits' ++ s)))
        (String.utf8EncodeChar
          (Char.ofNat ((high - 0xd800) * 1024 + (low - 0xdc00) + 0x10000)) ++ t)

/-! ### Values -/

/-- The brackets of a list or object. -/
def Frame.brackets : Frame → Char × Char
  | list => ('[', ']')
  | object => ('{', '}')

/-- The key of a member with its quotes and the colon, and whitespace around each of them. -/
inductive KeyText (key : List Byte) : List Byte → Prop where
  | quoted {w w' w'' : List Byte} (hw : White w) (hw' : White w') (hw'' : White w'') :
      KeyText key (w ++ ofChar '"' :: (key ++ ofChar '"' :: (w' ++ ofChar ':' :: w'')))

/-- What stands before a value in a list or object. -/
inductive Lead : Frame → List Byte → Prop where
  | list {w : List Byte} (hw : White w) : Lead .list w
  | object {key l : List Byte} (hkey : StringText key) (hl : KeyText key l) : Lead .object l

/-- What a text can be a text of. -/
inductive Part where
  | value
  /-- The elements of a list or the members of an object, one or more of them. -/
  | elements (frame : Frame)

/-- **The grammar of JSON.** -/
inductive Written : Part → List Byte → Prop where
  | word {word : List Char}
      (h : word ∈ [['n', 'u', 'l', 'l'], ['t', 'r', 'u', 'e'], ['f', 'a', 'l', 's', 'e']]) :
      Written .value (word.map ofChar)
  | string {s : List Byte} (hs : StringText s) : Written .value (ofChar '"' :: (s ++ [ofChar '"']))
  | number {sign w f e : List Byte} (hsign : sign = [] ∨ sign = [ofChar '-']) (hw : Whole w)
      (hf : Fraction f) (he : Exponent e) : Written .value (sign ++ (w ++ (f ++ e)))
  | empty (frame : Frame) {w : List Byte} (hw : White w) :
      Written .value (ofChar frame.brackets.1 :: (w ++ [ofChar frame.brackets.2]))
  | group {frame : Frame} {s : List Byte} (hs : Written (.elements frame) s) :
      Written .value (ofChar frame.brackets.1 :: (s ++ [ofChar frame.brackets.2]))
  | last {frame : Frame} {l v w : List Byte} (hl : Lead frame l) (hv : Written .value v)
      (hw : White w) : Written (.elements frame) (l ++ (v ++ w))
  | more {frame : Frame} {l v w s : List Byte} (hl : Lead frame l) (hv : Written .value v)
      (hw : White w) (hs : Written (.elements frame) s) :
      Written (.elements frame) (l ++ (v ++ (w ++ ofChar ',' :: s)))

end TypeErasure.Json
