import TypeErasure.Bytes

/-!
# Data as indented JSON

`Json.render` writes a value in the indented form: two blanks per level, each item and member on a
line of its own, a blank behind the colon, and empty lists and objects closed at once. Strings are
written as they are, except for quotes, backslashes and control characters.
-/

namespace TypeErasure

/-- A JSON value made of natural numbers, strings, lists and objects. -/
inductive Json where
  | nat (n : Nat)
  | text (s : Bytes)
  | list (items : List Json)
  | object (members : List (String × Json))

namespace Json

/-- The value of a string. -/
def ofString (s : String) : Json :=
  text (Bytes.ofString s)

/-! ### Strings -/

/-- One hexadecimal digit. -/
def hexDigit (n : Nat) : Char :=
  if n < 10 then Char.ofNat (48 + n) else Char.ofNat (87 + n)

/-- A byte within a string. Control characters have a short form or are given by their number. -/
def escape (c : Byte) : Bytes :=
  if c.is '"' then Bytes.ofString "\\\""
  else if c.is '\\' then Bytes.ofString "\\\\"
  else if c.is '\x08' then Bytes.ofString "\\b"
  else if c.is '\x0c' then Bytes.ofString "\\f"
  else if c.is '\n' then Bytes.ofString "\\n"
  else if c.is '\r' then Bytes.ofString "\\r"
  else if c.is '\t' then Bytes.ofString "\\t"
  else if c.toNat < 32 then
    Bytes.ofString (String.ofList
      ['\\', 'u', '0', '0', hexDigit (c.toNat / 16), hexDigit (c.toNat % 16)])
  else #[c]

/-- A string in quotes. -/
def quote (s : Bytes) : Bytes :=
  Bytes.ofString "\"" ++ s.flatMap escape ++ Bytes.ofString "\""

/-! ### Layout -/

/-- A line break and the indentation of the given level. -/
def newline (level : Nat) : Bytes :=
  Bytes.ofString "\n" ++ Array.replicate (2 * level) 32

/-- Lines one level further in between two brackets, parted by commas. -/
def enclose (level : Nat) (opening closing : String) : List Bytes → Bytes
  | [] => Bytes.ofString opening ++ Bytes.ofString closing
  | first :: rest =>
    Bytes.ofString opening ++ newline (level + 1) ++ first ++
      rest.foldl (fun out line => out ++ Bytes.ofString "," ++ newline (level + 1) ++ line) #[] ++
      newline level ++ Bytes.ofString closing

mutual

/-- The value in the indented form, where its first line is already indented to `level`. -/
def renderAt (level : Nat) : Json → Bytes
  | nat n => Bytes.ofString (toString n)
  | text s => quote s
  | list items => enclose level "[" "]" (renderItems level items)
  | object members => enclose level "\x7b" "\x7d" (renderMembers level members)

/-- The lines of a list. -/
def renderItems (level : Nat) : List Json → List Bytes
  | [] => []
  | item :: rest => renderAt (level + 1) item :: renderItems level rest

/-- The lines of an object. -/
def renderMembers (level : Nat) : List (String × Json) → List Bytes
  | [] => []
  | (key, value) :: rest =>
    (quote (Bytes.ofString key) ++ Bytes.ofString ": " ++ renderAt (level + 1) value) ::
      renderMembers level rest

end

/-- **The value in the indented form.** -/
def render (v : Json) : Bytes :=
  renderAt 0 v

end Json

end TypeErasure
