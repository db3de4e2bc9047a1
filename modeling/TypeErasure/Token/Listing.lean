import TypeErasure.Json
import TypeErasure.Token

/-!
# Token listings

The tokens of a text as JSON: a list of objects with the kind, the range and the text of each token.
A kind that has a parameter is an object with one member.
-/

namespace TypeErasure

/-- The name of the shape in listings. -/
def Bracket.name : Bracket → String
  | round => "Round"
  | square => "Square"
  | curly => "Curly"
  | angle => "Angle"

/-- The group in listings. -/
def CharGroup.json : CharGroup → Json
  | whitespace => .ofString "Whitespace"
  | newline => .ofString "Newline"
  | quote => .ofString "Quote"
  | operator => .ofString "Operator"
  | separator => .ofString "Separator"
  | opening shape => .object [("Open", .ofString shape.name)]
  | closing shape => .object [("Close", .ofString shape.name)]
  | word => .ofString "Word"

/-- The kind of token in listings. -/
def TokenKind.json : TokenKind → Json
  | newline => .ofString "Newline"
  | word => .ofString "Word"
  | operator => .ofString "Operator"
  | separator => .ofString "Separator"
  | opening shape => .object [("Open", .ofString shape.name)]
  | closing shape => .object [("Close", .ofString shape.name)]
  | literal kind => .object [("Literal", .ofString kind.name)]

/-- The range in listings. -/
def Span.json (s : Span) : Json :=
  .object [("start", .nat s.start), ("end", .nat s.stop)]

/-- The token in listings. -/
def Token.json (t : Token) : Json :=
  .object [("kind", t.kind.json), ("span", t.span.json), ("text", .text t.text)]

/-- **The listing of a text**: its tokens as a JSON list. -/
def listing (b : Bytes) : Json :=
  .list ((tokenize b).toList.map Token.json)

end TypeErasure
