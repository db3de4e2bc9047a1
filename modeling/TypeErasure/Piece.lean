import TypeErasure.Bytes

/-!
# Pieces: text kept and text commented out

The eraser divides a text into pieces. A kept piece stands in the output as it is, an erased one as
a block comment with the same text, so that the output has the same lines and nothing is lost.

`Bytes.commentOut` makes the comment. The text may hold the end of a comment itself; a space is put
into every `*/` so that only the last one closes.
-/

namespace TypeErasure

/-- Puts a space into every `*/`. -/
def breakClosers : List Byte → List Byte
  | [] => []
  | c :: rest =>
    if c.is '*' && rest.head?.any (·.is '/') then c :: 32 :: breakClosers rest
    else c :: breakClosers rest

/-- A block comment that holds the text. -/
def Bytes.commentOut (b : Bytes) : Bytes :=
  Bytes.ofString "/*" ++ (breakClosers b.toList).toArray ++ Bytes.ofString "*/"

/-- A part of a source text with its fate. -/
inductive Piece where
  | kept (text : Bytes)
  | erased (text : Bytes)
  deriving DecidableEq, Repr

namespace Piece

/-- The piece in the source. -/
def source : Piece → Bytes
  | kept text => text
  | erased text => text

/-- The piece in the output. -/
def output : Piece → Bytes
  | kept text => text
  | erased text => text.commentOut

/-- The source text that consecutive pieces make up. -/
def sourceOf (pieces : List Piece) : Bytes :=
  (pieces.map source).foldr (· ++ ·) #[]

/-- The output text of consecutive pieces. -/
def outputOf (pieces : List Piece) : Bytes :=
  (pieces.map output).foldr (· ++ ·) #[]

end Piece

end TypeErasure
