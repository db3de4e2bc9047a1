import TypeErasure.Delimiter
import TypeErasure.Patch

/-!
# Return types

`(…): Type` before a function body or an arrow. The colon has to follow a parameter list: a group in
round brackets that belongs to no control statement and does not stand in a conditional expression,
whose colon looks the same.
-/

namespace TypeErasure

/-- The words that are followed by an expression in round brackets, which is no parameter list. -/
def controlWords : List String :=
  ["if", "while", "for", "switch", "catch", "with", "case"]

/-- Looks for the `?` of a conditional expression, on the way back within its line. The signs `?.`
and `??` are none. -/
def visitConditional (b : Bytes) (k : Nat) : Visit Nat Bool :=
  if b.satAt k (·.among ['\n', ';']) then .halt false
  else if b.isAt k '?' && !b.satAt (k + 1) (·.among ['.', '?']) && !b.isBefore k '?' then .halt true
  else .go 0

/-- The group that opens at offset `o` stands in the middle branch of a conditional expression. -/
def inConditional (b : Bytes) (o : Nat) : Bool :=
  (scanBack b (visitOutside b (fun _ => false) (visitConditional b)) 0 o).getD false

/-- The round bracket at offset `o` opens a group that can be a parameter list. -/
def canOpenParameters (b : Bytes) (o : Nat) : Bool :=
  b.isAt o '(' &&
    !((lastCode b o).any fun p => b.isAt p '?' || wordBefore b (p + 1) controlWords) &&
    !inConditional b o

/-- The code before the colon at offset `colon` is a parameter list. -/
def followsParameters (b : Bytes) (colon : Nat) : Bool :=
  let close := b.trimEnd 0 colon
  b.isBefore close ')' && (enclosingOpen b (close - 1)).any (canOpenParameters b)

/-- Where to start looking for the end of the type that starts at offset `i`: after a leading object
or function type, which may hold the delimiters that end a return type. There is no such place if
that type never closes. -/
def skipLeadingGroup (b : Bytes) (i : Nat) : Option Nat :=
  if b.satAt i (·.among ['{', '(']) then
    let close := findClose b .type (i + 1)
    if close < b.size then
      let arrow := b.skipSpace (close + 1)
      if b.isAt i '(' && b.hasAt arrow "=>" then some (arrow + 2) else some (close + 1)
    else none
  else some i

/-- The end of the return type after the colon at offset `colon`, if that colon announces one: the
type is not empty and runs up to a body or an arrow. -/
def returnTypeStop (b : Bytes) (colon : Nat) : Option Nat :=
  if followsParameters b colon then
    match skipLeadingGroup b (b.skipSpace (colon + 1)) with
    | none => none
    | some i =>
      let stop := findStop b .type
        (fun i => b.satAt i (·.among ['{', ';']) || (b.isAt i '=' && b.isAt (i + 1) '>') ||
          endsLine b (colon + 1) i) i
      let trimmed := b.trimEnd (colon + 1) stop
      if b.satAt stop (·.among ['{', '=']) && colon + 1 < trimmed then some trimmed else none
  else none

/-- A return type has its colon at offset `i`. -/
def returnTypeAt (b : Bytes) (i : Nat) : Option Match :=
  if b.isAt i ':' && !b.isAt (i + 1) ':' && (returnTypeStop b i).isSome then
    some ⟨.returnType, ⟨i, i + 1⟩⟩
  else none

/-- A return type is commented out with its colon. -/
def returnTypePatch (b : Bytes) (m : Match) : Patch :=
  .erase b m.start ((returnTypeStop b m.start).getD m.stop)

end TypeErasure
