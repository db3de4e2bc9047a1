import TypeErasure.Delimiter
import TypeErasure.Patch

/-!
# Lists of type parameters and arguments

A `<` right after a name opens such a list if everything up to the matching `>` can stand in a type
and the list is followed by something that cannot follow a comparison: a round or curly bracket, or
a heritage clause.
-/

namespace TypeErasure

/-- The brackets that are open within a list of type arguments, by shape. -/
structure OpenBrackets where
  angle : Nat := 0
  round : Nat := 0
  square : Nat := 0
  curly : Nat := 0
  deriving DecidableEq, Repr

namespace OpenBrackets

/-- Opens a bracket other than the angle bracket, or closes one that is open. Any other byte is not
counted. -/
def count (o : OpenBrackets) (c : Byte) : Option OpenBrackets :=
  if c.is '(' then some { o with round := o.round + 1 }
  else if c.is '[' then some { o with square := o.square + 1 }
  else if c.is '{' then some { o with curly := o.curly + 1 }
  else if c.is ')' then if o.round = 0 then none else some { o with round := o.round - 1 }
  else if c.is ']' then if o.square = 0 then none else some { o with square := o.square - 1 }
  else if c.is '}' then if o.curly = 0 then none else some { o with curly := o.curly - 1 }
  else some o

/-- No bracket is open but angle brackets. -/
def onlyAngle (o : OpenBrackets) : Bool :=
  o.round == 0 && o.square == 0 && o.curly == 0

end OpenBrackets

/-- The byte at offset `i`, which is no bracket and no quote, can stand in a type. `==`, `!=`, `&&`
and `||` cannot, and a `;` only within curly brackets. -/
def fitsType (b : Bytes) (o : OpenBrackets) (i : Nat) (c : Byte) : Bool :=
  if c.is '=' then !(b.isAt (i + 1) '=' || b.isBefore i '=' || b.isBefore i '!')
  else if c.among ['&', '|'] then !b.satAt (i + 1) (· == c)
  else if c.is ';' then o.curly != 0
  else c.isNamePart || c.isSpace || c.among [',', '.', '?', ':', '-']

/-- The `>` that closes the list of type arguments, searched for from offset `i` on with the given
brackets open. -/
def typeListClose (b : Bytes) (o : OpenBrackets) (i : Nat) : Option Nat :=
  match _hi : b[i]? with
  | none => none
  | some c =>
    if c.is '<' then typeListClose b { o with angle := o.angle + 1 } (i + 1)
    else if c.is '>' then
      if b.isBefore i '=' then typeListClose b o (i + 1)
      else if o.angle = 1 then if o.onlyAngle then some i else none
      else typeListClose b { o with angle := o.angle - 1 } (i + 1)
    else if c.isQuote then
      match _hl : literalAt b i with
      | none => none
      | some l => typeListClose b o l.span.stop
    else if c.isOpener || c.isCloser then
      match o.count c with
      | none => none
      | some o => typeListClose b o (i + 1)
    else if fitsType b o i c then typeListClose b o (i + 1)
    else none
termination_by b.size - i
decreasing_by
  all_goals
    have := (Array.getElem?_eq_some_iff.mp _hi).1
    try have := lt_stop_of_literalAt _hl
    omega

/-- The code at offset `i` shows that a list of type arguments ended before it. -/
def followsTypeList (b : Bytes) (i : Nat) : Bool :=
  b.satAt i (·.among ['(', '{']) || keywordAt b i "extends" || keywordAt b i "implements"

/-- A list of type parameters or arguments opens at offset `i`. -/
def typeArgumentsAt (b : Bytes) (i : Nat) : Option Match :=
  if 0 < i && b.isAt i '<' && b.satAt (i - 1) Byte.isNamePart &&
      !b.satAt (i + 1) (·.among ['<', '=']) then
    match typeListClose b {} i with
    | none => none
    | some close =>
      if followsTypeList b (b.skipSpace (close + 1)) then some ⟨.typeArguments, ⟨i, close + 1⟩⟩
      else none
  else none

/-- A list of type arguments is commented out with its brackets. -/
def typeArgumentsPatch (b : Bytes) (m : Match) : Patch :=
  .erase b m.start m.stop

end TypeErasure
