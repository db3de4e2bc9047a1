import TypeErasure.Delimiter
import TypeErasure.Patch

/-!
# Statements that hold nothing but types

`interface`, `declare` and `type` statements, each with or without `export`. They are recognised
only where a statement can start, and are commented out whole.
-/

namespace TypeErasure

/-! ### Where a statement starts -/

/-- A statement can start at offset `i`: only blanks are between it and the start of the text, a
line break, a `;`, a curly bracket or the end of a block comment. -/
def atStatementStart (b : Bytes) (i : Nat) : Bool :=
  let k := b.runStart Byte.isBlank i
  k == 0 || b.satAt (k - 1) (·.among ['\n', '\r', ';', '{', '}']) || closesComment b (k - 1)

/-- The offset after the keyword of a statement that starts at offset `i`, with `export` before the
keyword or without. -/
def statementKeyword (b : Bytes) (i : Nat) (word : String) : Option Nat :=
  let exported := keywordAt b i "export"
  let start := if exported then b.skipBlanks (i + 6) else i
  if atStatementStart b i && (!exported || i + 6 < start) && keywordAt b start word then
    some (start + (Bytes.ofString word).size)
  else none

/-- Like `statementKeyword`, with blanks and a name after the keyword. -/
def namedStatement (b : Bytes) (i : Nat) (word : String) : Option Nat :=
  (statementKeyword b i word).filter fun after =>
    after < b.skipBlanks after && b.satAt (b.skipBlanks after) Byte.isNameStart

/-! ### Bodies -/

/-- The patch that comments out a declaration from `start` to `stop`, where either its body starts
or it ends. -/
def declarationPatch (b : Bytes) (m : Match) (stop : Nat) : Patch :=
  if b.isAt stop '{' then
    let close := findClose b .type (stop + 1)
    if close < b.size then .erase b m.start (close + 1)
    else { Patch.erase b m.start b.size with notices := [.neverClosed m.kind m.start] }
  else .erase b m.start (statementStop b m.start stop)

/-! ### Interfaces -/

/-- An interface declaration starts at offset `i`. -/
def interfaceAt (b : Bytes) (i : Nat) : Option Match :=
  (namedStatement b i "interface").map fun after => ⟨.interface, ⟨i, after⟩⟩

/-- An interface declaration is commented out through the end of its body. -/
def interfacePatch (b : Bytes) (m : Match) : Patch :=
  declarationPatch b m (findStop b .type (fun i => b.satAt i (·.among ['{', ';'])) m.stop)

/-! ### Ambient declarations -/

/-- An ambient declaration starts at offset `i`. -/
def ambientAt (b : Bytes) (i : Nat) : Option Match :=
  (namedStatement b i "declare").map fun after => ⟨.ambient, ⟨i, after⟩⟩

/-- An ambient declaration is commented out through its `;`, its body, or its last line. -/
def ambientPatch (b : Bytes) (m : Match) : Patch :=
  declarationPatch b m <|
    findStop b .type (fun i => b.satAt i (·.among [';', '{']) || endsLine b m.stop i) m.stop

/-! ### Type aliases -/

/-- The first offset after the type parameters that may start at offset `i`, and after whitespace.
There is none if the list of parameters never closes. -/
def skipTypeParameters (b : Bytes) (i : Nat) : Option Nat :=
  if b.isAt i '<' then
    let close := findClose b .type (i + 1)
    if b.isAt close '>' then some (b.skipSpace (close + 1)) else none
  else some i

/-- A type alias starts at offset `i`. The match reaches through its `=`. -/
def typeAliasAt (b : Bytes) (i : Nat) : Option Match := do
  let after ← statementKeyword b i "type"
  let name := b.skipBlanks after
  let stop := nameStop b name
  if after < name && name < stop then
    let eq ← skipTypeParameters b (b.skipSpace stop)
    if isAssign b eq then some ⟨.typeAlias, ⟨i, eq + 1⟩⟩ else none
  else none

/-- A type alias is commented out through its `;` or its last line. -/
def typeAliasPatch (b : Bytes) (m : Match) : Patch :=
  .erase b m.start <| statementStop b m.start <|
    findStop b .type (fun i => b.isAt i ';' || endsLine b m.stop i) m.stop

end TypeErasure
