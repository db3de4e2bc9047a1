import TypeErasure.Delimiter
import TypeErasure.Patch

/-!
# Casts

`expr as Type`. The blank before `as` belongs to the construct, so that the comment touches the
operand. The `as` that renames an import or export is no cast.
-/

namespace TypeErasure

/-- A byte that can start the type of a cast. -/
def startsCastType (c : Byte) : Bool :=
  c.isNameStart || c.among ['{', '[', '(', '\'', '"']

/-- The place at offset `i` is in the curly brackets of an `import`, `export` or `type`, where `as`
gives a new name. -/
def inBindingList (b : Bytes) (i : Nat) : Bool :=
  (enclosingOpen b i).any fun o =>
    b.isAt o '{' && (b.lastInk o).any fun p => wordBefore b (p + 1) ["import", "export", "type"]

/-- An operand of a cast ends before offset `i`: it is not the `*` of a namespace import, and not
a word after which `as` is itself a variable. -/
def castOperandBefore (b : Bytes) (i : Nat) : Bool :=
  (b.lastInk i).any fun p => !b.isAt p '*' && !wordBefore b (p + 1) declarators

/-- A cast starts with the blank at offset `i`. -/
def castAt (b : Bytes) (i : Nat) : Option Match :=
  if b.satAt i Byte.isBlank && keywordAt b (i + 1) "as" && b.satAt (i + 3) Byte.isSpace &&
      b.satAt (b.skipSpace (i + 3)) startsCastType && castOperandBefore b i &&
      !inBindingList b i then
    some ⟨.cast, ⟨i, i + 3⟩⟩
  else none

/-- A cast is commented out up to a `;`, a `,` or the end of its line. -/
def castPatch (b : Bytes) (m : Match) : Patch :=
  .erase b m.start <| b.trimEnd m.start <|
    findStop b .type (fun i => b.satAt i (·.among [';', ',']) || endsLine b m.stop i) m.stop

end TypeErasure
