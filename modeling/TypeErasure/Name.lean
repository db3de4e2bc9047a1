import TypeErasure.Bytes

/-!
# Names and keywords

A name is a run of name bytes that does not start with a digit. A keyword is a name of fixed
spelling that stands alone: no name byte touches it, and it is not a member behind a dot.
-/

namespace TypeErasure

/-- The end of the name that starts at offset `i`, or `i` if no name starts there. -/
def nameStop (b : Bytes) (i : Nat) : Nat :=
  if b.satAt i Byte.isNameStart then b.skipWhile Byte.isNamePart i else i

/-- The end of a name does not lie before its start, also if there is no name. -/
theorem le_nameStop (b : Bytes) (i : Nat) : i ≤ nameStop b i := by
  unfold nameStop
  split
  · exact b.le_skipWhile _ i
  · exact Nat.le_refl i

/-- The start of the name that ends right before offset `stop`, or `stop` if no name ends there.
Digits in front of the name do not belong to it. -/
def nameStart (b : Bytes) (stop : Nat) : Nat :=
  min stop (b.skipWhile Byte.isDigit (b.runStart Byte.isNamePart stop))

/-- The start of the name before an offset does not lie behind the offset. The definition takes care
of that: digits alone would otherwise be skipped past it. -/
theorem nameStart_le (b : Bytes) (stop : Nat) : nameStart b stop ≤ stop :=
  Nat.min_le_left _ _

/-- The keyword `word` stands at offset `i`. -/
def keywordAt (b : Bytes) (i : Nat) (word : String) : Bool :=
  b.hasAt i word &&
    !(0 < i && b.satAt (i - 1) fun c => c.isNamePart || c.is '.') &&
    !b.satAt (i + (Bytes.ofString word).size) Byte.isNamePart

/-- The name that ends right before offset `stop` is one of `words`. -/
def wordBefore (b : Bytes) (stop : Nat) (words : List String) : Bool :=
  words.any fun w => Bytes.ofString w == b.slice (nameStart b stop) stop

/-- The words that declare variables. -/
def declarators : List String :=
  ["var", "let", "const"]

end TypeErasure
