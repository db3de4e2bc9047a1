import TypeErasure.Bytes

/-!
# Literals

Comments, strings, templates and regular expressions: the parts of a source text whose contents
mean nothing to the rest of it. `literalAt` classifies the literal that starts at a given offset
and finds its end.

* A string or template runs to the next copy of its opening quote that no backslash precedes; the
  substitutions of a template are not looked into.
* A block comment runs to the first `*/` after its opening two bytes.
* A `/` opens a regular expression only where a division makes no sense: not after an operand, and
  only if a closing `/` is found before the line ends. A `/` between square brackets does not close
  it.

Main statements: a literal lies within the text and is not empty (`lt_stop_of_literalAt`,
`stop_le_of_literalAt`).
-/

namespace TypeErasure

/-- A range of offsets: `start` belongs to it and `stop` does not. -/
structure Span where
  start : Nat
  stop : Nat
  deriving DecidableEq, Repr

namespace Span

/-- The number of bytes in the range. -/
def length (s : Span) : Nat :=
  s.stop - s.start

/-- The range holds no byte. -/
def isEmpty (s : Span) : Bool :=
  s.start == s.stop

/-- The bytes of `b` in the range. -/
def text (s : Span) (b : Bytes) : Bytes :=
  b.slice s.start s.stop

end Span

/-- The kinds of literal. -/
inductive LiteralKind where
  | lineComment
  | blockComment
  | string
  | template
  | regex
  deriving DecidableEq, Repr

namespace LiteralKind

/-- The name of the kind in token listings. -/
def name : LiteralKind → String
  | lineComment => "LineComment"
  | blockComment => "BlockComment"
  | string => "String"
  | template => "Template"
  | regex => "Regex"

/-- Line and block comments. -/
def isComment : LiteralKind → Bool
  | lineComment | blockComment => true
  | _ => false

end LiteralKind

/-- A literal of a text. It is not terminated if its closing delimiter is missing, in which case it
runs to the end of the text. -/
structure Literal where
  kind : LiteralKind
  span : Span
  terminated : Bool
  deriving DecidableEq, Repr

/-! ### Closing delimiters

Each function gives the offset right after the closing delimiter, if there is one. -/

/-- After the first copy of `quote` at or after offset `j` that is not escaped. -/
def quoteClose (b : Bytes) (quote : Byte) (j : Nat) : Option Nat :=
  if h : j < b.size then
    if b[j].is '\\' then quoteClose b quote (j + 2)
    else if b[j] == quote then some (j + 1)
    else quoteClose b quote (j + 1)
  else none
termination_by b.size - j

/-- After the first `*/` at or after offset `j`. -/
def blockClose (b : Bytes) (j : Nat) : Option Nat :=
  firstIn (fun k => if b.isAt k '*' && b.isAt (k + 1) '/' then some (k + 2) else none) j b.size

/-- After the `/` that closes a regular expression, searched from offset `j` on; `inClass` says that
a square bracket is open. A line break ends the search unless a backslash precedes it. -/
def regexClose (b : Bytes) (inClass : Bool) (j : Nat) : Option Nat :=
  if h : j < b.size then
    if b[j].is '\\' then regexClose b inClass (j + 2)
    else if b[j].among ['\n', '\r'] then none
    else if b[j].is '[' then regexClose b true (j + 1)
    else if b[j].is ']' then regexClose b false (j + 1)
    else if b[j].is '/' && !inClass then some (j + 1)
    else regexClose b inClass (j + 1)
  else none
termination_by b.size - j

/-! ### Division or regular expression -/

/-- The words after which an expression starts, so that a `/` cannot be a division. -/
def expressionWords : List String :=
  ["return", "typeof", "instanceof", "case", "do", "else", "in", "of", "new", "delete", "void",
    "throw", "yield", "await"]

/-- An operand ends before offset `i`: a closing round or square bracket, or a word that does not
announce an expression. -/
def endsOperand (b : Bytes) (i : Nat) : Bool :=
  match b.lastInk i with
  | none => false
  | some p =>
    if b.satAt p (·.among [')', ']']) then true
    else if b.satAt p Byte.isNamePart then
      let word := b.slice (b.runStart Byte.isNamePart (p + 1)) (p + 1)
      !expressionWords.any fun w => Bytes.ofString w == word
    else false

/-- A byte right after a `/` that rules out a regular expression. -/
def refusesRegex (c : Byte) : Bool :=
  c.isSpace || c.isDigit || c.among ['/', '*']

/-- The end of the regular expression that the `/` at offset `i` opens, with its flags. -/
def regexStop (b : Bytes) (i : Nat) : Option Nat :=
  match b[i + 1]? with
  | none => none
  | some c =>
    if refusesRegex c || endsOperand b i then none
    else (regexClose b false (i + 1)).map (b.skipWhile Byte.isLetter)

/-! ### Classification -/

/-- A literal from offset `i` to its closing delimiter, or to the end of the text if that is
missing. -/
def Literal.closedBy (kind : LiteralKind) (b : Bytes) (i : Nat) : Option Nat → Literal
  | some stop => ⟨kind, ⟨i, stop⟩, true⟩
  | none => ⟨kind, ⟨i, b.size⟩, false⟩

/-- The literal whose opening delimiter stands at offset `i`. -/
def literalAt (b : Bytes) (i : Nat) : Option Literal :=
  match b[i]? with
  | none => none
  | some c =>
    if c.is '/' then
      if b.isAt (i + 1) '/' then
        some ⟨.lineComment, ⟨i, b.skipWhile (fun c => !c.is '\n') (i + 2)⟩, true⟩
      else if b.isAt (i + 1) '*' then
        some (Literal.closedBy .blockComment b i (blockClose b (i + 2)))
      else (regexStop b i).map fun stop => ⟨.regex, ⟨i, stop⟩, true⟩
    else if c.isQuote then
      some (Literal.closedBy .string b i (quoteClose b c (i + 1)))
    else if c.is '`' then
      some (Literal.closedBy .template b i (quoteClose b c (i + 1)))
    else none

/-! ### A literal lies within the text -/

/-- The closing quote lies at or behind the offset that it is searched from, and within the text. -/
theorem bounds_of_quoteClose {b : Bytes} {quote : Byte} {j stop : Nat}
    (h : quoteClose b quote j = some stop) : j < stop ∧ stop ≤ b.size := by
  fun_induction quoteClose b quote j with
  | case1 j _ _ ih => have := ih h; omega
  | case2 j hj => simp only [Option.some.injEq] at h; omega
  | case3 j _ _ _ ih => have := ih h; omega
  | case4 => simp at h

/-- The same for the `/` that closes a regular expression. Of the seven cases of the search three
give an answer or none, and the others pass the bounds on. -/
theorem bounds_of_regexClose {b : Bytes} {inClass : Bool} {j stop : Nat}
    (h : regexClose b inClass j = some stop) : j < stop ∧ stop ≤ b.size := by
  fun_induction regexClose b inClass j with
  | case2 => simp at h
  | case5 => simp only [Option.some.injEq] at h; omega
  | case7 => simp at h
  | case1 _ _ _ _ ih | case3 _ _ _ _ _ _ ih | case4 _ _ _ _ _ _ _ ih
  | case6 _ _ _ _ _ _ _ _ ih => have := ih h; omega

/-- A `*/` that is found has both its bytes at or behind the offset that it is searched from, and
within the text. -/
theorem bounds_of_blockClose {b : Bytes} {j stop : Nat} (h : blockClose b j = some stop) :
    j + 2 ≤ stop ∧ stop ≤ b.size := by
  obtain ⟨k, hlo, hhi, hk⟩ := exists_of_firstIn_eq_some h
  split at hk
  · rename_i hclose
    have := Bytes.lt_size_of_isAt (Bool.and_eq_true_iff.mp hclose).2
    simp only [Option.some.injEq] at hk
    omega
  · simp at hk

/-- A regular expression is not empty and ends within the text, its flags included. -/
private theorem bounds_of_regexStop {b : Bytes} {i stop : Nat} (h : regexStop b i = some stop) :
    i < stop ∧ stop ≤ b.size := by
  unfold regexStop at h
  split at h
  · simp at h
  · split at h
    · simp at h
    · obtain ⟨k, hk, rfl⟩ := Option.map_eq_some_iff.mp h
      have hb := bounds_of_regexClose hk
      have := b.le_skipWhile Byte.isLetter k
      have := Bytes.skipWhile_le_size (p := Byte.isLetter) hb.2
      omega

/-- A literal is not empty and ends within the text if this is so whenever its closing delimiter is
found. Without one it runs to the end of the text, and its first byte is in it. -/
private theorem Literal.bounds_closedBy {kind : LiteralKind} {b : Bytes} {i : Nat}
    {close : Option Nat} (hi : i < b.size)
    (h : ∀ stop, close = some stop → i < stop ∧ stop ≤ b.size) :
    i < (closedBy kind b i close).span.stop ∧ (closedBy kind b i close).span.stop ≤ b.size := by
  cases close with
  | none => exact ⟨hi, Nat.le_refl _⟩
  | some stop => exact h stop rfl

/-- **A literal is not empty and ends within the text.** Each kind of literal brings the bounds of
the search for its closing delimiter. -/
theorem bounds_of_literalAt {b : Bytes} {i : Nat} {l : Literal} (h : literalAt b i = some l) :
    i < l.span.stop ∧ l.span.stop ≤ b.size := by
  have hi : i < b.size := by
    by_cases hi : i < b.size
    · exact hi
    · rw [literalAt, Array.getElem?_eq_none (by omega)] at h
      simp at h
  unfold literalAt at h
  split at h
  · simp at h
  · split at h
    · split at h
      · -- a line comment ends where its line does
        rename_i hslash
        obtain rfl := Option.some.inj h
        have := Bytes.lt_size_of_isAt hslash
        have := b.le_skipWhile (fun c => !c.is '\n') (i + 2)
        have := Bytes.skipWhile_le_size (b := b) (p := fun c => !c.is '\n') (i := i + 2) (by omega)
        simp only
        omega
      · split at h
        · -- a block comment
          obtain rfl := Option.some.inj h
          exact Literal.bounds_closedBy hi fun stop hs => by
            have := bounds_of_blockClose hs
            omega
        · -- a regular expression
          obtain ⟨stop, hs, rfl⟩ := Option.map_eq_some_iff.mp h
          exact bounds_of_regexStop hs
    · split at h
      · -- a string
        obtain rfl := Option.some.inj h
        exact Literal.bounds_closedBy hi fun stop hs => by
          have := bounds_of_quoteClose hs
          omega
      · split at h
        · -- a template
          obtain rfl := Option.some.inj h
          exact Literal.bounds_closedBy hi fun stop hs => by
            have := bounds_of_quoteClose hs
            omega
        · simp at h

theorem lt_stop_of_literalAt {b : Bytes} {i : Nat} {l : Literal} (h : literalAt b i = some l) :
    i < l.span.stop :=
  (bounds_of_literalAt h).1

theorem stop_le_of_literalAt {b : Bytes} {i : Nat} {l : Literal} (h : literalAt b i = some l) :
    l.span.stop ≤ b.size :=
  (bounds_of_literalAt h).2

/-- The first literal of the given kind that starts at an offset from `lo` up to `hi`. -/
def findLiteral (b : Bytes) (kind : LiteralKind) (lo hi : Nat) : Option Literal :=
  firstIn (fun i => (literalAt b i).filter fun l => l.kind == kind) lo (min hi b.size)

end TypeErasure
