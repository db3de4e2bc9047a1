import TypeErasure.Literal

/-!
# Tokens

`tokenize` cuts a text into tokens by the group that each byte belongs to. Bytes of one group that
stand together make one token, except that brackets and separators always stand alone; spaces and
tabs only part tokens, while line breaks are kept, because they can end a statement. A literal is
one token, whatever it contains.

`groupEnd` finds the token that closes a bracket group. Brackets are counted without regard to
their shape, and the head of an arrow `=>` closes nothing.
-/

namespace TypeErasure

/-- The shapes of bracket. -/
inductive Bracket where
  | round
  | square
  | curly
  | angle
  deriving DecidableEq, Repr

/-- The groups of bytes. `word` holds names, numbers, member chains and all that has no group of its
own. -/
inductive CharGroup where
  | whitespace
  | newline
  | quote
  | operator
  | separator
  | opening (shape : Bracket)
  | closing (shape : Bracket)
  | word
  deriving DecidableEq, Repr

/-- The bracket that a byte opens. -/
def Byte.opens? (c : Byte) : Option Bracket :=
  if c.is '(' then some .round
  else if c.is '[' then some .square
  else if c.is '{' then some .curly
  else if c.is '<' then some .angle
  else none

/-- The bracket that a byte closes. -/
def Byte.closes? (c : Byte) : Option Bracket :=
  if c.is ')' then some .round
  else if c.is ']' then some .square
  else if c.is '}' then some .curly
  else if c.is '>' then some .angle
  else none

/-- The group of a byte. -/
def Byte.group (c : Byte) : CharGroup :=
  if c.isBlank then .whitespace
  else if c.among ['\r', '\n'] then .newline
  else if c.among ['\'', '"', '`'] then .quote
  else if c.among ['+', '-', '*', '/', '%', '&', '|', '!', '^', '~'] then .operator
  else if c.among ['?', ':', '=', ',', ';'] then .separator
  else match c.opens?, c.closes? with
    | some shape, _ => .opening shape
    | none, some shape => .closing shape
    | none, none => .word

/-- What a token is. -/
inductive TokenKind where
  | newline
  | word
  | operator
  | separator
  | opening (shape : Bracket)
  | closing (shape : Bracket)
  | literal (kind : LiteralKind)
  deriving DecidableEq, Repr

/-- A token with its place and its text. -/
structure Token where
  kind : TokenKind
  span : Span
  text : Bytes
  deriving DecidableEq, Repr

/-! ### Cutting a text into tokens -/

/-- The kind of a token that starts with a byte of the given group and starts no literal. A quote
always starts a literal, so its entry is only nominal. -/
def CharGroup.tokenKind? : CharGroup → Option TokenKind
  | whitespace => none
  | newline => some .newline
  | quote => some .separator
  | operator => some .operator
  | separator => some .separator
  | opening shape => some (.opening shape)
  | closing shape => some (.closing shape)
  | word => some .word

/-- The groups whose bytes join into longer tokens. -/
def CharGroup.joins : CharGroup → Bool
  | newline | operator | word => true
  | _ => false

/-- The end of the run of bytes of group `g` that starts no literal, from offset `i` on. -/
def groupRunStop (b : Bytes) (g : CharGroup) (i : Nat) : Nat :=
  if h : i < b.size then
    if b[i].group = g ∧ literalAt b i = none then groupRunStop b g (i + 1) else i
  else i
termination_by b.size - i

/-- A run of bytes of one group does not end before it starts. -/
private theorem le_groupRunStop (b : Bytes) (g : CharGroup) (i : Nat) : i ≤ groupRunStop b g i := by
  fun_induction groupRunStop b g i with
  | case1 => omega
  | case2 => exact Nat.le_refl _
  | case3 => exact Nat.le_refl _

/-- The end of the token that starts at offset `i` with a byte of group `g`. -/
def groupTokenStop (b : Bytes) (g : CharGroup) (i : Nat) : Nat :=
  if g.joins then groupRunStop b g (i + 1) else i + 1

/-- A token is not empty: its first byte belongs to it whatever follows. This is what makes the
cutting of a text end. -/
theorem lt_groupTokenStop (b : Bytes) (g : CharGroup) (i : Nat) : i < groupTokenStop b g i := by
  unfold groupTokenStop
  split
  · exact le_groupRunStop b g (i + 1)
  · exact Nat.lt_succ_self i

/-- The token with the given kind and range. -/
def Token.at (b : Bytes) (kind : TokenKind) (span : Span) : Token :=
  ⟨kind, span, span.text b⟩

/-- The tokens of a text from offset `i` on. -/
def tokensFrom (b : Bytes) (i : Nat) : List Token :=
  if h : i < b.size then
    match _hl : literalAt b i with
    | some l => .at b (.literal l.kind) l.span :: tokensFrom b l.span.stop
    | none =>
      let g := b[i].group
      let stop := groupTokenStop b g i
      match g.tokenKind? with
      | none => tokensFrom b stop
      | some kind => .at b kind ⟨i, stop⟩ :: tokensFrom b stop
  else []
termination_by b.size - i
decreasing_by
  · have := lt_stop_of_literalAt _hl
    omega
  all_goals
    have := lt_groupTokenStop b b[i].group i
    omega

/-- **The tokens of a text**, in order. -/
def tokenize (b : Bytes) : Array Token :=
  (tokensFrom b 0).toArray

/-! ### Bracket groups -/

/-- The token at index `i` is the `>` of an arrow: the token before it is a `=` that it touches. -/
def isArrowHead (tokens : Array Token) (i : Nat) : Bool :=
  match tokens[i - 1]?, tokens[i]? with
  | some prev, some head =>
    0 < i && head.kind == .closing .angle && prev.text == Bytes.ofString "=" &&
      prev.span.stop == head.span.start
  | _, _ => false

/-- The index of the token that brings the bracket depth to zero, from index `i` on, where `depth`
brackets are open. It is the number of tokens if there is none. The depth has no bound here; a
counter of 32 bits with a sign agrees with it as long as fewer than `2 ^ 31` brackets are open at
once. -/
def groupEndFrom (tokens : Array Token) (depth : Nat) (i : Nat) : Nat :=
  if h : i < tokens.size then
    match tokens[i].kind with
    | .opening _ => groupEndFrom tokens (depth + 1) (i + 1)
    | .closing _ =>
      if isArrowHead tokens i then groupEndFrom tokens depth (i + 1)
      else if depth ≤ 1 then i
      else groupEndFrom tokens (depth - 1) (i + 1)
    | _ => groupEndFrom tokens depth (i + 1)
  else tokens.size
termination_by tokens.size - i

/-- **The end of a bracket group**: the index of the token that closes the group opened at index
`i`, or the number of tokens if the group never closes. -/
def groupEnd (tokens : Array Token) (i : Nat) : Nat :=
  groupEndFrom tokens 0 i

end TypeErasure
