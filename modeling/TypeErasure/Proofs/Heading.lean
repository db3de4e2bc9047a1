import TypeErasure.Proofs.AliasHead

/-!
# Headings

A heading is a line that holds a block comment and nothing else. It is put in front of a text, and
the question is what the scans make of it. Those that run forward never see it. Those that run
backward come to it where they would have come to the start of the text, and for each of them the
two have to be the same thing:

* a run of bytes ends at the line break (`Heading.runStart_append`);
* the nearest ink is the slash that ends the comment (`Heading.lastInk_append`), which is neither a
  name nor a sign that any rule asks for;
* a scan over code leaps over the comment, and has then come to the start of the text. So does one
  that has met a `*/` without a start: it takes the heading for the comment that ends there
  (`Heading.scanBack_append`).

The lemma `Heading.f_append` says of the scan `f` that behind a heading it gives the same answer,
with offsets counted from the heading on. This module goes up to the search for the end of a type;
the constructs are gone through in `TypeErasure.Proofs.Heading.Construct`.
-/

namespace TypeErasure

/-! ### Offsets behind a text -/

section Behind

variable (x b : Bytes)

/-- **A range behind a text is a range of what follows it.** Both are compared byte by byte. -/
theorem Bytes.slice_append_add (i j : Nat) :
    (x ++ b).slice (x.size + i) (x.size + j) = b.slice i j := by
  refine Array.ext_getElem? fun k => ?_
  -- both ranges are cut off at the end of the same text
  have hrange : min (x.size + j) (x.size + b.size) - (x.size + i) = min j b.size - i := by omega
  rw [slice, slice, Array.getElem?_extract, Array.getElem?_extract, Array.size_append, hrange,
    Nat.add_assoc, getElem?_append_add]

theorem Bytes.slice_append_from (i : Nat) :
    (x ++ b).slice (x.size + i) (x ++ b).size = b.slice i b.size := by
  rw [Array.size_append, slice_append_add]

/-- A word stands behind a text where it stands without it. -/
theorem Bytes.hasAt_append_right (i : Nat) (w : String) :
    (x ++ b).hasAt (x.size + i) w = b.hasAt i w := by
  rw [hasAt, hasAt, Nat.add_assoc, slice_append_add]

theorem Bytes.skipBlanks_append_right (i : Nat) :
    (x ++ b).skipBlanks (x.size + i) = x.size + b.skipBlanks i :=
  skipWhile_append_right x b Byte.isBlank i

theorem Bytes.skipSpace_append_right (i : Nat) :
    (x ++ b).skipSpace (x.size + i) = x.size + b.skipSpace i :=
  skipWhile_append_right x b Byte.isSpace i

theorem nameStop_append_right (i : Nat) :
    nameStop (x ++ b) (x.size + i) = x.size + nameStop b i := by
  rw [nameStop, nameStop, Bytes.satAt_append_right, Bytes.skipWhile_append_right]
  split <;> rfl

/-- The byte before an offset is the same unless the offset is the start of the text. There, what
stands before it is the end of `x`. -/
theorem Bytes.isBefore_append_right {i : Nat} (hi : 0 < i) (ch : Char) :
    (x ++ b).isBefore (x.size + i) ch = b.isBefore i ch := by
  rw [isBefore, isBefore, decide_eq_true hi, decide_eq_true (by omega), Nat.add_sub_assoc hi,
    isAt_append_right]

/-- The same whitespace is left off at the end of a range, by induction on that end. -/
theorem Bytes.trimEnd_append_right (start stop : Nat) :
    (x ++ b).trimEnd (x.size + start) (x.size + stop) = x.size + b.trimEnd start stop := by
  induction stop with
  | zero =>
    -- at the start of `b` nothing is left to trim
    rw [Nat.add_zero, trimEnd, Nat.add_zero]
    cases hsize : x.size with
    | zero => rfl
    | succ k =>
      rw [trimEnd, decide_eq_false (by omega), Bool.false_and]
      rfl
  | succ k ih =>
    have hlt : (x.size + start < x.size + k + 1) = (start < k + 1) := by
      rw [Nat.add_assoc, Nat.add_lt_add_iff_left]
    rw [← Nat.add_assoc, trimEnd, trimEnd, satAt_append_right, ih]
    simp only [hlt]
    split <;> rfl

/-- A search through a range finds behind a text what it finds without it. Here `e` moves what is
found. The induction follows the search without the text before it. -/
theorem firstIn_shift {α : Type} {f g : Nat → Option α} {e : α → α} {n lo : Nat}
    (h : ∀ k, lo ≤ k → f (n + k) = (g k).map e) (hi : Nat) :
    firstIn f (n + lo) (n + hi) = (firstIn g lo hi).map e := by
  fun_induction firstIn g lo hi with
  | case1 lo hlo a ha =>
    -- the answer stands at the first offset
    rw [firstIn, if_pos (Nat.add_lt_add_left hlo n), h lo (Nat.le_refl lo), ha]
    rfl
  | case2 lo hlo hnone ih =>
    -- nothing stands there, and the search goes on
    rw [firstIn, if_pos (Nat.add_lt_add_left hlo n), h lo (Nat.le_refl lo), hnone]
    exact ih fun k hk => h k (Nat.le_of_succ_le hk)
  | case3 lo hlo =>
    -- all offsets have been gone through
    rw [firstIn, if_neg (by omega)]
    rfl

/-! ### Closing delimiters -/

/-- A quote is closed at the same distance. The recursion is that of the search. -/
private theorem quoteClose_append_right (quote : Byte) (j : Nat) :
    quoteClose (x ++ b) quote (x.size + j) = (quoteClose b quote j).map (x.size + ·) := by
  rw [quoteClose_eq, quoteClose_eq b, Bytes.getElem?_append_add]
  cases hj : b[j]? with
  | none =>
    -- the text is over
    rfl
  | some c =>
    have hlt := (Array.getElem?_eq_some_iff.mp hj).1
    dsimp only
    rw [Nat.add_assoc, Nat.add_assoc, quoteClose_append_right quote (j + 2),
      quoteClose_append_right quote (j + 1)]
    split
    · rfl
    · split <;> rfl
termination_by b.size - j

/-- A block comment is closed at the same distance. -/
private theorem blockClose_append_right (j : Nat) :
    blockClose (x ++ b) (x.size + j) = (blockClose b j).map (x.size + ·) := by
  rw [blockClose, blockClose, Array.size_append]
  refine firstIn_shift (fun k _ => ?_) b.size
  rw [Nat.add_assoc, Bytes.isAt_append_right, Bytes.isAt_append_right]
  split <;> rfl

/-- A regular expression is closed at the same distance. The recursion is that of the search, and
its branches look at the byte at hand, which is the same. -/
private theorem regexClose_append_right (inClass : Bool) (j : Nat) :
    regexClose (x ++ b) inClass (x.size + j) = (regexClose b inClass j).map (x.size + ·) := by
  rw [regexClose, regexClose.eq_def b]
  by_cases hj : j < b.size
  · -- the byte at hand is the same behind the text
    have hget : (x ++ b)[x.size + j]? = b[j]? := Bytes.getElem?_append_add x b j
    have hlt : x.size + j < (x ++ b).size := by rw [Array.size_append]; omega
    rw [Array.getElem?_eq_getElem hlt, Array.getElem?_eq_getElem hj, Option.some.injEq] at hget
    rw [dif_pos hlt, dif_pos hj, hget, Nat.add_assoc, Nat.add_assoc]
    simp only [regexClose_append_right _ (j + 1), regexClose_append_right _ (j + 2)]
    repeat' split
    all_goals rfl
  · rw [dif_neg (by rw [Array.size_append]; omega), dif_neg hj]
    rfl
termination_by b.size - j

/-! ### The end of a type -/

private theorem opensAt_append_right (reading : Reading) (i : Nat) :
    opensAt (x ++ b) reading (x.size + i) = opensAt b reading i := by
  rw [opensAt, opensAt, Bytes.satAt_append_right, Bytes.isAt_append_right]

theorem closesAt_append_right_of_pos (reading : Reading) {i : Nat} (hi : 0 < i) :
    closesAt (x ++ b) reading (x.size + i) = closesAt b reading i := by
  rw [closesAt, closesAt, Bytes.satAt_append_right, Bytes.isAt_append_right,
    Bytes.isBefore_append_right x b hi]

/-- The search for the end of a type runs forward. It looks back by one byte only, for an arrow or
where its condition does. The recursion is that of the search, and the two hypotheses are about all
offsets from its start on. -/
theorem findStopFrom_append_right {stop stop' : Nat → Bool} {reading : Reading} {i : Nat}
    (hstop : ∀ k, i ≤ k → stop' (x.size + k) = stop k)
    (hclose : ∀ k, i ≤ k → closesAt (x ++ b) reading (x.size + k) = closesAt b reading k)
    (depth : Nat) :
    findStopFrom (x ++ b) reading stop' depth (x.size + i) =
      x.size + findStopFrom b reading stop depth i := by
  rw [findStopFrom_eq_ite, findStopFrom_eq_ite b, Array.size_append, hstop i (Nat.le_refl i),
    inertStop_append_right, opensAt_append_right, hclose i (Nat.le_refl i)]
  by_cases hi : i < b.size
  · -- a step leads further on, so the condition still holds from there
    have hnext {next : Nat} (hlt : i < next) (depth : Nat) :
        findStopFrom (x ++ b) reading stop' depth (x.size + next) =
          x.size + findStopFrom b reading stop depth next :=
      findStopFrom_append_right (fun k hk => hstop k (by omega)) (fun k hk => hclose k (by omega))
        depth
    rw [if_pos (Nat.add_lt_add_left hi _), if_pos hi]
    -- the search stops here, or goes on behind a literal or a byte
    split
    · rfl
    · cases hinert : inertStop b i with
      | some next => exact hnext (lt_of_inertStop hinert) depth
      | none =>
        dsimp only [Option.map_none]
        rw [Nat.add_assoc, hnext (Nat.lt_succ_self i), hnext (Nat.lt_succ_self i),
          hnext (Nat.lt_succ_self i)]
        repeat' split
        all_goals rfl
  · rw [if_neg (by omega), if_neg hi]
termination_by b.size - i

theorem statementStop_append_right (start stop : Nat) :
    statementStop (x ++ b) (x.size + start) (x.size + stop) =
      x.size + statementStop b start stop := by
  rw [statementStop, statementStop, Bytes.isAt_append_right, Bytes.trimEnd_append_right]
  split <;> rfl

end Behind

/-! ### The line -/

/-- **The text is a line that holds a block comment and nothing else.** The comment holds no slash,
so that its start and its end are found from either side, and no `<`. -/
structure Heading (x : Bytes) : Prop where
  long : 5 ≤ x.size
  fst : x.isAt 0 '/' = true
  snd : x.isAt 1 '*' = true
  star : x.isAt (x.size - 3) '*' = true
  slash : x.isAt (x.size - 2) '/' = true
  line : x.isAt (x.size - 1) '\n' = true
  slashes : ∀ k, x.isAt k '/' = true → k = 0 ∨ k = x.size - 2
  angle : ∀ k, x.isAt k '<' = false

namespace Heading

variable {x : Bytes} {p : Byte → Bool}

/-- Within the heading stands what stands in it alone. -/
theorem satAt_of_lt (b : Bytes) {k : Nat} (hk : k < x.size) (p : Byte → Bool) :
    (x ++ b).satAt k p = x.satAt k p :=
  Bytes.satAt_congr (Array.getElem?_append_left hk) p

theorem satAt_line (h : Heading x) (b : Bytes) (p : Byte → Bool) :
    (x ++ b).satAt (x.size - 1) p = p (Byte.ofChar '\n') := by
  have := h.long
  rw [satAt_of_lt b (by omega), Bytes.satAt_of_isAt h.line]

/-- The byte before it is the slash that closes the comment. -/
theorem satAt_slash (h : Heading x) (b : Bytes) (p : Byte → Bool) :
    (x ++ b).satAt (x.size - 2) p = p (Byte.ofChar '/') := by
  have := h.long
  rw [satAt_of_lt b (by omega), Bytes.satAt_of_isAt h.slash]

/-! ### Bytes before a place -/

/-- What is asked for before a place and does not hold of a line break is answered alike. At the
start of the text there is the line break now where nothing was. -/
theorem satBefore_append (h : Heading x) (b : Bytes) (hp : p (Byte.ofChar '\n') = false) (i : Nat) :
    (decide (0 < x.size + i) && (x ++ b).satAt (x.size + i - 1) p) =
      (decide (0 < i) && b.satAt (i - 1) p) := by
  cases i with
  | zero =>
    -- nothing stands before the text, and a line break before its copy
    rw [Nat.add_zero, h.satAt_line, hp, Bool.and_false]; rfl
  | succ i =>
    rw [← Nat.add_assoc, Nat.add_sub_cancel, Nat.add_sub_cancel, Bytes.satAt_append_right]
    simp

theorem isBefore_append (h : Heading x) (b : Bytes) (ch : Char)
    (hch : (Byte.ofChar '\n').is ch = false) (i : Nat) :
    (x ++ b).isBefore (x.size + i) ch = b.isBefore i ch :=
  h.satBefore_append b (p := (·.is ch)) hch i

/-- **A run of bytes does not reach into the heading**, if the line break is not one of them. By
induction on the end of the run. -/
theorem runStart_append (h : Heading x) (b : Bytes) (hp : p (Byte.ofChar '\n') = false) (i : Nat) :
    (x ++ b).runStart p (x.size + i) = x.size + b.runStart p i := by
  induction i with
  | zero =>
    have hlong := h.long
    obtain ⟨k, hk⟩ : ∃ k, x.size = k + 1 := ⟨x.size - 1, by omega⟩
    have hline := h.satAt_line b p
    -- the run ends at the line break, as it ends at the start of a text
    rw [hk, Nat.add_sub_cancel, hp] at hline
    calc (x ++ b).runStart p (x.size + 0)
        = (x ++ b).runStart p (k + 1) := by rw [Nat.add_zero, hk]
      _ = k + 1 := by rw [Bytes.runStart, hline]; rfl
      _ = x.size + b.runStart p 0 := hk.symm
  | succ i ih =>
    rw [← Nat.add_assoc, Bytes.runStart, Bytes.runStart, Bytes.satAt_append_right, ih]
    split <;> rfl

/-- **The nearest ink before a text is the slash of the heading.** By induction on the offset: at
the start of the text, the line break is passed over and the slash is found. -/
theorem lastInk_append (h : Heading x) (b : Bytes) (i : Nat) :
    (x ++ b).lastInk (x.size + i) = some ((b.lastInk i).elim (x.size - 2) (x.size + ·)) := by
  unfold Bytes.lastInk Bytes.lastBefore
  induction i with
  | zero =>
    have hlong := h.long
    obtain ⟨k, hk⟩ : ∃ k, x.size = k + 2 := ⟨x.size - 2, by omega⟩
    have hline := h.satAt_line b (fun c => !c.isSpace)
    have hslash := h.satAt_slash b (fun c => !c.isSpace)
    rw [hk, show k + 2 - 1 = k + 1 from rfl] at hline
    rw [hk, Nat.add_sub_cancel] at hslash
    -- the line break is passed over, and the slash before it is ink
    have hfirst : lastBelow (fun k => (x ++ b).satAt k fun c => !c.isSpace) (k + 2) = some k := by
      rw [lastBelow, hline, if_neg (by decide), lastBelow, hslash, if_pos (by decide)]
    rw [Nat.add_zero, hk, hfirst]
    rfl
  | succ i ih =>
    rw [← Nat.add_assoc, lastBelow, lastBelow, Bytes.satAt_append_right, ih]
    split <;> rfl

/-! ### Words -/

/-- A name starts at the same distance, since a line break is no part of one. -/
theorem nameStart_append (h : Heading x) (b : Bytes) (stop : Nat) :
    nameStart (x ++ b) (x.size + stop) = x.size + nameStart b stop := by
  rw [nameStart, nameStart, h.runStart_append b rfl, Bytes.skipWhile_append_right]
  omega

/-- A keyword stands at the same distance; neither a line break nor the start of a text goes on with
a name. -/
theorem keywordAt_append (h : Heading x) (b : Bytes) (i : Nat) (w : String) :
    keywordAt (x ++ b) (x.size + i) w = keywordAt b i w := by
  rw [keywordAt, keywordAt, Bytes.hasAt_append_right, h.satBefore_append b rfl, Nat.add_assoc,
    Bytes.satAt_append_right]

theorem wordBefore_append (h : Heading x) (b : Bytes) (stop : Nat) (words : List String) :
    wordBefore (x ++ b) (x.size + stop) words = wordBefore b stop words := by
  rw [wordBefore, wordBefore, h.nameStart_append]
  simp only [Bytes.slice_append_add]

/-- No name ends with the comment. Read back from the line break, a name would have to end with the
slash. -/
theorem nameStart_slash (h : Heading x) (b : Bytes) :
    nameStart (x ++ b) (x.size - 1) = x.size - 1 := by
  have hlong := h.long
  obtain ⟨k, hk⟩ : ∃ k, x.size = k + 2 := ⟨x.size - 2, by omega⟩
  -- the slash before the line break is no byte of a name
  have hslash := h.satAt_slash b Byte.isNamePart
  have hline := h.satAt_line b Byte.isDigit
  rw [hk, Nat.add_sub_cancel] at hslash
  rw [hk, show k + 2 - 1 = k + 1 from rfl] at hline ⊢
  have hrun : (x ++ b).runStart Byte.isNamePart (k + 1) = k + 1 := by
    rw [Bytes.runStart, hslash]
    rfl
  have hdigits : (x ++ b).skipWhile Byte.isDigit (k + 1) = k + 1 := by
    rw [Bytes.skipWhile_eq_ite, hline]
    rfl
  rw [nameStart, hrun, hdigits, Nat.min_self]

/-- So none of some words stands there, if none of them is empty. -/
theorem wordBefore_slash (h : Heading x) (b : Bytes) (words : List String)
    (hwords : words.all (fun w => decide (0 < (Bytes.ofString w).size)) = true) :
    wordBefore (x ++ b) (x.size - 2 + 1) words = false := by
  have hlong := h.long
  rw [wordBefore, show x.size - 2 + 1 = x.size - 1 by omega, h.nameStart_slash, List.any_eq_false]
  intro w hw hspelled
  have hpos := List.all_eq_true.mp hwords w hw
  -- no word is empty
  rw [beq_iff_eq, Bytes.slice_self] at hspelled
  rw [hspelled] at hpos
  simp at hpos

/-! ### Literals -/

end Heading

/-- The range `n` bytes further on. -/
def Span.shift (n : Nat) (s : Span) : Span :=
  ⟨n + s.start, n + s.stop⟩

/-- The literal `n` bytes further on. -/
def Literal.shift (n : Nat) (l : Literal) : Literal :=
  { l with span := l.span.shift n }

/-- An unclosed literal ends with the text, which is at the same distance too. -/
private theorem Literal.closedBy_append_right (kind : LiteralKind) (x b : Bytes) (i : Nat)
    (close : Option Nat) :
    closedBy kind (x ++ b) (x.size + i) (close.map (x.size + ·)) =
      (closedBy kind b i close).shift x.size := by
  cases close with
  | none =>
    rw [Option.map_none, closedBy, closedBy, Array.size_append]
    rfl
  | some stop => rfl

namespace Heading

variable {x : Bytes} {p : Byte → Bool}

/-- No operand ends with a comment, and none before the start of a text. The nearest ink may be the
slash of the heading, which is neither a bracket nor part of a word. -/
private theorem endsOperand_append (h : Heading x) (b : Bytes) (i : Nat) :
    endsOperand (x ++ b) (x.size + i) = endsOperand b i := by
  unfold endsOperand
  rw [h.lastInk_append]
  cases b.lastInk i with
  | none =>
    -- the slash of the heading ends no operand
    simp only [Option.elim_none, h.satAt_slash]
    rfl
  | some p =>
    simp only [Option.elim_some, Nat.add_assoc, Bytes.satAt_append_right,
      h.runStart_append b (p := Byte.isNamePart) rfl, Bytes.slice_append_add]

/-- A regular expression is ruled out alike, and ends at the same distance with its flags. -/
private theorem regexStop_append (h : Heading x) (b : Bytes) (i : Nat) :
    regexStop (x ++ b) (x.size + i) = (regexStop b i).map (x.size + ·) := by
  unfold regexStop
  rw [Nat.add_assoc, Bytes.getElem?_append_add, h.endsOperand_append, regexClose_append_right]
  cases b[i + 1]? with
  | none => rfl
  | some c =>
    -- the byte behind the slash decides, together with what stands before it
    dsimp only
    split
    · rfl
    · cases regexClose b false (i + 1) with
      | none => rfl
      | some close => exact congrArg some (Bytes.skipWhile_append_right x b Byte.isLetter close)

/-- **The literals of a text are the same behind a heading.** One case for each kind of literal, by
the lemma on its closing delimiter. -/
theorem literalAt_append (h : Heading x) (b : Bytes) (i : Nat) :
    literalAt (x ++ b) (x.size + i) = (literalAt b i).map (Literal.shift x.size) := by
  unfold literalAt
  rw [Bytes.getElem?_append_add]
  cases b[i]? with
  | none => rfl
  | some c =>
    simp only [Nat.add_assoc, Bytes.isAt_append_right, Bytes.skipWhile_append_right,
      blockClose_append_right, quoteClose_append_right, h.regexStop_append,
      Literal.closedBy_append_right]
    -- behind a slash there is a comment, or a regular expression with its flags
    split
    · split
      · rfl
      · split
        · rfl
        · rw [Option.map_map, Option.map_map]
          rfl
    · -- a string, a template or nothing
      split
      · rfl
      · split <;> rfl

/-! ### Trivia and backward scans -/

/-- Whitespace and comments end at the same distance. The recursion is that of the skipping. -/
theorem skipTrivia_append (h : Heading x) (b : Bytes) (i : Nat) :
    skipTrivia (x ++ b) (x.size + i) = x.size + skipTrivia b i := by
  rw [skipTrivia_eq_ite, skipTrivia_eq_ite b, Bytes.skipSpace_append_right, h.literalAt_append]
  cases hl : literalAt b (b.skipSpace i) with
  | none => rfl
  | some l =>
    have := bounds_of_literalAt hl
    have : i ≤ b.skipSpace i := b.le_skipWhile _ i
    show (if l.kind.isComment then skipTrivia (x ++ b) (x.size + l.span.stop) else _) = _
    rw [h.skipTrivia_append b l.span.stop]
    dsimp only
    split <;> rfl
termination_by b.size - i

/-- A comment is closed at the same distance. The line break is no star. -/
theorem closesComment_append (h : Heading x) (b : Bytes) (k : Nat) :
    closesComment (x ++ b) (x.size + k) = closesComment b k := by
  rw [closesComment, closesComment, Bytes.isAt_append_right, h.isBefore_append b _ rfl]

/-- In the heading there is one place where a comment starts. By induction on the offset. A slash
with a star behind it is looked for downward; of the two slashes in the heading, the second has the
line break behind it. -/
private theorem lastBelow_opener (h : Heading x) (b : Bytes) {j : Nat} (hpos : 0 < j)
    (hj : j ≤ x.size) :
    lastBelow (fun p => (x ++ b).isAt p '/' && (x ++ b).isAt (p + 1) '*') j = some 0 := by
  have hlong := h.long
  induction j with
  | zero => omega
  | succ k ih =>
    have hfst : (x ++ b).isAt k '/' = x.isAt k '/' := satAt_of_lt b (by omega) _
    rw [lastBelow, hfst]
    by_cases hk : k = 0
    · subst hk
      have hsnd : (x ++ b).isAt (0 + 1) '*' = x.isAt 1 '*' := satAt_of_lt b (by omega) _
      rw [hsnd, h.fst, h.snd]
      rfl
    · -- the only other slash is the one before the line break
      have hnot : (x.isAt k '/' && (x ++ b).isAt (k + 1) '*') = false := by
        rw [Bool.and_eq_false_iff, ← Bool.not_eq_true]
        by_cases hslash : x.isAt k '/' = true
        · right
          have hend := (h.slashes k hslash).resolve_left hk
          rw [hend, show x.size - 2 + 1 = x.size - 1 by omega]
          exact h.satAt_line b (·.is '*')
        · exact .inl hslash
      rw [hnot]
      exact ih (by omega) (by omega)

/-- **A comment that has no start in the text starts with the heading.** By induction on the offset
of its star. The search goes on into the heading, and finds its start. -/
theorem commentStart_append (h : Heading x) (b : Bytes) (star : Nat) :
    commentStart (x ++ b) (x.size + star) =
      some ((commentStart b star).elim 0 (x.size + ·)) := by
  unfold commentStart
  induction star with
  | zero =>
    have hlong := h.long
    exact h.lastBelow_opener b (by omega) (Nat.le_refl _)
  | succ k ih =>
    rw [← Nat.add_assoc, lastBelow, lastBelow, ih, Nat.add_assoc, Bytes.isAt_append_right,
      Bytes.isAt_append_right]
    split <;> rfl

end Heading

/-- The visit with its answer read differently. -/
def Visit.map {σ α β : Type} (e : α → β) : Visit σ α → Visit σ β
  | go state => go state
  | halt answer => halt (e answer)

theorem Visit.map_id {σ α : Type} (v : Visit σ α) : v.map id = v := by
  cases v <;> rfl

namespace Heading

variable {x : Bytes} {p : Byte → Bool}

section ScanBack

variable {σ α : Type}

/-- A scan that has come to the comment of the heading leaps over it, and finds nothing there. The
end of the comment is recognised, its start is the start of everything, and there the scan is
over. -/
private theorem scanBack_comment (h : Heading x) (b : Bytes) (visit : σ → Nat → Visit σ α)
    (state : σ) : scanBack (x ++ b) visit state (x.size - 1) = none := by
  have hlong := h.long
  -- the last two bytes before the line break close the comment
  have hcloses : closesComment (x ++ b) (x.size - 2) = true := by
    have hstar : (x ++ b).isAt (x.size - 2 - 1) '*' = x.isAt (x.size - 3) '*' :=
      satAt_of_lt b (by omega) _
    have hslash : (x ++ b).isAt (x.size - 2) '/' = true := h.satAt_slash b (·.is '/')
    rw [closesComment, Bytes.isBefore, hslash, hstar, h.star, decide_eq_true (by omega)]
    rfl
  have hstart : commentStart (x ++ b) (x.size - 2 - 1) = some 0 :=
    h.lastBelow_opener b (by omega) (by omega)
  rw [show x.size - 1 = x.size - 2 + 1 by omega, scanBack_succ, hcloses, hstart]
  show scanBack (x ++ b) visit state 0 = none
  rw [scanBack]

/-- **A backward scan behind a heading** gives the answer it gives without one. If there is none,
then the line break of the heading is all that can answer. The induction is on the offset, in steps
of one byte or of one comment. A comment without a start is where the two scans part: one of them
gives up, the other takes the heading for the comment and comes to the start of everything. -/
theorem scanBack_append (h : Heading x) (b : Bytes) {visit visit' : σ → Nat → Visit σ α}
    {e : α → α} (hvisit : ∀ s k, visit' s (x.size + k) = (visit s k).map e) (state : σ) (i : Nat) :
    (∃ a, scanBack b visit state i = some a ∧
        scanBack (x ++ b) visit' state (x.size + i) = some (e a)) ∨
      scanBack b visit state i = none ∧
        ∀ a, scanBack (x ++ b) visit' state (x.size + i) = some a →
          ∃ s, visit' s (x.size - 1) = .halt a := by
  induction i using Nat.strongRecOn generalizing state with
  | ind i ih =>
    cases i with
    | zero =>
      refine .inr ⟨by rw [scanBack], fun a ha => ⟨state, ?_⟩⟩
      have hlong := h.long
      -- the line break closes no comment, so it is visited like any byte
      have hcloses : closesComment (x ++ b) (x.size - 1) = false := by
        have hline : (x ++ b).isAt (x.size - 1) '/' = false := h.satAt_line b (·.is '/')
        rw [closesComment, hline, Bool.false_and]
      rw [Nat.add_zero, show x.size = x.size - 1 + 1 by omega, scanBack_succ, hcloses] at ha
      cases hv : visit' state (x.size - 1) with
      | halt a' =>
        simp only [hv] at ha
        obtain rfl : a' = a := by simpa using ha
        rfl
      | go state' =>
        simp only [hv, h.scanBack_comment] at ha
        simp at ha
    | succ k =>
      rw [scanBack_succ, ← Nat.add_assoc, scanBack_succ, h.closesComment_append, hvisit]
      cases hcloses : closesComment b k with
      | true =>
        -- a comment that ends at `k` has its star before `k`
        have hpos : 0 < k := by
          simp only [closesComment, Bytes.isBefore, Bool.and_eq_true, decide_eq_true_eq] at hcloses
          exact hcloses.2.1
        rw [show x.size + k - 1 = x.size + (k - 1) by omega, h.commentStart_append]
        cases hstart : commentStart b (k - 1) with
        | none =>
          -- the heading is taken for the comment, and there is nothing before it
          refine .inr ⟨rfl, fun a ha => ?_⟩
          simp only [if_true, Option.elim_none, scanBack] at ha
          simp at ha
        | some start =>
          have := lastBelow_lt hstart
          exact ih start (by omega) state
      | false =>
        cases hv : visit state k with
        | halt a => exact .inl ⟨a, rfl, rfl⟩
        | go state' => exact ih k (Nat.lt_succ_self k) state'

/-- A scan that passes over line breaks gives the same answer. This is `scanBack_append` where the
line break answers nothing. -/
private theorem scanBack_append_of_go (h : Heading x) (b : Bytes)
    {visit visit' : σ → Nat → Visit σ α} {e : α → α}
    (hvisit : ∀ s k, visit' s (x.size + k) = (visit s k).map e)
    (hgo : ∀ s a, visit' s (x.size - 1) ≠ .halt a) (state : σ) (i : Nat) :
    scanBack (x ++ b) visit' state (x.size + i) = (scanBack b visit state i).map e := by
  rcases h.scanBack_append b hvisit state i with ⟨a, ha, ha'⟩ | ⟨hnone, hline⟩
  · rw [ha, ha']
    rfl
  · rw [hnone, Option.map_none, Option.eq_none_iff_forall_ne_some]
    -- only the line break could give an answer of its own
    intro a ha
    obtain ⟨s, hs⟩ := hline a ha
    exact hgo s a hs

/-- A scan that stops at line breaks with its default gives the same answer. This is
`scanBack_append` where the line break gives the answer that stands for none. -/
theorem scanBack_append_getD (h : Heading x) (b : Bytes) {visit visit' : σ → Nat → Visit σ α}
    (hvisit : ∀ s k, visit' s (x.size + k) = visit s k) {default : α}
    (hline : ∀ s a, visit' s (x.size - 1) = .halt a → a = default) (state : σ) (i : Nat) :
    (scanBack (x ++ b) visit' state (x.size + i)).getD default =
      (scanBack b visit state i).getD default := by
  have hvisit' (s : σ) (k : Nat) : visit' s (x.size + k) = (visit s k).map id := by
    rw [hvisit, Visit.map_id]
  rcases h.scanBack_append b hvisit' state i with ⟨a, ha, ha'⟩ | ⟨hnone, hdefault⟩
  · rw [ha, ha']
    rfl
  · rw [hnone]
    cases ha : scanBack (x ++ b) visit' state (x.size + i) with
    | none => rfl
    | some a =>
      obtain ⟨s, hs⟩ := hdefault a ha
      exact hline s a hs

/-- The last byte of code before an offset is at the same distance. A line break is whitespace, so
the scan passes over it. -/
theorem lastCode_append (h : Heading x) (b : Bytes) (i : Nat) :
    lastCode (x ++ b) (x.size + i) = (lastCode b i).map (x.size + ·) := by
  refine h.scanBack_append_of_go b (fun _ k => ?_) (fun _ a => ?_) () i
  · rw [Bytes.satAt_append_right]
    split <;> rfl
  · rw [h.satAt_line, if_pos (by decide)]
    exact nofun

variable {opened' : Nat → α} {outside' : Nat → Visit Nat α}

/-- A visitor that stays outside of brackets does the same behind a heading, if the inner visitor
does. -/
theorem visitOutside_append (b : Bytes) (opened : Nat → α) (outside : Nat → Visit Nat α)
    {e : α → α} {k : Nat}
    (hopened : opened' (x.size + k) = e (opened k))
    (houtside : outside' (x.size + k) = (outside k).map e) (depth : Nat) :
    visitOutside (x ++ b) opened' outside' depth (x.size + k) =
      (visitOutside b opened outside depth k).map e := by
  rw [visitOutside, visitOutside, Bytes.satAt_append_right, Bytes.satAt_append_right, hopened,
    houtside]
  repeat' split
  all_goals rfl

/-- At the line break of the heading only what is done outside of groups can end a scan. It is no
bracket, so the count does not change there. -/
theorem visitOutside_line (h : Heading x) (b : Bytes) {depth : Nat} {a : α}
    (hhalt : visitOutside (x ++ b) opened outside depth (x.size - 1) = .halt a) :
    outside (x.size - 1) = .halt a := by
  have hclose : (x ++ b).satAt (x.size - 1) Byte.isCloser = false := h.satAt_line b _
  have hopen : (x ++ b).satAt (x.size - 1) Byte.isOpener = false := h.satAt_line b _
  rw [visitOutside, hclose, hopen] at hhalt
  by_cases hdepth : depth = 0
  · simpa [hdepth] using hhalt
  · simp [hdepth] at hhalt

end ScanBack

/-- The bracket around an offset is at the same distance. The scan stops at semicolons only, and a
line break is none. -/
theorem enclosingOpen_append (h : Heading x) (b : Bytes) (i : Nat) :
    enclosingOpen (x ++ b) (x.size + i) = (enclosingOpen b i).map (x.size + ·) := by
  unfold enclosingOpen visitEnclosing
  rw [h.scanBack_append_of_go b (e := Option.map (x.size + ·))]
  · cases scanBack b _ 0 i with
    | none => rfl
    | some a => rfl
  · intro depth k
    refine visitOutside_append b _ _ (e := Option.map (x.size + ·)) rfl ?_ depth
    rw [Bytes.isAt_append_right]
    split <;> rfl
  · intro depth a hhalt
    have hsemi : (x ++ b).isAt (x.size - 1) ';' = false := h.satAt_line b (·.is ';')
    have := h.visitOutside_line b hhalt
    simp [hsemi] at this

/-! ### Where a type or an expression ends -/

/-- An equals sign is part of a longer sign at the same distance. -/
private theorem isCompoundEq_append (h : Heading x) (b : Bytes) (i : Nat) :
    isCompoundEq (x ++ b) (x.size + i) = isCompoundEq b i := by
  rw [isCompoundEq, isCompoundEq, Bytes.isAt_append_right, h.satBefore_append b rfl, Nat.add_assoc,
    Bytes.satAt_append_right]

theorem isAssign_append (h : Heading x) (b : Bytes) (i : Nat) :
    isAssign (x ++ b) (x.size + i) = isAssign b i := by
  rw [isAssign, isAssign, Bytes.isAt_append_right, h.isCompoundEq_append]

/-- A line break completes nothing if there is no ink since the start, be it that of the text or of
what is read. Where the text has no ink before the break, the slash of the heading is found instead,
and it lies before the start. -/
theorem lineBreakEnds_append (h : Heading x) (b : Bytes) (start nl : Nat) :
    lineBreakEnds (x ++ b) (x.size + start) (x.size + nl) = lineBreakEnds b start nl := by
  have hlong := h.long
  unfold lineBreakEnds
  rw [h.lastInk_append]
  cases b.lastInk nl with
  -- the ink of the heading lies before the start
  | none => simp [show x.size - 2 < x.size + start by omega]
  | some last =>
    simp only [Option.elim_some, Nat.add_lt_add_iff_left, Bytes.satAt_append_right,
      Bytes.isAt_append_right, h.isBefore_append b '=' rfl, Nat.add_assoc,
      Bytes.skipBlanks_append_right, Bytes.getElem?_append_add]

/-- The line of a statement ends at the same distance. -/
theorem endsLine_append (h : Heading x) (b : Bytes) (start i : Nat) :
    endsLine (x ++ b) (x.size + start) (x.size + i) = endsLine b start i := by
  rw [endsLine, endsLine, Bytes.isAt_append_right, h.lineBreakEnds_append]

/-- Brackets close at the same distance. A line break is no part of an arrow. -/
private theorem closesAt_append (h : Heading x) (b : Bytes) (reading : Reading) (i : Nat) :
    closesAt (x ++ b) reading (x.size + i) = closesAt b reading i := by
  rw [closesAt, closesAt, Bytes.satAt_append_right, Bytes.isAt_append_right,
    h.isBefore_append b _ rfl]

/-- A search comes to the same distance, whatever its condition, if that is asked for at the same
distance. -/
private theorem findStopFrom_append (h : Heading x) (b : Bytes) {stop stop' : Nat → Bool}
    (hstop : ∀ k, stop' (x.size + k) = stop k) (reading : Reading) (depth i : Nat) :
    findStopFrom (x ++ b) reading stop' depth (x.size + i) =
      x.size + findStopFrom b reading stop depth i :=
  findStopFrom_append_right x b (fun k _ => hstop k) (fun k _ => h.closesAt_append b reading k)
    depth

/-- **The search for the end of a type or expression** is the same behind a heading. The condition
`g` is that of the text with the heading, and `f` that of the text alone. -/
theorem findStop_append (h : Heading x) (b : Bytes) {f g : Nat → Bool}
    (hfg : ∀ k, g (x.size + k) = f k) (reading : Reading) (i : Nat) :
    findStop (x ++ b) reading g (x.size + i) = x.size + findStop b reading f i :=
  h.findStopFrom_append b hfg reading 0 i

theorem findClose_append (h : Heading x) (b : Bytes) (reading : Reading) (i : Nat) :
    findClose (x ++ b) reading (x.size + i) = x.size + findClose b reading i :=
  h.findStop_append b (fun _ => rfl) reading i

end Heading

end TypeErasure
