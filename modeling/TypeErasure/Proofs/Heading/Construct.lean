import TypeErasure.Proofs.Heading
import TypeErasure.Proofs.Alike.Construct

/-!
# The constructs behind a heading

Each construct of a text is found behind a heading too, at the same distance from it, and its patch
has the same segments: `Heading.f_append` for the recognisers and the patches. The classes are gone
through in `TypeErasure.Proofs.Heading.Class`.

There is one exception. A cast needs an operand, and any ink serves as one, so the slash of the
heading does. A text that starts with `as` and a type is therefore read differently behind a
heading, and `castAt_append` has to assume that the text does not.
-/

namespace TypeErasure

/-! ### Matches and patches further on -/

/-- The match `n` bytes further on. -/
def Match.shift (n : Nat) (m : Match) : Match :=
  { m with span := m.span.shift n }

/-- The event `n` bytes further on. -/
def Event.shift (n : Nat) : Event → Event
  | erased kind span text => erased kind (span.shift n) text
  | kept kind span => kept kind (span.shift n)
  | walkStopped offset => walkStopped (n + offset)
  | unterminated kind offset => unterminated kind (n + offset)
  | neverClosed kind offset => neverClosed kind (n + offset)

/-- The patch `n` bytes further on. -/
def Patch.shift (n : Nat) (p : Patch) : Patch :=
  { p with stop := n + p.stop, notices := p.notices.map (Event.shift n) }

section Behind

variable (x b : Bytes) (i j : Nat)

theorem decide_add_lt (n i j : Nat) : decide (n + i < n + j) = decide (i < j) :=
  decide_eq_decide.mpr Nat.add_lt_add_iff_left

theorem Segment.keep_append_right :
    Segment.keep (x ++ b) (x.size + i) (x.size + j) = .keep b i j := by
  rw [keep, keep, Bytes.slice_append_add]

theorem Segment.erase_append_right :
    Segment.erase (x ++ b) (x.size + i) (x.size + j) = .erase b i j := by
  rw [erase, erase, Bytes.slice_append_add]

theorem Patch.erase_append_right :
    Patch.erase (x ++ b) (x.size + i) (x.size + j) = (Patch.erase b i j).shift x.size := by
  rw [erase, Segment.erase_append_right]
  rfl

end Behind

/-- No `as` with whitespace on both sides stands behind offset `i` if there is no ink before it. -/
def AsFollowsInk (b : Bytes) (i : Nat) : Prop :=
  b.lastInk i = none →
    (b.satAt i Byte.isBlank && keywordAt b (i + 1) "as" && b.satAt (i + 3) Byte.isSpace) = false

namespace Heading

variable {x : Bytes}

/-! ### Statements -/

/-- A statement can start behind a heading, as it can at the start of a text. The line break of the
heading is one of the signs that a statement can start behind. -/
private theorem atStatementStart_append (h : Heading x) (b : Bytes) (i : Nat) :
    atStatementStart (x ++ b) (x.size + i) = atStatementStart b i := by
  have hlong := h.long
  unfold atStatementStart
  rw [h.runStart_append b rfl]
  cases b.runStart Byte.isBlank i with
  | zero =>
    -- a statement can start behind a line break
    have hline : (x ++ b).satAt (x.size - 1) (·.among ['\n', '\r', ';', '{', '}']) = true :=
      h.satAt_line b _
    simp only [Nat.add_zero, hline]
    simp
  | succ k =>
    simp only [← Nat.add_assoc, Nat.add_sub_cancel, Bytes.satAt_append_right,
      h.closesComment_append]
    simp

/-- The keyword of a statement stands at the same distance, with `export` before it or without. -/
private theorem statementKeyword_append (h : Heading x) (b : Bytes) (i : Nat) (w : String) :
    statementKeyword (x ++ b) (x.size + i) w = (statementKeyword b i w).map (x.size + ·) := by
  unfold statementKeyword
  simp only [h.keywordAt_append, Nat.add_assoc, Bytes.skipBlanks_append_right,
    h.atStatementStart_append, ← apply_ite (x.size + ·), decide_add_lt]
  repeat' split
  all_goals rfl

/-- The same for a statement that goes on with a name. -/
private theorem namedStatement_append (h : Heading x) (b : Bytes) (i : Nat) (w : String) :
    namedStatement (x ++ b) (x.size + i) w = (namedStatement b i w).map (x.size + ·) := by
  unfold namedStatement
  rw [h.statementKeyword_append]
  cases statementKeyword b i w with
  | none => rfl
  | some after =>
    simp only [Option.map_some, Option.filter_some, Bytes.skipBlanks_append_right,
      Bytes.satAt_append_right, decide_add_lt]
    split <;> rfl

/-- A declaration is patched alike, with or without a body. -/
private theorem declarationPatch_append (h : Heading x) (b : Bytes) (m : Match) (stop : Nat) :
    declarationPatch (x ++ b) (m.shift x.size) (x.size + stop) =
      (declarationPatch b m stop).shift x.size := by
  unfold declarationPatch
  have hstart : (m.shift x.size).start = x.size + m.start := rfl
  simp only [hstart, Bytes.isAt_append_right, statementStop_append_right, Nat.add_assoc,
    h.findClose_append, Array.size_append, Nat.add_lt_add_iff_left, Patch.erase_append_right]
  split
  · split <;> rfl
  · rfl

/-- **Interfaces** stand at the same distance. -/
theorem interfaceAt_append (h : Heading x) (b : Bytes) (i : Nat) :
    interfaceAt (x ++ b) (x.size + i) = (interfaceAt b i).map (Match.shift x.size) := by
  rw [interfaceAt, interfaceAt, h.namedStatement_append, Option.map_map, Option.map_map]
  rfl

/-- **Ambient declarations** stand at the same distance. -/
theorem ambientAt_append (h : Heading x) (b : Bytes) (i : Nat) :
    ambientAt (x ++ b) (x.size + i) = (ambientAt b i).map (Match.shift x.size) := by
  rw [ambientAt, ambientAt, h.namedStatement_append, Option.map_map, Option.map_map]
  rfl

/-- The search for the body of an interface stops at the same distance. -/
theorem interfacePatch_append (h : Heading x) (b : Bytes) (m : Match) :
    interfacePatch (x ++ b) (m.shift x.size) = (interfacePatch b m).shift x.size := by
  rw [interfacePatch, interfacePatch, ← h.declarationPatch_append]
  exact congrArg (declarationPatch _ _)
    (h.findStop_append b (fun k => Bytes.satAt_append_right x b k _) .type m.stop)

/-- So does that for the body or the end of an ambient declaration. -/
theorem ambientPatch_append (h : Heading x) (b : Bytes) (m : Match) :
    ambientPatch (x ++ b) (m.shift x.size) = (ambientPatch b m).shift x.size := by
  rw [ambientPatch, ambientPatch, ← h.declarationPatch_append]
  refine congrArg (declarationPatch _ _) (h.findStop_append b (fun k => ?_) .type m.stop)
  have hend : endsLine (x ++ b) (m.shift x.size).stop (x.size + k) = endsLine b m.stop k :=
    h.endsLine_append b m.stop k
  rw [Bytes.satAt_append_right, hend]

/-- A list of type parameters ends at the same distance. -/
private theorem skipTypeParameters_append (h : Heading x) (b : Bytes) (i : Nat) :
    skipTypeParameters (x ++ b) (x.size + i) = (skipTypeParameters b i).map (x.size + ·) := by
  unfold skipTypeParameters
  simp only [Bytes.isAt_append_right, Nat.add_assoc, h.findClose_append,
    Bytes.skipSpace_append_right]
  split
  · split <;> rfl
  · rfl

/-- **Type aliases** stand at the same distance. -/
theorem typeAliasAt_append (h : Heading x) (b : Bytes) (i : Nat) :
    typeAliasAt (x ++ b) (x.size + i) = (typeAliasAt b i).map (Match.shift x.size) := by
  unfold typeAliasAt
  rw [h.statementKeyword_append]
  cases statementKeyword b i "type" with
  | none => rfl
  | some after =>
    simp only [Option.map_some, Option.bind_eq_bind, Option.bind_some,
      Bytes.skipBlanks_append_right, Bytes.skipSpace_append_right, nameStop_append_right,
      decide_add_lt, h.skipTypeParameters_append]
    split
    · cases skipTypeParameters b _ with
      | none => rfl
      | some eq =>
        simp only [Option.map_some, Option.bind_some, h.isAssign_append]
        split <;> rfl
    · rfl

/-- A type alias ends at the same distance. The search is rewritten first, and then the end of the
statement. -/
theorem typeAliasPatch_append (h : Heading x) (b : Bytes) (m : Match) :
    typeAliasPatch (x ++ b) (m.shift x.size) = (typeAliasPatch b m).shift x.size := by
  have hstop : findStop (x ++ b) .type
        (fun i => (x ++ b).isAt i ';' || endsLine (x ++ b) (x.size + m.stop) i) (x.size + m.stop) =
      x.size + findStop b .type (fun i => b.isAt i ';' || endsLine b m.stop i) m.stop := by
    refine h.findStop_append b (fun k => ?_) .type m.stop
    rw [Bytes.isAt_append_right, h.endsLine_append]
  calc typeAliasPatch (x ++ b) (m.shift x.size)
      = .erase (x ++ b) (x.size + m.start) (statementStop (x ++ b) (x.size + m.start)
          (x.size + findStop b .type (fun i => b.isAt i ';' || endsLine b m.stop i) m.stop)) := by
        rw [← hstop]; rfl
    _ = (typeAliasPatch b m).shift x.size := by
        rw [statementStop_append_right, Patch.erase_append_right]
        rfl

/-! ### Casts -/

/-- A list of imported or exported names is one behind a heading too. Where nothing stands before
its bracket, the slash of the heading ends none of the words. -/
private theorem inBindingList_append (h : Heading x) (b : Bytes) (i : Nat) :
    inBindingList (x ++ b) (x.size + i) = inBindingList b i := by
  unfold inBindingList
  rw [h.enclosingOpen_append]
  cases enclosingOpen b i with
  | none => rfl
  | some o =>
    simp only [Option.map_some, Option.any_some, Bytes.isAt_append_right, h.lastInk_append]
    cases b.lastInk o with
    | none =>
      -- the slash of the heading ends none of the words
      have hslash := h.wordBefore_slash b ["import", "export", "type"] (by decide)
      rw [Option.elim_none, hslash]
      rfl
    | some p =>
      -- the word before the bracket is the same
      rw [Option.elim_some, Nat.add_assoc, h.wordBefore_append]; rfl

/-- The operand of a cast is the one exception: where the text has no ink before the cast, the slash
of the heading passes for it. -/
private theorem castOperandBefore_append (h : Heading x) (b : Bytes) (i : Nat) :
    castOperandBefore (x ++ b) (x.size + i) = ((b.lastInk i).isNone || castOperandBefore b i) := by
  unfold castOperandBefore
  rw [h.lastInk_append]
  cases b.lastInk i with
  | none =>
    -- the slash is no star and ends no declarator, so it passes for an operand
    have hslash := h.wordBefore_slash b declarators (by decide)
    have hstar : (x ++ b).isAt (x.size - 2) '*' = false := h.satAt_slash b (·.is '*')
    simp only [Option.elim_none, Option.any_some, hslash, hstar]
    rfl
  | some p =>
    simp only [Option.elim_some, Option.any_some, Nat.add_assoc, Bytes.isAt_append_right,
      h.wordBefore_append]
    rfl

/-- **Casts** stand at the same distance, if none stands where only the heading could be its
operand. -/
theorem castAt_append (h : Heading x) {b : Bytes} {i : Nat} (hink : AsFollowsInk b i) :
    castAt (x ++ b) (x.size + i) = (castAt b i).map (Match.shift x.size) := by
  unfold castAt
  simp only [Bytes.satAt_append_right, Nat.add_assoc, h.keywordAt_append,
    Bytes.skipSpace_append_right, h.castOperandBefore_append, h.inBindingList_append]
  cases hlast : b.lastInk i with
  | none =>
    -- the slash of the heading would serve as an operand, but there is no `as`
    rw [hink hlast]
    rfl
  | some p =>
    -- there is ink before the cast, so the heading is not asked for
    rw [Option.isNone_some, Bool.false_or]
    split <;> rfl

/-- The type of a cast ends at the same distance. -/
theorem castPatch_append (h : Heading x) (b : Bytes) (m : Match) :
    castPatch (x ++ b) (m.shift x.size) = (castPatch b m).shift x.size := by
  have hstop : findStop (x ++ b) .type (fun i => (x ++ b).satAt i (·.among [';', ',']) ||
          endsLine (x ++ b) (x.size + m.stop) i) (x.size + m.stop) =
      x.size + findStop b .type (fun i => b.satAt i (·.among [';', ',']) || endsLine b m.stop i)
        m.stop := by
    refine h.findStop_append b (fun k => ?_) .type m.stop
    rw [Bytes.satAt_append_right, h.endsLine_append]
  calc castPatch (x ++ b) (m.shift x.size)
      = .erase (x ++ b) (x.size + m.start) ((x ++ b).trimEnd (x.size + m.start) (x.size +
          findStop b .type (fun i => b.satAt i (·.among [';', ',']) || endsLine b m.stop i)
            m.stop)) := by rw [← hstop]; rfl
    _ = (castPatch b m).shift x.size := by
        rw [Bytes.trimEnd_append_right, Patch.erase_append_right]
        rfl

/-! ### Annotations -/

private theorem isColon_append (h : Heading x) (b : Bytes) (i : Nat) :
    isColon (x ++ b) (x.size + i) = isColon b i := by
  rw [isColon, isColon, Nat.add_assoc, Bytes.isAt_append_right, Bytes.isAt_append_right,
    h.isBefore_append b _ rfl]

/-- The keyword of a list of declared names is noticed at the same distance. -/
private theorem visitDeclarator_append (h : Heading x) (b : Bytes) (k : Nat) :
    visitDeclarator (x ++ b) (x.size + k) = visitDeclarator b k := by
  unfold visitDeclarator
  simp only [Bytes.isAt_append_right, Bytes.satAt_append_right, Nat.add_assoc,
    h.runStart_append b (p := Byte.isNamePart) rfl, Bytes.slice_append_add,
    h.isBefore_append b '.' rfl]

/-- A comma lies in such a list behind a heading too. The scan back may come to the line break, but
it is neither a semicolon nor part of a word, so it answers nothing. -/
private theorem inDeclaratorList_append (h : Heading x) (b : Bytes) (comma : Nat) :
    inDeclaratorList (x ++ b) (x.size + comma) = inDeclaratorList b comma := by
  refine h.scanBack_append_getD b (fun depth k => ?_) (fun depth a hhalt => ?_) 0 comma
  · rw [visitOutside_append b (fun _ => false) (visitDeclarator b) (e := id),
      Visit.map_id]
    · rfl
    · rw [h.visitDeclarator_append, Visit.map_id]
  · -- a line break is no part of a word
    have hvisit := h.visitOutside_line b hhalt
    have hsemi : (x ++ b).isAt (x.size - 1) ';' = false := h.satAt_line b (·.is ';')
    have hname : (x ++ b).satAt (x.size - 1) Byte.isNamePart = false := h.satAt_line b _
    simp [visitDeclarator, hsemi, hname] at hvisit

/-- A name or pattern starts at the same distance. -/
private theorem patternStart_append (h : Heading x) (b : Bytes) (p : Nat) :
    patternStart (x ++ b) (x.size + p) = (patternStart b p).map (x.size + ·) := by
  unfold patternStart
  simp only [Bytes.satAt_append_right, h.enclosingOpen_append, Nat.add_assoc, h.nameStart_append,
    Nat.add_lt_add_iff_left]
  split
  · rfl
  · split <;> rfl

/-- No name and no pattern ends with the comment. The slash is no closing bracket and no byte of a
name. -/
private theorem patternStart_slash (h : Heading x) (b : Bytes) :
    patternStart (x ++ b) (x.size - 2) = none := by
  have hlong := h.long
  unfold patternStart
  rw [h.satAt_slash, show x.size - 2 + 1 = x.size - 1 by omega, h.nameStart_slash,
    if_neg (Nat.lt_irrefl _)]
  rfl

/-- The dots of a rest parameter do not reach over a line break. If the three bytes reach into the
heading, one of them is the line break, which is no dot. -/
private theorem dotsBefore_append (h : Heading x) (b : Bytes) (start : Nat) :
    (decide (3 ≤ x.size + start) && (x ++ b).hasAt (x.size + start - 3) "...") =
      (decide (3 ≤ start) && b.hasAt (start - 3) "...") := by
  have hlong := h.long
  -- the dots stand in the text, or reach into the heading
  by_cases hstart : 3 ≤ start
  · rw [show x.size + start - 3 = x.size + (start - 3) by omega, Bytes.hasAt_append_right,
      decide_eq_true hstart, decide_eq_true (by omega)]
  · rw [decide_eq_false hstart, Bool.false_and, Bool.and_eq_false_iff, ← Bool.not_eq_true,
      ← Bool.not_eq_true]
    refine .inr fun hdots => ?_
    -- the line break is one of the three bytes
    have hsize : (Bytes.ofString "...").size = 3 := by decide
    have hdot : (x ++ b)[x.size + start - 3 + (2 - start)]? = some (Byte.ofChar '.') := by
      rw [Bytes.getElem?_of_hasAt hdots (by omega)]
      obtain rfl | rfl | rfl : start = 0 ∨ start = 1 ∨ start = 2 := by omega
      all_goals decide
    have hline : (x ++ b).isAt (x.size - 1) '.' = false := h.satAt_line b (·.is '.')
    rw [show x.size + start - 3 + (2 - start) = x.size - 1 by omega] at hdot
    rw [Bytes.isAt, hdot] at hline
    exact absurd hline (by decide)

/-- What an annotation belongs to is the same. Where nothing stands before the pattern, the slash of
the heading is neither a bracket nor a comma nor the end of a keyword. -/
private theorem annotatedBy_append (h : Heading x) (b : Bytes) (start : Nat) :
    annotatedBy (x ++ b) (x.size + start) = annotatedBy b start := by
  unfold annotatedBy
  have hbefore : (if 3 ≤ x.size + start && (x ++ b).hasAt (x.size + start - 3) "..." then
        x.size + start - 3 else x.size + start) =
      x.size + if 3 ≤ start && b.hasAt (start - 3) "..." then start - 3 else start := by
    rw [h.dotsBefore_append]
    split
    · rename_i hdots
      simp only [Bool.and_eq_true, decide_eq_true_eq] at hdots
      omega
    · rfl
  simp only [hbefore, h.lastInk_append]
  cases b.lastInk _ with
  | none =>
    -- the slash is neither a bracket nor a comma, and it ends no word
    have hopen : (x ++ b).isAt (x.size - 2) '(' = false := h.satAt_slash b (·.is '(')
    have hcomma : (x ++ b).isAt (x.size - 2) ',' = false := h.satAt_slash b (·.is ',')
    have hword := h.wordBefore_slash b declarators (by decide)
    simp [hopen, hcomma, hword]
  | some prev =>
    simp only [Option.elim_some, Option.bind_eq_bind, Option.bind_some, Bytes.isAt_append_right,
      h.enclosingOpen_append, h.inDeclaratorList_append, Nat.add_assoc, h.wordBefore_append,
      Option.any_map]

/-- The annotation that a colon starts is the same, at the same distance. Before the colon and
before a marker there may be the slash of the heading only, and no pattern ends with that. -/
theorem annotationOf_append (h : Heading x) (b : Bytes) (colon : Nat) :
    annotationOf (x ++ b) (x.size + colon) =
      (annotationOf b colon).map (Prod.map (x.size + ·) id) := by
  unfold annotationOf
  rw [h.lastInk_append]
  cases b.lastInk colon with
  | none =>
    -- the slash is no marker, and no pattern ends with it
    have hmark : (x ++ b).satAt (x.size - 2) (·.among ['?', '!']) = false := h.satAt_slash b _
    simp [hmark, h.patternStart_slash]
  | some p =>
    simp only [Option.elim_some, Option.bind_eq_bind, Option.bind_some, Bytes.satAt_append_right,
      h.lastInk_append]
    -- the marker, if there is one, is passed over before the pattern is looked for
    cases b.satAt p (·.among ['?', '!']) with
    | true =>
      cases b.lastInk p with
      | none => simp [h.patternStart_slash]
      | some last =>
        simp only [if_true, Option.elim_some, Option.bind_some, h.patternStart_append]
        cases patternStart b last with
        | none => rfl
        | some pattern =>
          simp only [Option.map_some, Option.bind_some, h.annotatedBy_append]
          cases annotatedBy b pattern <;> rfl
    | false =>
      simp only [Bool.false_eq_true, if_false, h.patternStart_append]
      cases patternStart b p with
      | none => rfl
      | some pattern =>
        simp only [Option.map_some, Option.bind_some, h.annotatedBy_append]
        cases annotatedBy b pattern <;> rfl

/-- **Annotations** stand at the same distance. -/
theorem annotationAt_append (h : Heading x) (b : Bytes) (cursor i : Nat) :
    annotationAt (x ++ b) (x.size + cursor) (x.size + i) =
      (annotationAt b cursor i).map (Match.shift x.size) := by
  unfold annotationAt
  rw [h.isColon_append, h.annotationOf_append]
  split
  · cases annotationOf b i with
    | none => rfl
    | some found =>
      simp only [Option.map_some, Prod.map_fst, Nat.add_le_add_iff_left]
      split <;> rfl
  · rfl

/-- The type of an annotation ends at the same distance. -/
private theorem annotatedTypeStop_append (h : Heading x) (b : Bytes) (annotated : Annotated)
    (start : Nat) :
    annotatedTypeStop (x ++ b) annotated (x.size + start) =
      x.size + annotatedTypeStop b annotated start := by
  refine h.findStop_append b (fun k => ?_) .type start
  rw [Bytes.satAt_append_right, h.isAssign_append, h.endsLine_append]

end Heading

/-- The item `n` bytes further on. -/
def AnnotatedItem.shift (n : Nat) (item : AnnotatedItem) : AnnotatedItem :=
  ⟨n + item.copied, n + item.start, n + item.colon⟩

section Item

variable (x b : Bytes)

/-- The name of an item starts at the same distance behind any text. -/
private theorem itemName_append_right (i : Nat) :
    itemName (x ++ b) (x.size + i) = x.size + itemName b i := by
  unfold itemName
  rw [Bytes.skipSpace_append_right, Bytes.hasAt_append_right]
  split <;> rfl

private theorem markerColon_append_right (marker : Nat) :
    markerColon (x ++ b) (x.size + marker) = x.size + markerColon b marker := by
  unfold markerColon
  rw [Bytes.isAt_append_right, Nat.add_assoc, Bytes.skipBlanks_append_right]
  split <;> rfl

/-- A colon that is not at the start of the text has the same byte before it behind any text. -/
private theorem isColon_append_right {i : Nat} (hi : 0 < i) :
    isColon (x ++ b) (x.size + i) = isColon b i := by
  rw [isColon, isColon, Nat.add_assoc, Bytes.isAt_append_right, Bytes.isAt_append_right,
    Bytes.isBefore_append_right x b hi]

/-- **The next item of a list is found behind any text**, since the list has begun before it. -/
theorem nextAnnotated_append_right {i : Nat} (hi : 0 < i) :
    nextAnnotated (x ++ b) (x.size + i) =
      (nextAnnotated b i).map (Prod.map (x.size + ·) (x.size + ·)) := by
  -- the colon stands behind the start, so it has a byte of the same text before it
  have hcolon : 0 < markerColon b (b.skipBlanks (nameStop b (itemName b i))) :=
    calc 0 < i := hi
      _ ≤ itemName b i := le_itemName b i
      _ ≤ nameStop b (itemName b i) := le_nameStop b _
      _ ≤ b.skipBlanks (nameStop b (itemName b i)) := b.le_skipWhile _ _
      _ ≤ markerColon b (b.skipBlanks (nameStop b (itemName b i))) := le_markerColon b _
  unfold nextAnnotated
  simp only [itemName_append_right, nameStop_append_right, Bytes.skipBlanks_append_right,
    markerColon_append_right, decide_add_lt, isColon_append_right x b hcolon]
  split <;> rfl

variable {x b} {annotated : Annotated} (htype : ∀ start, 0 < start →
  annotatedTypeStop (x ++ b) annotated (x.size + start) =
    x.size + annotatedTypeStop b annotated start)

include htype

/-- The type of an item ends at the same distance, as that of every annotation does by
assumption. -/
private theorem itemTypeStop_append_right (item : AnnotatedItem) :
    (item.shift x.size).typeStop (x ++ b) annotated = x.size + item.typeStop b annotated :=
  htype (item.colon + 1) (Nat.succ_pos _)

private theorem itemStop_append_right (item : AnnotatedItem) :
    (item.shift x.size).stop (x ++ b) annotated = x.size + item.stop b annotated := by
  rw [AnnotatedItem.stop, itemTypeStop_append_right htype]
  exact Bytes.trimEnd_append_right x b _ _

private theorem itemSegments_append_right (item : AnnotatedItem) :
    (item.shift x.size).segments (x ++ b) annotated = item.segments b annotated := by
  rw [AnnotatedItem.segments, itemStop_append_right htype, AnnotatedItem.shift,
    Segment.keep_append_right, Segment.erase_append_right, AnnotatedItem.segments]

/-- The item behind it is the same one further on. -/
private theorem itemNext_append_right (item : AnnotatedItem) :
    (item.shift x.size).next (x ++ b) annotated =
      (item.next b annotated).map (AnnotatedItem.shift x.size) := by
  unfold AnnotatedItem.next
  simp only [itemTypeStop_append_right htype, itemStop_append_right htype, Bytes.isAt_append_right,
    Nat.add_assoc, nextAnnotated_append_right x b (Nat.succ_pos _)]
  split
  · cases nextAnnotated b (item.typeStop b annotated + 1) <;> rfl
  · rfl

/-- **The items of a list are gone through in step** behind any text, if their types end in the same
places. The recursion is that of the list, from one item to the next. -/
theorem annotatedItems_append_right (item : AnnotatedItem) :
    annotatedItems (x ++ b) annotated (item.shift x.size) =
      (annotatedItems b annotated item).shift x.size := by
  rw [Alike.annotatedItems_eq_match, Alike.annotatedItems_eq_match b, itemNext_append_right htype,
    itemStop_append_right htype, itemSegments_append_right htype]
  cases hnext : item.next b annotated with
  | none => rfl
  | some next =>
    -- the next colon lies further on, so less of the text is left
    have := AnnotatedItem.colon_lt_next hnext
    have hrest := annotatedItems_append_right next
    dsimp only [Option.map_some]
    rw [hrest]
    rfl
termination_by b.size - item.colon

end Item

namespace Heading

variable {x : Bytes}

/-- An annotation is patched alike, with the items behind it. -/
theorem annotationPatch_append (h : Heading x) (b : Bytes) {m : Match} (hm : 0 < m.stop) :
    annotationPatch (x ++ b) (m.shift x.size) = (annotationPatch b m).shift x.size := by
  have hcolon : (m.shift x.size).stop - 1 = x.size + (m.stop - 1) :=
    Nat.add_sub_assoc hm x.size
  rw [annotationPatch, annotationPatch, hcolon, h.annotationOf_append,
    ← annotatedItems_append_right fun start _ => h.annotatedTypeStop_append b _ start]
  cases annotationOf b (m.stop - 1) <;> rfl

/-! ### Return types -/

/-- A conditional expression is noticed at the same distance. -/
private theorem visitConditional_append (h : Heading x) (b : Bytes) (k : Nat) :
    visitConditional (x ++ b) (x.size + k) = visitConditional b k := by
  unfold visitConditional
  rw [Bytes.satAt_append_right, Bytes.isAt_append_right, Nat.add_assoc, Bytes.satAt_append_right,
    h.isBefore_append b _ rfl]

/-- The line break of the heading ends the search for a conditional expression, as the start of a
text does. Both answer that there is none. -/
private theorem inConditional_append (h : Heading x) (b : Bytes) (o : Nat) :
    inConditional (x ++ b) (x.size + o) = inConditional b o := by
  refine h.scanBack_append_getD b (fun depth k => ?_) (fun depth a hhalt => ?_) 0 o
  · rw [visitOutside_append b (fun _ => false) (visitConditional b) (e := id),
      Visit.map_id]
    · rfl
    · rw [h.visitConditional_append, Visit.map_id]
  · have hvisit := h.visitOutside_line b hhalt
    have hline : (x ++ b).satAt (x.size - 1) (·.among ['\n', ';']) = true := h.satAt_line b _
    simpa [visitConditional, hline] using hvisit.symm

/-- A round bracket can open parameters behind a heading too. -/
private theorem canOpenParameters_append (h : Heading x) (b : Bytes) (o : Nat) :
    canOpenParameters (x ++ b) (x.size + o) = canOpenParameters b o := by
  unfold canOpenParameters
  simp only [Bytes.isAt_append_right, h.lastCode_append, Option.any_map, h.inConditional_append,
    Nat.add_assoc, h.wordBefore_append]

/-- The end of the code before an offset. If there is none, it is the end of the heading's comment.
By induction on the offset: the line break is left off with the whitespace before the text, and the
slash is not. -/
private theorem trimEnd_zero_append (h : Heading x) (b : Bytes) (i : Nat) :
    (x ++ b).trimEnd 0 (x.size + i) =
      if b.trimEnd 0 i = 0 then x.size - 1 else x.size + b.trimEnd 0 i := by
  have hlong := h.long
  induction i with
  | zero =>
    -- the line break is trimmed, the slash before it is not
    obtain ⟨k, hk⟩ : ∃ k, x.size = k + 2 := ⟨x.size - 2, by omega⟩
    have hline := h.satAt_line b Byte.isSpace
    have hslash := h.satAt_slash b Byte.isSpace
    rw [hk, show k + 2 - 1 = k + 1 from rfl] at hline
    rw [hk, Nat.add_sub_cancel] at hslash
    have hfirst : (x ++ b).trimEnd 0 (k + 2) = k + 1 := by
      rw [Bytes.trimEnd, hline, if_pos (by simp; decide), Bytes.trimEnd, hslash,
        if_neg (by simp; decide)]
    rw [Nat.add_zero, hk, hfirst]
    rfl
  | succ k ih =>
    rw [← Nat.add_assoc, Bytes.trimEnd, Bytes.trimEnd, Bytes.satAt_append_right,
      decide_eq_true (by omega), decide_eq_true (by omega), ih]
    split
    · rfl
    · rw [if_neg (Nat.succ_ne_zero k)]
      rfl

/-- A colon follows parameters behind a heading too. Where nothing stands before it, the slash of
the heading is no closing bracket. -/
private theorem followsParameters_append (h : Heading x) (b : Bytes) (colon : Nat) :
    followsParameters (x ++ b) (x.size + colon) = followsParameters b colon := by
  have hlong := h.long
  unfold followsParameters
  dsimp only
  rw [h.trimEnd_zero_append]
  by_cases hclose : b.trimEnd 0 colon = 0
  · -- the comment of the heading is no parameter list
    have hround : (x ++ b).isBefore (x.size - 1) ')' = false := by
      have hslash : (x ++ b).isAt (x.size - 2) ')' = false := h.satAt_slash b (·.is ')')
      rw [Bytes.isBefore, show x.size - 1 - 1 = x.size - 2 by omega, hslash, Bool.and_false]
    rw [if_pos hclose, hround, hclose]
    rfl
  · rw [if_neg hclose, h.isBefore_append b _ rfl, Nat.add_sub_assoc (Nat.pos_of_ne_zero hclose),
      h.enclosingOpen_append, Option.any_map]
    simp only [h.canOpenParameters_append]

/-- A leading object or function type ends at the same distance. -/
private theorem skipLeadingGroup_append (h : Heading x) (b : Bytes) (i : Nat) :
    skipLeadingGroup (x ++ b) (x.size + i) = (skipLeadingGroup b i).map (x.size + ·) := by
  unfold skipLeadingGroup
  simp only [Bytes.satAt_append_right, Nat.add_assoc, h.findClose_append, Array.size_append,
    Nat.add_lt_add_iff_left, Bytes.skipSpace_append_right, Bytes.isAt_append_right,
    Bytes.hasAt_append_right]
  repeat' split
  all_goals rfl

/-- A return type ends at the same distance, if there is one. -/
private theorem returnTypeStop_append (h : Heading x) (b : Bytes) (colon : Nat) :
    returnTypeStop (x ++ b) (x.size + colon) = (returnTypeStop b colon).map (x.size + ·) := by
  unfold returnTypeStop
  rw [h.followsParameters_append, Nat.add_assoc, Bytes.skipSpace_append_right,
    h.skipLeadingGroup_append]
  split
  · cases skipLeadingGroup b (b.skipSpace (colon + 1)) with
    | none => rfl
    | some i =>
      -- the type is searched for with the same condition in both texts
      have hstop := h.findStop_append b (f := fun i => b.satAt i (·.among ['{', ';']) ||
          (b.isAt i '=' && b.isAt (i + 1) '>') || endsLine b (colon + 1) i)
        (g := fun i => (x ++ b).satAt i (·.among ['{', ';']) ||
          ((x ++ b).isAt i '=' && (x ++ b).isAt (i + 1) '>') ||
            endsLine (x ++ b) (x.size + (colon + 1)) i)
        (fun k => by
          rw [Bytes.satAt_append_right, Bytes.isAt_append_right, Nat.add_assoc,
            Bytes.isAt_append_right, h.endsLine_append]) .type i
      simp only [Option.map_some, hstop, Bytes.trimEnd_append_right, Bytes.satAt_append_right,
        decide_add_lt]
      split <;> rfl
  · rfl

/-- **Return types** stand at the same distance. -/
theorem returnTypeAt_append (h : Heading x) (b : Bytes) (i : Nat) :
    returnTypeAt (x ++ b) (x.size + i) = (returnTypeAt b i).map (Match.shift x.size) := by
  rw [returnTypeAt, returnTypeAt, Bytes.isAt_append_right, Nat.add_assoc, Bytes.isAt_append_right,
    h.returnTypeStop_append, Option.isSome_map]
  split <;> rfl

/-- A return type is patched alike. -/
theorem returnTypePatch_append (h : Heading x) (b : Bytes) (m : Match) :
    returnTypePatch (x ++ b) (m.shift x.size) = (returnTypePatch b m).shift x.size := by
  have hstop : (returnTypeStop (x ++ b) (x.size + m.start)).getD (x.size + m.stop) =
      x.size + (returnTypeStop b m.start).getD m.stop := by
    rw [h.returnTypeStop_append]
    exact Option.getD_map _ _ _
  rw [returnTypePatch, returnTypePatch, ← Patch.erase_append_right, ← hstop]
  rfl

/-! ### Type arguments -/

private theorem fitsType_append (h : Heading x) (b : Bytes) (o : OpenBrackets) (i : Nat)
    (c : Byte) : fitsType (x ++ b) o (x.size + i) c = fitsType b o i c := by
  rw [fitsType, fitsType, Nat.add_assoc, Bytes.isAt_append_right, h.isBefore_append b _ rfl,
    h.isBefore_append b _ rfl, Bytes.satAt_append_right]

/-- **A list of type arguments ends at the same distance.** The recursion is that of the search; a
string type is one step of it, which leads further than any other. -/
private theorem typeListClose_append (h : Heading x) (b : Bytes) (o : OpenBrackets) (i : Nat) :
    typeListClose (x ++ b) o (x.size + i) = (typeListClose b o i).map (x.size + ·) := by
  rw [Alike.typeListClose_eq_match, Alike.typeListClose_eq_match b, Bytes.getElem?_append_add,
    h.isBefore_append b _ rfl, h.literalAt_append, Nat.add_assoc]
  cases hi : b[i]? with
  | none => rfl
  | some c =>
    have hlt := (Array.getElem?_eq_some_iff.mp hi).1
    simp only [typeListClose_append h b _ (i + 1), h.fitsType_append]
    cases hl : literalAt b i with
    | none =>
      -- no string type stands here
      dsimp only [Option.map_none]
      cases o.count c <;> dsimp only <;> repeat' split
      all_goals rfl
    | some l =>
      -- a string type is passed over
      have := lt_stop_of_literalAt hl
      have hquote : typeListClose (x ++ b) o (l.shift x.size).span.stop =
          (typeListClose b o l.span.stop).map (x.size + ·) :=
        typeListClose_append h b o l.span.stop
      dsimp only [Option.map_some]
      rw [hquote]
      cases o.count c <;> dsimp only <;> repeat' split
      all_goals rfl
termination_by b.size - i

/-- What may follow a list of type arguments follows it behind a heading. -/
private theorem followsTypeList_append (h : Heading x) (b : Bytes) (i : Nat) :
    followsTypeList (x ++ b) (x.size + i) = followsTypeList b i := by
  rw [followsTypeList, followsTypeList, Bytes.satAt_append_right, h.keywordAt_append,
    h.keywordAt_append]

/-- **Type arguments** stand at the same distance. They ask for a name before them, and a line break
ends none. -/
theorem typeArgumentsAt_append (h : Heading x) (b : Bytes) (i : Nat) :
    typeArgumentsAt (x ++ b) (x.size + i) = (typeArgumentsAt b i).map (Match.shift x.size) := by
  have hname := h.satBefore_append b (p := Byte.isNamePart) rfl i
  unfold typeArgumentsAt
  rw [Bool.and_right_comm (decide _) (Bytes.isAt _ _ _), hname, Bytes.isAt_append_right,
    Nat.add_assoc, Bytes.satAt_append_right, h.typeListClose_append,
    Bool.and_right_comm (decide (0 < i)) (b.satAt (i - 1) _)]
  cases typeListClose b {} i with
  | none =>
    dsimp only [Option.map_none]
    split <;> rfl
  | some close =>
    simp only [Option.map_some, Nat.add_assoc, Bytes.skipSpace_append_right,
      h.followsTypeList_append]
    repeat' split
    all_goals rfl

theorem typeArgumentsPatch_append (b : Bytes) (m : Match) :
    typeArgumentsPatch (x ++ b) (m.shift x.size) = (typeArgumentsPatch b m).shift x.size :=
  Patch.erase_append_right x b m.start m.stop

end Heading

end TypeErasure
