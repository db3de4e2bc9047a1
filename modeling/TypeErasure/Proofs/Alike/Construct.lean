import Mathlib.Data.List.Forall2
import TypeErasure.Proofs.Alike

/-!
# The constructs of texts that are alike

Each construct is found at the same offsets of two texts that are alike, and its patch cuts both at
the same offsets: the segments of the two patches are `Cognate`. This module has all constructs but
the classes, which are gone through in `TypeErasure.Proofs.Alike.Class`.
-/

namespace TypeErasure

/-! ### Segments of two texts -/

/-- The segments are cut from the two texts at the same offsets, and share their fate. -/
inductive Segment.Cognate (a b : Bytes) : Segment → Segment → Prop where
  | keep (i j : Nat) : Cognate a b (.keep a i j) (.keep b i j)
  | erase (i j : Nat) : Cognate a b (.erase a i j) (.erase b i j)
  | nested (i j : Nat) : Cognate a b (.nested (a.slice i j)) (.nested (b.slice i j))

/-- The segments of two texts are cognate one by one. -/
abbrev Segment.Cognates (a b : Bytes) : List Segment → List Segment → Prop :=
  List.Forall₂ (Segment.Cognate a b)

/-- The patches cut the two texts at the same offsets. -/
structure Patch.Cognate (a b : Bytes) (p q : Patch) : Prop where
  stop : p.stop = q.stop
  segments : Segment.Cognates a b p.segments q.segments
  notices : p.notices = q.notices

/-- Patches that comment out the same range are cognate. -/
theorem Patch.erase_cognate (a b : Bytes) (i j : Nat) :
    Patch.Cognate a b (.erase a i j) (.erase b i j) :=
  ⟨rfl, .cons (.erase i j) .nil, rfl⟩

namespace Alike

variable {a b : Bytes}

/-! ### Statements -/

/-- A statement starts at the same offsets of both texts. What stands before it on its line are
blanks, and before these a sign or the end of a comment. -/
theorem atStatementStart_eq (h : Alike a b) (i : Nat) :
    atStatementStart a i = atStatementStart b i := by
  have hblank : Byte.Blind Byte.isBlank := Byte.blind_among rfl
  unfold atStatementStart
  simp (disch := decide) only [h.runStart_eq hblank, h.satAt_among, h.closesComment_eq]

/-- The keyword of a statement stands at the same offsets, with `export` before it or without. -/
theorem statementKeyword_eq (h : Alike a b) {w : String} (hw : vocabulary.contains w = true)
    (i : Nat) : statementKeyword a i w = statementKeyword b i w := by
  unfold statementKeyword
  simp (disch := decide) only [h.keywordAt_eq hw, h.keywordAt_eq, h.skipBlanks_eq,
    h.atStatementStart_eq]

theorem namedStatement_eq (h : Alike a b) {w : String} (hw : vocabulary.contains w = true)
    (i : Nat) : namedStatement a i w = namedStatement b i w := by
  unfold namedStatement
  simp only [h.statementKeyword_eq hw, h.skipBlanks_eq, h.satAt_eq Byte.blind_isNameStart]

/-- **Interfaces** stand at the same offsets. -/
theorem interfaceAt_eq (h : Alike a b) (i : Nat) : interfaceAt a i = interfaceAt b i := by
  rw [interfaceAt, interfaceAt, h.namedStatement_eq (by decide)]

/-- **Ambient declarations** stand at the same offsets. -/
theorem ambientAt_eq (h : Alike a b) (i : Nat) : ambientAt a i = ambientAt b i := by
  rw [ambientAt, ambientAt, h.namedStatement_eq (by decide)]

/-- A declaration is commented out alike. Both texts have a bracket where its body would start or
neither has one, and the body is closed in both or in neither. -/
private theorem declarationPatch_cognate (h : Alike a b) (m : Match) (stop : Nat) :
    Patch.Cognate a b (declarationPatch a m stop) (declarationPatch b m stop) := by
  unfold declarationPatch
  simp (disch := decide) only [h.isAt_eq, h.findClose_eq, h.size_eq, h.statementStop_eq]
  -- a declaration with a body ends behind it, or with the text if the body is never closed
  split
  · split
    · exact Patch.erase_cognate a b _ _
    · exact ⟨rfl, .cons (.erase _ _) .nil, rfl⟩
  · -- without a body, it ends with its statement
    exact Patch.erase_cognate a b _ _

/-- An interface ends at the same offset of both texts, which is that of its body. -/
theorem interfacePatch_cognate (h : Alike a b) (m : Match) :
    Patch.Cognate a b (interfacePatch a m) (interfacePatch b m) := by
  unfold interfacePatch
  simp (disch := decide) only [h.satAt_among, h.findStop_eq]
  exact h.declarationPatch_cognate m _

/-- An ambient declaration does too, though its line may end it as well. -/
theorem ambientPatch_cognate (h : Alike a b) (m : Match) :
    Patch.Cognate a b (ambientPatch a m) (ambientPatch b m) := by
  unfold ambientPatch
  simp (disch := decide) only [h.satAt_among, h.endsLine_eq, h.findStop_eq]
  exact h.declarationPatch_cognate m _

/-- A list of type parameters ends at the same offset. -/
theorem skipTypeParameters_eq (h : Alike a b) (i : Nat) :
    skipTypeParameters a i = skipTypeParameters b i := by
  unfold skipTypeParameters
  simp (disch := decide) only [h.isAt_eq, h.findClose_eq, h.skipSpace_eq]

/-- **Type aliases** stand at the same offsets: keyword, name, type parameters and sign do. -/
theorem typeAliasAt_eq (h : Alike a b) (i : Nat) : typeAliasAt a i = typeAliasAt b i := by
  unfold typeAliasAt
  simp (disch := decide) only [h.statementKeyword_eq, h.skipBlanks_eq, h.nameStop_eq,
    h.skipSpace_eq, h.skipTypeParameters_eq, h.isAssign_eq]

theorem typeAliasPatch_cognate (h : Alike a b) (m : Match) :
    Patch.Cognate a b (typeAliasPatch a m) (typeAliasPatch b m) := by
  unfold typeAliasPatch
  simp (disch := decide) only [h.isAt_eq, h.endsLine_eq, h.findStop_eq, h.statementStop_eq]
  exact Patch.erase_cognate a b _ _

/-! ### Casts -/

/-- A list of imported or exported names is one in both texts. -/
theorem inBindingList_eq (h : Alike a b) (i : Nat) : inBindingList a i = inBindingList b i := by
  unfold inBindingList
  simp (disch := decide) only [h.enclosingOpen_eq, h.isAt_eq, h.lastInk_eq, h.wordBefore_eq]

/-- The operand of a cast is one in both texts. The words that cannot be operands are in the
vocabulary. -/
theorem castOperandBefore_eq (h : Alike a b) (i : Nat) :
    castOperandBefore a i = castOperandBefore b i := by
  unfold castOperandBefore
  simp (disch := decide) only [h.lastInk_eq, h.isAt_eq, h.wordBefore_eq]

/-- **Casts** stand at the same offsets. What the recognition asks of the bytes around the keyword
are classes that see no spelling. -/
theorem castAt_eq (h : Alike a b) (i : Nat) : castAt a i = castAt b i := by
  have hblank : Byte.Blind Byte.isBlank := Byte.blind_among rfl
  have hspace : Byte.Blind Byte.isSpace := Byte.blind_among rfl
  have hstart : Byte.Blind startsCastType := Byte.blind_isNameStart.or (Byte.blind_among rfl)
  unfold castAt
  simp (disch := decide) only [h.satAt_eq hblank, h.satAt_eq hspace, h.satAt_eq hstart,
    h.keywordAt_eq, h.skipSpace_eq, h.castOperandBefore_eq, h.inBindingList_eq]

theorem castPatch_cognate (h : Alike a b) (m : Match) :
    Patch.Cognate a b (castPatch a m) (castPatch b m) := by
  unfold castPatch
  simp (disch := decide) only [h.satAt_among, h.endsLine_eq, h.findStop_eq, h.trimEnd_eq]
  exact Patch.erase_cognate a b _ _

/-! ### Return types -/

/-- A conditional expression is noticed at the same offsets. -/
theorem visitConditional_eq (h : Alike a b) (k : Nat) :
    visitConditional a k = visitConditional b k := by
  unfold visitConditional
  simp (disch := decide) only [h.satAt_among, h.isAt_eq, h.isBefore_eq]

/-- An offset lies in a conditional expression in both texts or in none, since the scan back from it
is made with the same visitor. -/
theorem inConditional_eq (h : Alike a b) (o : Nat) : inConditional a o = inConditional b o := by
  have hvisit : visitConditional a = visitConditional b := funext h.visitConditional_eq
  rw [inConditional, inConditional, hvisit, h.visitOutside_eq, h.scanBack_eq]

/-- A round bracket can open parameters in both texts or in none. -/
theorem canOpenParameters_eq (h : Alike a b) (o : Nat) :
    canOpenParameters a o = canOpenParameters b o := by
  unfold canOpenParameters
  simp (disch := decide) only [h.isAt_eq, h.lastCode_eq, h.wordBefore_eq, h.inConditional_eq]

/-- A colon follows parameters in both texts or in none. -/
theorem followsParameters_eq (h : Alike a b) (colon : Nat) :
    followsParameters a colon = followsParameters b colon := by
  have hopen : canOpenParameters a = canOpenParameters b := funext h.canOpenParameters_eq
  unfold followsParameters
  simp (disch := decide) only [h.trimEnd_eq, h.isBefore_eq, h.enclosingOpen_eq, hopen]

/-- A leading object or function type ends at the same offset. The arrow is a sign and not a
word. -/
theorem skipLeadingGroup_eq (h : Alike a b) (i : Nat) :
    skipLeadingGroup a i = skipLeadingGroup b i := by
  unfold skipLeadingGroup
  simp (disch := decide) only [h.satAt_among, h.findClose_eq, h.size_eq, h.skipSpace_eq, h.isAt_eq,
    h.hasAt_sign]

/-- A return type ends at the same offset, if there is one. -/
theorem returnTypeStop_eq (h : Alike a b) (colon : Nat) :
    returnTypeStop a colon = returnTypeStop b colon := by
  unfold returnTypeStop
  simp (disch := decide) only [h.followsParameters_eq, h.skipLeadingGroup_eq, h.skipSpace_eq,
    h.isAt_eq, h.satAt_among, h.endsLine_eq, h.findStop_eq, h.trimEnd_eq]

/-- **Return types** stand at the same offsets. -/
theorem returnTypeAt_eq (h : Alike a b) (i : Nat) : returnTypeAt a i = returnTypeAt b i := by
  unfold returnTypeAt
  simp (disch := decide) only [h.isAt_eq, h.returnTypeStop_eq]

theorem returnTypePatch_cognate (h : Alike a b) (m : Match) :
    Patch.Cognate a b (returnTypePatch a m) (returnTypePatch b m) := by
  rw [returnTypePatch, returnTypePatch, h.returnTypeStop_eq]
  exact Patch.erase_cognate a b _ _

/-! ### Lists of type arguments -/

/-- One step of the search for the end of a list of type arguments. The definition goes by the same
branches, but each carries the proof that the search makes progress. -/
theorem typeListClose_eq_match (b : Bytes) (o : OpenBrackets) (i : Nat) :
    typeListClose b o i =
      match b[i]? with
      | none => none
      | some c =>
        if c.is '<' then typeListClose b { o with angle := o.angle + 1 } (i + 1)
        else if c.is '>' then
          if b.isBefore i '=' then typeListClose b o (i + 1)
          else if o.angle = 1 then if o.onlyAngle then some i else none
          else typeListClose b { o with angle := o.angle - 1 } (i + 1)
        else if c.isQuote then
          match literalAt b i with
          | none => none
          | some l => typeListClose b o l.span.stop
        else if c.isOpener || c.isCloser then
          match o.count c with
          | none => none
          | some o => typeListClose b o (i + 1)
        else if fitsType b o i c then typeListClose b o (i + 1)
        else none := by
  rw [typeListClose]
  split
  · rename_i hi
    rw [hi]
  · rename_i c hi
    rw [hi]
    dsimp only
    -- brackets, quotes and the other bytes are told apart as in the definition
    split
    · rfl
    · split
      · rfl
      · split
        · split <;> rename_i hl <;> rw [hl]
        · rfl

/-- A list of type arguments goes on behind a byte of a name. So it does not matter which byte it
is. -/
theorem typeListClose_of_isNamePart {o : OpenBrackets} {i : Nat} {c : Byte} (hc : b[i]? = some c)
    (hname : c.isNamePart = true) : typeListClose b o i = typeListClose b o (i + 1) := by
  -- a byte of a name is no bracket, no quote and no sign
  have hchars : c.among ['<', '>', '\'', '"', '(', '[', '{', ')', ']', '}', '=', '&', '|', ';'] =
      false := Byte.excludes_among rfl c hname
  simp only [Byte.among, List.any_cons, List.any_nil, Bool.or_eq_false_iff] at hchars
  rw [typeListClose_eq_match, hc]
  simp [Byte.isQuote, Byte.isOpener, Byte.isCloser, fitsType, Byte.among, hchars, hname]

/-- What fits into a type fits into both. The test compares the byte at hand with its neighbours,
and it is no byte of a name here. -/
theorem fitsType_eq (h : Alike a b) (o : OpenBrackets) (i : Nat) {c : Byte}
    (hc : c.isNamePart = false) : fitsType a o i c = fitsType b o i c := by
  -- the byte is of no name, so it is compared as it is
  have hsame : Byte.Blind (· == c) := Byte.blind_of_excludes fun d hd => by
    rw [beq_eq_false_iff_ne]
    rintro rfl
    simp [hc] at hd
  unfold fitsType
  simp (disch := decide) only [h.isAt_eq, h.isBefore_eq, h.satAt_eq hsame]

/-- **A list of type arguments ends at the same offset.** The recursion is that of the search. A
byte of a name is passed over in both texts without a look at it, and any other byte is the same in
both. -/
theorem typeListClose_eq (h : Alike a b) (o : OpenBrackets) (i : Nat) :
    typeListClose a o i = typeListClose b o i := by
  rcases h.getElem?_cases i with ⟨ha, hb⟩ | ⟨c, d, ha, hb, hcd⟩
  · rw [typeListClose_eq_match, typeListClose_eq_match b, ha, hb]
  · have hlt := (Array.getElem?_eq_some_iff.mp ha).1
    cases hname : c.isNamePart with
    | true =>
      -- a byte of a name is passed over in both texts, whatever it is
      rw [typeListClose_of_isNamePart ha hname,
        typeListClose_of_isNamePart hb ((Byte.blind_isNamePart c d hcd).symm.trans hname)]
      exact h.typeListClose_eq o (i + 1)
    | false =>
      -- any other byte is the same in both texts
      obtain rfl := Byte.eq_of_guise hname hcd
      rw [typeListClose_eq_match, typeListClose_eq_match b, ha, hb, h.isBefore_eq rfl,
        h.literalAt_eq]
      have hnext (o : OpenBrackets) := h.typeListClose_eq o (i + 1)
      dsimp only
      rw [h.fitsType_eq o i hname]
      cases hl : literalAt b i with
      | none => simp only [hnext]
      | some l =>
        have := bounds_of_literalAt hl
        simp only [hnext, h.typeListClose_eq o l.span.stop]
termination_by a.size - i

/-- What may follow a list of type arguments follows it in both texts. -/
theorem followsTypeList_eq (h : Alike a b) (i : Nat) :
    followsTypeList a i = followsTypeList b i := by
  unfold followsTypeList
  simp (disch := decide) only [h.satAt_among, h.keywordAt_eq]

/-- **Type arguments** stand at the same offsets. -/
theorem typeArgumentsAt_eq (h : Alike a b) (i : Nat) :
    typeArgumentsAt a i = typeArgumentsAt b i := by
  unfold typeArgumentsAt
  simp (disch := decide) only [h.isAt_eq, h.satAt_eq Byte.blind_isNamePart, h.satAt_among,
    h.typeListClose_eq, h.skipSpace_eq, h.followsTypeList_eq]

/-! ### Annotations -/

/-- A colon that is part of no longer sign stands at the same offsets. -/
theorem isColon_eq (h : Alike a b) (i : Nat) : isColon a i = isColon b i := by
  rw [isColon, isColon, h.isAt_eq rfl, h.isAt_eq rfl, h.isBefore_eq rfl]

/-- The keyword of a list of declared names is noticed at the same offsets, since it is in the
vocabulary. -/
theorem visitDeclarator_eq (h : Alike a b) (k : Nat) :
    visitDeclarator a k = visitDeclarator b k := by
  unfold visitDeclarator
  simp (disch := decide) only [h.isAt_eq, h.satAt_eq Byte.blind_isNamePart,
    h.runStart_eq Byte.blind_isNamePart, h.any_slice_eq, h.isBefore_eq]

/-- A comma lies in such a list in both texts or in none. -/
theorem inDeclaratorList_eq (h : Alike a b) (comma : Nat) :
    inDeclaratorList a comma = inDeclaratorList b comma := by
  have hvisit : visitDeclarator a = visitDeclarator b := funext h.visitDeclarator_eq
  rw [inDeclaratorList, inDeclaratorList, hvisit, h.visitOutside_eq, h.scanBack_eq]

theorem patternStart_eq (h : Alike a b) (p : Nat) : patternStart a p = patternStart b p := by
  unfold patternStart
  simp (disch := decide) only [h.satAt_among, h.enclosingOpen_eq, h.nameStart_eq]

/-- What an annotation belongs to is the same in both texts. It depends on signs and brackets before
it and on words of the vocabulary. -/
theorem annotatedBy_eq (h : Alike a b) (start : Nat) :
    annotatedBy a start = annotatedBy b start := by
  unfold annotatedBy
  simp (disch := decide) only [h.hasAt_sign, h.lastInk_eq, h.isAt_eq, h.enclosingOpen_eq,
    h.inDeclaratorList_eq, h.wordBefore_eq]

/-- The annotation that a colon starts is the same in both texts. -/
theorem annotationOf_eq (h : Alike a b) (colon : Nat) :
    annotationOf a colon = annotationOf b colon := by
  unfold annotationOf
  simp (disch := decide) only [h.lastInk_eq, h.satAt_among, h.patternStart_eq, h.annotatedBy_eq]

/-- **Annotations** stand at the same offsets. -/
theorem annotationAt_eq (h : Alike a b) (cursor i : Nat) :
    annotationAt a cursor i = annotationAt b cursor i := by
  rw [annotationAt, annotationAt, h.isColon_eq, h.annotationOf_eq]

/-- The type of an annotation ends at the same offset. -/
theorem annotatedTypeStop_eq (h : Alike a b) (annotated : Annotated) (start : Nat) :
    annotatedTypeStop a annotated start = annotatedTypeStop b annotated start := by
  unfold annotatedTypeStop
  simp (disch := decide) only [h.satAt_among, h.isAssign_eq, h.endsLine_eq, h.findStop_eq]

/-- The next item of a list has its marker and its colon at the same offsets. -/
theorem nextAnnotated_eq (h : Alike a b) (i : Nat) : nextAnnotated a i = nextAnnotated b i := by
  unfold nextAnnotated itemName markerColon
  simp (disch := decide) only [h.hasAt_sign, h.skipSpace_eq, h.skipBlanks_eq, h.nameStop_eq,
    h.isAt_eq, h.isColon_eq]

section Item

variable (annotated : Annotated) (item : AnnotatedItem)

private theorem itemTypeStop_eq (h : Alike a b) :
    item.typeStop a annotated = item.typeStop b annotated :=
  h.annotatedTypeStop_eq annotated _

theorem itemStop_eq (h : Alike a b) : item.stop a annotated = item.stop b annotated := by
  rw [AnnotatedItem.stop, AnnotatedItem.stop, h.itemTypeStop_eq, h.trimEnd_eq]

private theorem itemNext_eq (h : Alike a b) : item.next a annotated = item.next b annotated := by
  unfold AnnotatedItem.next
  simp (disch := decide) only [h.itemTypeStop_eq, h.itemStop_eq, h.isAt_eq, h.nextAnnotated_eq]

/-- An item is cut alike: the text before its annotation is kept, and the annotation is commented
out. -/
private theorem itemSegments_cognates (h : Alike a b) :
    Segment.Cognates a b (item.segments a annotated) (item.segments b annotated) := by
  rw [AnnotatedItem.segments, AnnotatedItem.segments, h.itemStop_eq]
  exact .cons (.keep _ _) (.cons (.erase _ _) .nil)

end Item

/-- The items without the proof that the list gets shorter. -/
theorem annotatedItems_eq_match (b : Bytes) (annotated : Annotated) (item : AnnotatedItem) :
    annotatedItems b annotated item =
      match item.next b annotated with
      | none => { stop := item.stop b annotated, segments := item.segments b annotated }
      | some next =>
        { annotatedItems b annotated next with
          segments :=
            item.segments b annotated ++ (annotatedItems b annotated next).segments } := by
  rw [annotatedItems]
  split <;> simp [*]

/-- **A list of annotations is cut alike.** The induction follows the list in the first text, and
each item has the same successor in the second. -/
private theorem annotatedItems_cognate (h : Alike a b) (annotated : Annotated)
    (item : AnnotatedItem) :
    Patch.Cognate a b (annotatedItems a annotated item) (annotatedItems b annotated item) := by
  have hsegments := h.itemSegments_cognates annotated item
  fun_induction annotatedItems a annotated item with
  | case1 item hnone =>
    -- the item is followed by another one in both texts or in none
    rw [h.itemNext_eq] at hnone
    rw [annotatedItems]
    split
    · exact ⟨h.itemStop_eq annotated item, hsegments, rfl⟩
    · rename_i hsome
      simp [hnone] at hsome
  | case2 item next hnext rest ih =>
    rw [h.itemNext_eq] at hnext
    rw [annotatedItems]
    split
    · rename_i hnone
      simp [hnext] at hnone
    · rename_i next' hnext'
      obtain rfl : next = next' := Option.some.inj (hnext.symm.trans hnext')
      have hrest := ih (h.itemSegments_cognates annotated next)
      exact ⟨hrest.stop, List.rel_append hsegments hrest.segments, hrest.notices⟩

/-- An annotation is commented out alike, with the items behind it. -/
theorem annotationPatch_cognate (h : Alike a b) (m : Match) :
    Patch.Cognate a b (annotationPatch a m) (annotationPatch b m) := by
  unfold annotationPatch
  simp only [h.annotationOf_eq]
  exact h.annotatedItems_cognate _ _

end Alike

end TypeErasure
