import TypeErasure.Proofs.Grammar
import TypeErasure.Proofs.Alike.Construct

/-!
# The classes of texts that are alike

The header of a class is read alike from two texts that are alike, and so is its body, member by
member. With the other constructs this makes the two facts that a run needs:

* `Alike.nextMatch_eq` — the next construct of both texts is the same;
* `Alike.patchOf_cognate` — its patch cuts both at the same offsets.
-/

namespace TypeErasure

namespace Alike

variable {a b : Bytes}

/-! ### Class headers -/

/-- An angle bracket that closes is opened at the same offset. By induction on the offset that the
scan starts from. -/
theorem angleOpen_eq (h : Alike a b) (depth k : Nat) :
    angleOpen a depth k = angleOpen b depth k := by
  induction k generalizing depth with
  | zero => rfl
  | succ k ih =>
    rw [angleOpen, angleOpen]
    simp (disch := decide) only [h.isAt_eq, h.isBefore_eq, h.satAt_among, ih]

/-- A part of a class header starts at the same offset, whether it is a name or a list in
brackets. -/
theorem headerPartStart_eq (h : Alike a b) (p : Nat) :
    headerPartStart a p = headerPartStart b p := by
  unfold headerPartStart
  simp (disch := decide) only [h.satAt_eq Byte.blind_isNamePart, h.nameStart_eq, h.satAt_among,
    h.isAt_eq, h.enclosingOpen_eq, h.isBefore_eq, h.angleOpen_eq]

/-- One step of reading a class header. The definition carries the proof that the next part starts
further back; here it is left out. -/
theorem endsClassHeader_eq_match (b : Bytes) (k : Nat) :
    endsClassHeader b k =
      match lastCode b k with
      | none => false
      | some p =>
        match headerPartStart b p with
        | none => false
        | some start =>
          (b.satAt p Byte.isNamePart && keywordAt b start "class") || endsClassHeader b start := by
  rw [endsClassHeader]
  split
  · rename_i hp
    rw [hp]
  · rename_i p hp
    rw [hp]
    dsimp only
    split <;> rename_i hs <;> rw [hs]

/-- **A class header ends at the same offsets of both texts.** The recursion is that of the reading,
from one part of the header to the part before it. -/
theorem endsClassHeader_eq (h : Alike a b) (k : Nat) :
    endsClassHeader a k = endsClassHeader b k := by
  rw [endsClassHeader_eq_match, endsClassHeader_eq_match b, h.lastCode_eq]
  cases hp : lastCode b k with
  | none =>
    -- there is no code before the header
    rfl
  | some p =>
    dsimp only
    rw [h.headerPartStart_eq]
    cases hs : headerPartStart b p with
    | none =>
      -- what stands there is no part of a header
      rfl
    | some start =>
      -- the header is read backward, and its next part starts further back
      have := lastCode_lt hp
      have := headerPartStart_le hs
      dsimp only
      rw [h.satAt_eq Byte.blind_isNamePart, h.keywordAt_eq (by decide), h.endsClassHeader_eq start]
termination_by k

/-- The keyword `abstract` of a class stands at the same offsets. -/
theorem abstractAt_eq (h : Alike a b) (i : Nat) : abstractAt a i = abstractAt b i := by
  unfold abstractAt
  simp (disch := decide) only [h.keywordAt_eq, h.skipBlanks_eq]

theorem classBraceAt_eq (h : Alike a b) (i : Nat) : classBraceAt a i = classBraceAt b i := by
  rw [classBraceAt, classBraceAt, h.isAt_eq rfl, h.endsClassHeader_eq]

/-- The clause of a class does, and it ends at the same bracket. -/
theorem implementsAt_eq (h : Alike a b) (i : Nat) : implementsAt a i = implementsAt b i := by
  have hblank : Byte.Blind Byte.isBlank := Byte.blind_among rfl
  unfold implementsAt
  simp (disch := decide) only [h.satAt_eq hblank, h.keywordAt_eq, h.satAt_among, h.findStop_eq,
    h.isAt_eq, h.endsClassHeader_eq]

/-- **Classes** stand at the same offsets, whichever part of their header is found first. -/
theorem classMembersAt_eq (h : Alike a b) (i : Nat) : classMembersAt a i = classMembersAt b i := by
  rw [classMembersAt, classMembersAt, h.abstractAt_eq, h.classBraceAt_eq, h.implementsAt_eq]

/-! ### Class members -/

theorem modifierStop_eq (h : Alike a b) (k : Nat) : modifierStop a k = modifierStop b k := by
  have hstart : Byte.Blind startsMemberName := Byte.blind_isNameStart.or (Byte.blind_among rfl)
  unfold modifierStop
  simp only [h.nameStop_eq, h.skipBlanks_eq, h.satAt_eq hstart]

/-- The name at an offset is one of some words in both texts or in none. -/
theorem wordAt_eq (h : Alike a b) {words : List String}
    (hwords : words.all vocabulary.contains = true) (k : Nat) :
    wordAt a k words = wordAt b k words := by
  rw [wordAt, wordAt, h.nameStop_eq, h.any_slice_eq hwords]

/-- The modifiers are read alike from the two texts. -/
inductive ModifiersCognate (a b : Bytes) : Modifiers → Modifiers → Prop where
  | named {xs ys : List Segment} (start : Nat) (h : Segment.Cognates a b xs ys) :
      ModifiersCognate a b (.named xs start) (.named ys start)
  | foreign {xs ys : List Segment} (start : Nat) (h : Segment.Cognates a b xs ys) :
      ModifiersCognate a b (.foreign xs start) (.foreign ys start)
  | ghost : ModifiersCognate a b .ghost .ghost

/-- Cognate segments are put before modifiers that are read alike. -/
theorem ModifiersCognate.cons {m m' : Modifiers} {s t : Segment} (h : ModifiersCognate a b m m')
    (hs : Segment.Cognate a b s t) : ModifiersCognate a b (m.cons s) (m'.cons t) := by
  cases h with
  | named start h => exact .named start (.cons hs h)
  | foreign start h => exact .foreign start (.cons hs h)
  | ghost => exact .ghost

/-- One step of reading modifiers. As above, the proof of progress is left out. -/
theorem modifiersAt_eq_match (b : Bytes) (k : Nat) :
    modifiersAt b k =
      match modifierStop b k with
      | none => .named [] k
      | some next =>
        if wordAt b k ghostModifiers then .ghost
        else if wordAt b k typeModifiers then (modifiersAt b next).cons (.erase b k next)
        else if wordAt b k fieldModifiers then (modifiersAt b next).cons (.keep b k next)
        else .foreign [] k := by
  rw [modifiersAt]
  split <;> rename_i h <;> rw [h]

/-- **The modifiers of a member are read alike.** The recursion is that of the reading, one modifier
after the other. -/
private theorem modifiersAt_cognate (h : Alike a b) (k : Nat) :
    ModifiersCognate a b (modifiersAt a k) (modifiersAt b k) := by
  rw [modifiersAt_eq_match, modifiersAt_eq_match b, h.modifierStop_eq]
  cases hnext : modifierStop b k with
  | none => exact .named k .nil
  | some next =>
    have := lt_of_modifierStop hnext
    have := h.size_eq
    have hrest := h.modifiersAt_cognate next
    dsimp only
    -- a modifier is one of the words that both texts have at the same offsets
    rw [h.wordAt_eq (by decide), h.wordAt_eq (by decide), h.wordAt_eq (by decide)]
    split
    · -- the member exists only for types
      exact .ghost
    · split
      · -- a modifier that only types need
        exact hrest.cons (.erase k next)
      · split
        · -- a modifier that stays
          exact hrest.cons (.keep k next)
        · -- another word
          exact .foreign k .nil
termination_by a.size - k

private theorem isIndexSignature_eq (h : Alike a b) (i : Nat) :
    isIndexSignature a i = isIndexSignature b i := by
  unfold isIndexSignature
  simp (disch := decide) only [h.skipSpace_eq, h.nameStop_eq, h.isAt_eq]

/-- The name of a member ends at the same offset, whichever of its four shapes it has. -/
theorem memberNameStop_eq (h : Alike a b) (k : Nat) : memberNameStop a k = memberNameStop b k := by
  have hquote : Byte.Blind Byte.isQuote := Byte.blind_among rfl
  unfold memberNameStop computedNameStop
  simp (disch := decide) only [h.isAt_eq, h.nameStop_eq, h.satAt_eq hquote, h.literalAt_eq,
    h.findClose_eq, h.wordAt_eq]

/-- A member that exists only for types ends at the same offset. -/
theorem ghostStop_eq (h : Alike a b) (start : Nat) : ghostStop a start = ghostStop b start := by
  unfold ghostStop
  simp (disch := decide) only [h.isAt_eq, h.endsLine_eq, h.findStop_eq, h.statementStop_eq]

private theorem isMarker_eq (h : Alike a b) (i : Nat) : isMarker a i = isMarker b i := by
  rw [isMarker, isMarker, h.satAt_among rfl, h.isAt_eq rfl]

theorem skipMarker_eq (h : Alike a b) (i : Nat) : skipMarker a i = skipMarker b i := by
  rw [skipMarker, skipMarker, h.isMarker_eq, h.skipTrivia_eq]

theorem fieldTypeStop_eq (h : Alike a b) (start : Nat) :
    fieldTypeStop a start = fieldTypeStop b start := by
  unfold fieldTypeStop
  simp (disch := decide) only [h.isAt_eq, h.isAssign_eq, h.endsLine_eq, h.findStop_eq]

theorem initializerStop_eq (h : Alike a b) (start : Nat) :
    initializerStop a start = initializerStop b start := by
  unfold initializerStop
  simp (disch := decide) only [h.isAt_eq, h.endsLine_eq, h.findStop_eq, h.trimEnd_eq]

/-- The type of a field is cut alike, and ends alike. The cases are those of its definition: an
annotation, a marker alone, or neither. -/
private theorem fieldType_cognates (h : Alike a b) (name after colon : Nat) :
    Segment.Cognates a b (fieldType a name after colon).1 (fieldType b name after colon).1 ∧
      (fieldType a name after colon).2 = (fieldType b name after colon).2 := by
  unfold fieldType
  simp (disch := decide) only [h.isAt_eq, h.isMarker_eq, h.fieldTypeStop_eq, h.trimEnd_eq]
  -- an annotation, with its marker
  split
  · exact ⟨.cons (.keep _ _) (.cons (.erase _ _) .nil), rfl⟩
  · split
    · -- a marker without a type
      exact ⟨.cons (.keep _ _) (.cons (.erase _ _) .nil), rfl⟩
    · exact ⟨.nil, rfl⟩

/-- The initializer of a field is cut alike, and ends alike. -/
private theorem fieldInitializer_cognates (h : Alike a b) (stop : Nat) :
    Segment.Cognates a b (fieldInitializer a stop).1 (fieldInitializer b stop).1 ∧
      (fieldInitializer a stop).2 = (fieldInitializer b stop).2 := by
  unfold fieldInitializer
  simp only [h.skipTrivia_eq, h.isAssign_eq, h.initializerStop_eq]
  split
  · exact ⟨.cons (.keep _ _) (.cons (.nested _ _) .nil), rfl⟩
  · exact ⟨.nil, rfl⟩

/-- The member is read alike from the two texts. -/
inductive MemberCognate (a b : Bytes) : Member → Member → Prop where
  | field {xs ys : List Segment} (stop : Nat) (h : Segment.Cognates a b xs ys) :
      MemberCognate a b (.field xs stop) (.field ys stop)
  | other {xs ys : List Segment} (stop : Nat) (h : Segment.Cognates a b xs ys) :
      MemberCognate a b (.other xs stop) (.other ys stop)

/-- A member with a name is read alike. Each part starts where the last one ended, so the ends are
equated before the segments are put together. -/
private theorem namedMember_cognate (h : Alike a b) {xs ys : List Segment}
    (hmods : Segment.Cognates a b xs ys) (k : Nat) :
    MemberCognate a b (namedMember a xs k) (namedMember b ys k) := by
  unfold namedMember
  rw [h.memberNameStop_eq]
  cases memberNameStop b k with
  -- nothing that could be a name
  | none => exact .other k hmods
  | some name =>
    dsimp only
    rw [h.skipTrivia_eq, h.skipMarker_eq, h.satAt_among rfl]
    split
    · -- a method
      exact .other k hmods
    · obtain ⟨htype, hstop⟩ := h.fieldType_cognates name (skipTrivia b name)
        (skipMarker b (skipTrivia b name))
      obtain ⟨hinit, hend⟩ := h.fieldInitializer_cognates
        (fieldType b name (skipTrivia b name) (skipMarker b (skipTrivia b name))).2
      -- the parts of the field end at the same offsets
      rw [hstop, hend]
      exact .field _ (List.rel_append
        (List.rel_append (List.rel_append hmods (.cons (.keep k name) .nil)) htype) hinit)

/-- A member that exists only for types is commented out alike. -/
private theorem ghostMember_cognate (h : Alike a b) (start : Nat) :
    MemberCognate a b (ghostMember a start) (ghostMember b start) := by
  rw [ghostMember, ghostMember, h.ghostStop_eq]
  exact .field _ (.cons (.erase _ _) .nil)

/-- **One member is read alike.** The cases are those of its modifiers, which are the same in both
texts. -/
private theorem memberAt_cognate (h : Alike a b) (start : Nat) :
    MemberCognate a b (memberAt a start) (memberAt b start) := by
  have hmods := h.modifiersAt_cognate start
  unfold memberAt
  generalize modifiersAt a start = m, modifiersAt b start = m' at hmods
  cases hmods with
  | ghost => exact h.ghostMember_cognate start
  | foreign k hsegments => exact .other k hsegments
  | named k hsegments =>
    dsimp only
    rw [h.isIndexSignature_eq]
    split
    · exact h.ghostMember_cognate start
    · exact h.namedMember_cognate hsegments k

/-! ### Class bodies -/

/-- The walks read the two texts alike. -/
structure WalkCognate (a b : Bytes) (v w : Walk) : Prop where
  segments : Segment.Cognates a b v.segments w.segments
  stop : v.stop = w.stop
  stopped : v.stopped = w.stopped

/-- Cognate segments are put before walks that read alike. -/
theorem WalkCognate.after {v w : Walk} {xs ys : List Segment} (h : WalkCognate a b v w)
    (hs : Segment.Cognates a b xs ys) : WalkCognate a b (v.after xs) (w.after ys) :=
  ⟨List.rel_append hs h.segments, h.stop, h.stopped⟩

/-- One step of a walk. As above, the proof of progress is left out. -/
theorem walkMembers_eq_ite (b : Bytes) (i : Nat) :
    walkMembers b i =
      if skipTrivia b i < b.size ∧ !b.isAt (skipTrivia b i) '}' then
        if b.isAt (skipTrivia b i) ';' then
          (walkMembers b (skipTrivia b i + 1)).after
            [.keep b i (skipTrivia b i), .keep b (skipTrivia b i) (skipTrivia b i + 1)]
        else
          match memberAt b (skipTrivia b i) with
          | .other segments stop => ⟨.keep b i (skipTrivia b i) :: segments, stop, true⟩
          | .field segments stop =>
            (walkMembers b stop).after (.keep b i (skipTrivia b i) :: segments)
      else ⟨[.keep b i (skipTrivia b i)], skipTrivia b i, false⟩ := by
  rw [walkMembers]
  split
  · split
    · rfl
    · split <;> rename_i h <;> rw [h]
  · rfl

/-- **The walk through a class body reads both texts alike.** The recursion is that of the walk,
from the end of one member to the next. -/
private theorem walkMembers_cognate (h : Alike a b) (i : Nat) :
    WalkCognate a b (walkMembers a i) (walkMembers b i) := by
  have hsize := h.size_eq
  have hle := le_skipTrivia b i
  have hmember := h.memberAt_cognate (skipTrivia b i)
  rw [walkMembers_eq_ite, walkMembers_eq_ite b, h.skipTrivia_eq, hsize, h.isAt_eq rfl,
    h.isAt_eq rfl]
  have hgap : Segment.Cognate a b (.keep a i (skipTrivia b i)) (.keep b i (skipTrivia b i)) :=
    .keep _ _
  split
  · split
    · -- a semicolon is an empty member
      exact (h.walkMembers_cognate (skipTrivia b i + 1)).after (.cons hgap (.cons (.keep _ _) .nil))
    · -- both members are of the same sort
      cases ha : memberAt a (skipTrivia b i) with
      | field xs stop =>
        have := lt_of_memberAt ha
        rw [ha] at hmember
        cases hb : memberAt b (skipTrivia b i) with
        | field ys stop' =>
          rw [hb] at hmember
          cases hmember with
          | field _ hs => exact (h.walkMembers_cognate stop).after (.cons hgap hs)
        | other => rw [hb] at hmember; nomatch hmember
      | other xs stop =>
        rw [ha] at hmember
        cases hb : memberAt b (skipTrivia b i) with
        | field => rw [hb] at hmember; nomatch hmember
        | other ys stop' =>
          rw [hb] at hmember
          cases hmember with
          | other _ hs => exact ⟨.cons hgap hs, rfl, rfl⟩
  · -- the body is closed, or the text ends
    exact ⟨.cons hgap .nil, rfl, rfl⟩
termination_by a.size - i

/-- The clause of a class is cut alike, or there is none in either text. -/
private theorem clauseSegments_cognates (h : Alike a b) (start brace : Nat) :
    Segment.Cognates a b (clauseSegments a start brace) (clauseSegments b start brace) := by
  rw [clauseSegments, clauseSegments, h.trimEnd_eq]
  split
  · exact .cons (.erase _ _) (.cons (.keep _ _) .nil)
  · exact .nil

/-- The first byte of a match tells the `abstract` of a class from its other parts. The other two
start with a bracket and with a blank. -/
theorem isAt_of_classMembersAt {i : Nat} {m : Match} (h : classMembersAt b i = some m) :
    b.isAt m.start 'a' = (abstractAt b i).isSome := by
  unfold classMembersAt at h
  cases habstract : abstractAt b i with
  | some m' =>
    rw [habstract, Option.some_or, Option.some_or] at h
    obtain rfl := Option.some.inj h
    unfold abstractAt at habstract
    dsimp only at habstract
    rw [Option.ite_none_right_eq_some] at habstract
    obtain ⟨hcond, hm⟩ := habstract
    obtain rfl := Option.some.inj hm
    simp only [Bool.and_eq_true] at hcond
    -- the keyword starts with this letter
    exact Bytes.isAt_congr
      (Bytes.getElem?_of_hasAt (k := 0) (hasAt_of_keywordAt hcond.1.1) (by decide)) 'a'
  | none =>
    rw [habstract, Option.none_or] at h
    rcases Option.or_eq_some_iff.mp h with h | ⟨-, h⟩
    · unfold classBraceAt at h
      rw [Option.ite_none_right_eq_some] at h
      obtain ⟨hcond, hm⟩ := h
      obtain rfl := Option.some.inj hm
      -- a body starts with its bracket
      exact Bytes.satAt_of_isAt (Bool.and_eq_true_iff.mp hcond).1 (·.is 'a')
    · unfold implementsAt at h
      rw [Option.ite_none_right_eq_some] at h
      obtain ⟨hcond, h⟩ := h
      dsimp only at h
      rw [Option.ite_none_right_eq_some] at h
      obtain rfl := Option.some.inj h.2
      -- a clause starts with a blank
      exact Bytes.isAt_eq_false (Bool.and_eq_true_iff.mp hcond).1 rfl

/-- **A class is cut alike.** The patch asks for the letter that it starts with, which two texts
that are alike need not share; but the answer is that of the recognition of `abstract`. -/
private theorem classMembersPatch_cognate (h : Alike a b) {i : Nat} {m : Match}
    (hm : classMembersAt a i = some m) :
    Patch.Cognate a b (classMembersPatch a m) (classMembersPatch b m) := by
  -- the letter that the patch looks at is that of a keyword, or none of a name
  have hfirst : a.isAt m.start 'a' = b.isAt m.start 'a' := by
    rw [isAt_of_classMembersAt hm, isAt_of_classMembersAt (h.classMembersAt_eq i ▸ hm),
      h.abstractAt_eq]
  have hwalk := h.walkMembers_cognate (m.stop - 1 + 1)
  unfold classMembersPatch
  rw [hfirst]
  split
  · -- the keyword `abstract` alone
    exact Patch.erase_cognate a b _ _
  · refine ⟨hwalk.stop, List.rel_append (h.clauseSegments_cognates _ _)
      (.cons (.keep _ _) hwalk.segments), ?_⟩
    dsimp only
    rw [hwalk.stopped, hwalk.stop]

/-! ### All constructs -/

/-- **Each construct stands at the same offsets of both texts.** One case for each construct. -/
theorem matchAt_eq (h : Alike a b) (cursor i : Nat) (k : Construct) :
    k.matchAt a cursor i = k.matchAt b cursor i := by
  cases k with
  | literal kind => rw [Construct.matchAt, Construct.matchAt, h.literalAt_eq]
  | ambient => exact h.ambientAt_eq i
  | typeAlias => exact h.typeAliasAt_eq i
  | interface => exact h.interfaceAt_eq i
  | classMembers => exact h.classMembersAt_eq i
  | typeArguments => exact h.typeArgumentsAt_eq i
  | returnType => exact h.returnTypeAt_eq i
  | annotated => exact h.annotationAt_eq cursor i
  | cast => exact h.castAt_eq i

/-- **The next construct** of texts that are alike is the same. The search asks for nothing but the
constructs at each offset and the length of the text. -/
theorem nextMatch_eq (h : Alike a b) (r : Rules) (cursor : Nat) :
    r.nextMatch a cursor = r.nextMatch b cursor := by
  unfold Rules.nextMatch Rules.improve Construct.detect
  simp only [h.matchAt_eq, h.size_eq]

/-- A literal is copied alike, and the notice of an unclosed one is the same. -/
private theorem literalPatch_cognate (h : Alike a b) (m : Match) :
    Patch.Cognate a b (literalPatch a m) (literalPatch b m) := by
  refine ⟨rfl, .cons (.keep _ _) .nil, ?_⟩
  rw [literalPatch, literalPatch, h.literalAt_eq]

/-- **The patch of a construct** cuts texts that are alike at the same offsets. One case for each
construct. Only that of a class needs to know where the construct was found. -/
theorem patchOf_cognate (h : Alike a b) {cursor i : Nat} {k : Construct} {m : Match}
    (hm : k.matchAt a cursor i = some m) : Patch.Cognate a b (patchOf a m) (patchOf b m) := by
  have hkind := kind_of_matchAt hm
  unfold patchOf
  rw [hkind]
  cases k with
  | literal => exact h.literalPatch_cognate m
  | ambient => exact h.ambientPatch_cognate m
  | typeAlias => exact h.typeAliasPatch_cognate m
  | interface => exact h.interfacePatch_cognate m
  | classMembers => exact h.classMembersPatch_cognate hm
  | typeArguments => exact Patch.erase_cognate a b _ _
  | returnType => exact h.returnTypePatch_cognate m
  | annotated => exact h.annotationPatch_cognate m
  | cast => exact h.castPatch_cognate m

end Alike

end TypeErasure
