import TypeErasure.Proofs.Heading.Construct
import TypeErasure.Proofs.Alike.Class
import TypeErasure.Proofs.Grammar

/-!
# Classes behind a heading

The parts of a class are found behind a heading as without one, and the walk through the fields of a
class body reads the same members. With this all constructs are gone through: `matchAt_append` and
`patchOf_append` speak of all of them.
-/

namespace TypeErasure

namespace Heading

variable {x : Bytes}

/-! ### Class headers -/

/-- A heading opens no list in angle brackets. By induction on the offset that the scan has come
to. -/
private theorem angleOpen_of_le (h : Heading x) (b : Bytes) (depth : Nat) {k : Nat}
    (hk : k ≤ x.size) : angleOpen (x ++ b) depth k = none := by
  induction k generalizing depth with
  | zero =>
    -- the scan has come to the start of everything
    rfl
  | succ k ih =>
    -- there is no `<` to find in the heading
    have hangle : (x ++ b).isAt k '<' = false :=
      (satAt_of_lt b (Nat.lt_of_succ_le hk) _).trans (h.angle k)
    have hnone (depth : Nat) := ih depth (Nat.le_of_succ_le hk)
    simp [angleOpen, hangle, hnone]

/-- An angle bracket that closes is opened at the same distance, or not at all. By induction on the
offset; at the start of the text the scan goes on into the heading. -/
private theorem angleOpen_append (h : Heading x) (b : Bytes) (depth k : Nat) :
    angleOpen (x ++ b) depth (x.size + k) = (angleOpen b depth k).map (x.size + ·) := by
  induction k generalizing depth with
  | zero => exact h.angleOpen_of_le b depth (Nat.le_refl x.size)
  | succ k ih =>
    rw [← Nat.add_assoc, angleOpen, angleOpen, Bytes.isAt_append_right, h.isBefore_append b _ rfl,
      Bytes.isAt_append_right, Bytes.satAt_append_right, ih, ih, ih]
    repeat' split
    all_goals rfl

/-- A part of a class header starts at the same distance. An angle bracket is asked whether it is
the first byte, which behind a heading it never is. -/
private theorem headerPartStart_append (h : Heading x) (b : Bytes) (p : Nat) :
    headerPartStart (x ++ b) (x.size + p) = (headerPartStart b p).map (x.size + ·) := by
  unfold headerPartStart
  simp only [Bytes.satAt_append_right, Bytes.isAt_append_right, Nat.add_assoc, h.nameStart_append,
    Nat.add_lt_add_iff_left, h.enclosingOpen_append, h.isBefore_append b '=' rfl,
    h.angleOpen_append]
  cases p with
  | zero =>
    -- a `>` at the start of the text closes nothing, with or without a heading
    have hnone : angleOpen b 0 0 = none := rfl
    rw [hnone]
    repeat' split
    all_goals rfl
  | succ p =>
    rw [decide_eq_true (show 0 < x.size + (p + 1) by omega), decide_eq_true (Nat.succ_pos p)]
    repeat' split
    all_goals rfl

/-- **A class header ends at the same distance.** The recursion is that of the reading, from one
part of the header to the part before it. -/
private theorem endsClassHeader_append (h : Heading x) (b : Bytes) (k : Nat) :
    endsClassHeader (x ++ b) (x.size + k) = endsClassHeader b k := by
  rw [Alike.endsClassHeader_eq_match, Alike.endsClassHeader_eq_match b, h.lastCode_append]
  cases hp : lastCode b k with
  | none => rfl
  | some p =>
    dsimp only [Option.map_some]
    rw [h.headerPartStart_append]
    cases hs : headerPartStart b p with
    | none => rfl
    | some start =>
      -- the part starts before the place where the header is read from
      have := lastCode_lt hp
      have := headerPartStart_le hs
      dsimp only [Option.map_some]
      rw [Bytes.satAt_append_right, h.keywordAt_append, h.endsClassHeader_append b start]
termination_by k

/-- The keyword `abstract` of a class stands at the same distance. -/
private theorem abstractAt_append (h : Heading x) (b : Bytes) (i : Nat) :
    abstractAt (x ++ b) (x.size + i) = (abstractAt b i).map (Match.shift x.size) := by
  unfold abstractAt
  simp only [Nat.add_assoc, Bytes.skipBlanks_append_right, h.keywordAt_append, decide_add_lt]
  split <;> rfl

/-- So does the bracket of a class body. -/
private theorem classBraceAt_append (h : Heading x) (b : Bytes) (i : Nat) :
    classBraceAt (x ++ b) (x.size + i) = (classBraceAt b i).map (Match.shift x.size) := by
  rw [classBraceAt, classBraceAt, Bytes.isAt_append_right, h.endsClassHeader_append]
  split <;> rfl

/-- So does the clause of a class, and it ends at the same bracket. -/
private theorem implementsAt_append (h : Heading x) (b : Bytes) (i : Nat) :
    implementsAt (x ++ b) (x.size + i) = (implementsAt b i).map (Match.shift x.size) := by
  have hbrace := h.findStop_append b (f := fun k => b.satAt k (·.among ['{', ';']))
    (g := fun k => (x ++ b).satAt k (·.among ['{', ';']))
    (fun k => Bytes.satAt_append_right x b k _) .type (i + 1)
  unfold implementsAt
  simp only [Bytes.satAt_append_right, Nat.add_assoc, h.keywordAt_append, hbrace,
    Bytes.isAt_append_right, h.endsClassHeader_append]
  repeat' split
  all_goals rfl

/-- **Classes** stand at the same distance, whichever part of their header is found first. -/
private theorem classMembersAt_append (h : Heading x) (b : Bytes) (i : Nat) :
    classMembersAt (x ++ b) (x.size + i) = (classMembersAt b i).map (Match.shift x.size) := by
  rw [classMembersAt, classMembersAt, h.abstractAt_append, h.classBraceAt_append,
    h.implementsAt_append, Option.map_or, Option.map_or]

/-! ### Modifiers and names -/

/-- A modifier ends at the same distance behind any text. -/
private theorem modifierStop_append_right (x b : Bytes) (k : Nat) :
    modifierStop (x ++ b) (x.size + k) = (modifierStop b k).map (x.size + ·) := by
  unfold modifierStop
  simp only [nameStop_append_right, Bytes.skipBlanks_append_right, decide_add_lt,
    Bytes.satAt_append_right]
  split <;> rfl

private theorem wordAt_append_right (x b : Bytes) (k : Nat) (words : List String) :
    wordAt (x ++ b) (x.size + k) words = wordAt b k words := by
  rw [wordAt, wordAt, nameStop_append_right]
  simp only [Bytes.slice_append_add]

end Heading

/-- The modifiers `n` bytes further on. -/
def Modifiers.shift (n : Nat) : Modifiers → Modifiers
  | named segments start => named segments (n + start)
  | foreign segments start => foreign segments (n + start)
  | ghost => ghost

/-- A segment is put before the modifiers further on as before those here. -/
private theorem Modifiers.shift_cons (n : Nat) (s : Segment) (m : Modifiers) :
    (m.cons s).shift n = (m.shift n).cons s := by
  cases m <;> rfl

/-- The member `n` bytes further on. -/
def Member.shift (n : Nat) : Member → Member
  | field segments stop => field segments (n + stop)
  | other segments stop => other segments (n + stop)

/-- The walk `n` bytes further on. -/
def Walk.shift (n : Nat) (w : Walk) : Walk :=
  { w with stop := n + w.stop }

namespace Heading

variable {x : Bytes}

/-- The modifiers of a member are the same behind any text. The recursion is that of the reading,
one modifier after the other. -/
private theorem modifiersAt_append_right (x b : Bytes) (k : Nat) :
    modifiersAt (x ++ b) (x.size + k) = (modifiersAt b k).shift x.size := by
  rw [Alike.modifiersAt_eq_match, Alike.modifiersAt_eq_match b, modifierStop_append_right]
  cases hstop : modifierStop b k with
  | none =>
    -- no modifier stands here
    rfl
  | some next =>
    have := lt_of_modifierStop hstop
    have hrest := modifiersAt_append_right x b next
    dsimp only [Option.map_some]
    rw [wordAt_append_right, wordAt_append_right, wordAt_append_right, hrest,
      Segment.erase_append_right, Segment.keep_append_right, ← Modifiers.shift_cons,
      ← Modifiers.shift_cons]
    repeat' split
    all_goals rfl
termination_by b.size - k

private theorem isIndexSignature_append_right (x b : Bytes) (i : Nat) :
    isIndexSignature (x ++ b) (x.size + i) = isIndexSignature b i := by
  unfold isIndexSignature
  simp only [Nat.add_assoc, Bytes.skipSpace_append_right, nameStop_append_right,
    Bytes.isAt_append_right, decide_add_lt]

/-- The name of a member ends at the same distance, whichever of its four shapes it has. -/
private theorem memberNameStop_append (h : Heading x) (b : Bytes) (k : Nat) :
    memberNameStop (x ++ b) (x.size + k) = (memberNameStop b k).map (x.size + ·) := by
  unfold memberNameStop computedNameStop
  simp only [Nat.add_assoc, Bytes.isAt_append_right, Bytes.satAt_append_right,
    nameStop_append_right, h.literalAt_append, h.findClose_append, wordAt_append_right,
    Nat.add_lt_add_iff_left]
  cases literalAt b k with
  | none =>
    repeat' split
    all_goals rfl
  | some l =>
    repeat' split
    all_goals rfl

/-! ### Members -/

/-- A member that exists only for types ends at the same distance. -/
private theorem ghostStop_append (h : Heading x) (b : Bytes) (start : Nat) :
    ghostStop (x ++ b) (x.size + start) = x.size + ghostStop b start := by
  have hstop := h.findStop_append b (f := fun i => b.isAt i ';' || endsLine b start i)
    (g := fun i => (x ++ b).isAt i ';' || endsLine (x ++ b) (x.size + start) i)
    (fun k => by rw [Bytes.isAt_append_right, h.endsLine_append]) .type start
  rw [ghostStop, hstop, statementStop_append_right, ghostStop]

private theorem isMarker_append_right (x b : Bytes) (i : Nat) :
    isMarker (x ++ b) (x.size + i) = isMarker b i := by
  rw [isMarker, isMarker, Bytes.satAt_append_right, Nat.add_assoc, Bytes.isAt_append_right]

/-- What follows a marker starts at the same distance. -/
private theorem skipMarker_append (h : Heading x) (b : Bytes) (i : Nat) :
    skipMarker (x ++ b) (x.size + i) = x.size + skipMarker b i := by
  rw [skipMarker, skipMarker, isMarker_append_right, Nat.add_assoc, h.skipTrivia_append]
  split <;> rfl

/-- The type of a field ends at the same distance. -/
private theorem fieldTypeStop_append (h : Heading x) (b : Bytes) (start : Nat) :
    fieldTypeStop (x ++ b) (x.size + start) = x.size + fieldTypeStop b start := by
  refine h.findStop_append b (fun k => ?_) .type start
  rw [Bytes.isAt_append_right, h.isAssign_append, h.endsLine_append]

/-- So does its initializer. -/
private theorem initializerStop_append (h : Heading x) (b : Bytes) (start : Nat) :
    initializerStop (x ++ b) (x.size + start) = x.size + initializerStop b start := by
  have hstop := h.findStop_append b (f := fun i => b.isAt i ';' || endsLine b start i)
    (g := fun i => (x ++ b).isAt i ';' || endsLine (x ++ b) (x.size + start) i)
    (fun k => by rw [Bytes.isAt_append_right, h.endsLine_append]) .value start
  rw [initializerStop, hstop, Bytes.trimEnd_append_right, initializerStop]

/-- The type of a field has the same segments and ends at the same distance. -/
private theorem fieldType_append (h : Heading x) (b : Bytes) (name after colon : Nat) :
    fieldType (x ++ b) (x.size + name) (x.size + after) (x.size + colon) =
      Prod.map id (x.size + ·) (fieldType b name after colon) := by
  unfold fieldType
  simp only [Bytes.isAt_append_right, isMarker_append_right, Nat.add_assoc, h.fieldTypeStop_append,
    ← apply_ite (x.size + ·), Bytes.trimEnd_append_right, Segment.keep_append_right,
    Segment.erase_append_right]
  repeat' split
  all_goals rfl

/-- So does its initializer. -/
private theorem fieldInitializer_append (h : Heading x) (b : Bytes) (stop : Nat) :
    fieldInitializer (x ++ b) (x.size + stop) =
      Prod.map id (x.size + ·) (fieldInitializer b stop) := by
  unfold fieldInitializer
  simp only [h.skipTrivia_append, h.isAssign_append, Nat.add_assoc, h.initializerStop_append,
    Segment.keep_append_right, Bytes.slice_append_add]
  split <;> rfl

/-- A member with a name is the same further on. -/
private theorem namedMember_append (h : Heading x) (b : Bytes) (modifiers : List Segment)
    (k : Nat) :
    namedMember (x ++ b) modifiers (x.size + k) = (namedMember b modifiers k).shift x.size := by
  unfold namedMember
  rw [h.memberNameStop_append]
  cases memberNameStop b k with
  | none => rfl
  | some name =>
    simp only [Option.map_some, h.skipTrivia_append, h.skipMarker_append, Bytes.satAt_append_right,
      h.fieldType_append, Prod.map_snd, Prod.map_fst, h.fieldInitializer_append,
      Segment.keep_append_right, id_eq]
    split <;> rfl

private theorem ghostMember_append (h : Heading x) (b : Bytes) (start : Nat) :
    ghostMember (x ++ b) (x.size + start) = (ghostMember b start).shift x.size := by
  rw [ghostMember, h.ghostStop_append, Segment.erase_append_right]
  rfl

/-- **One member is read alike.** One case for each outcome of its modifiers. -/
private theorem memberAt_append (h : Heading x) (b : Bytes) (start : Nat) :
    memberAt (x ++ b) (x.size + start) = (memberAt b start).shift x.size := by
  unfold memberAt
  rw [modifiersAt_append_right, h.ghostMember_append]
  cases modifiersAt b start with
  | ghost => rfl
  | foreign modifiers k => rfl
  | named modifiers k =>
    dsimp only [Modifiers.shift]
    rw [isIndexSignature_append_right, h.namedMember_append]
    split <;> rfl

/-- The walk reads the same members. The recursion is that of the walk, from the end of one member
to the next. -/
private theorem walkMembers_append (h : Heading x) (b : Bytes) (i : Nat) :
    walkMembers (x ++ b) (x.size + i) = (walkMembers b i).shift x.size := by
  rw [Alike.walkMembers_eq_ite, Alike.walkMembers_eq_ite b, h.skipTrivia_append,
    Bytes.isAt_append_right, Bytes.isAt_append_right, h.memberAt_append, Nat.add_assoc,
    Segment.keep_append_right, Segment.keep_append_right, Array.size_append]
  by_cases hin : skipTrivia b i < b.size ∧ (!b.isAt (skipTrivia b i) '}') = true
  · -- behind the member less of the body is left
    have := le_skipTrivia b i
    have hsemi := h.walkMembers_append b (skipTrivia b i + 1)
    rw [if_pos hin, if_pos ⟨Nat.add_lt_add_left hin.1 x.size, hin.2⟩, hsemi]
    split
    · rfl
    · cases hmember : memberAt b (skipTrivia b i) with
      | other segments stop => rfl
      | field segments stop =>
        have := lt_of_memberAt hmember
        have hrest := h.walkMembers_append b stop
        dsimp only [Member.shift]
        rw [hrest]
        rfl
  · -- the body is closed, or the text ends
    rw [if_neg hin, if_neg fun hin' => hin ⟨Nat.lt_of_add_lt_add_left hin'.1, hin'.2⟩]
    rfl
termination_by b.size - i

private theorem clauseSegments_append (x b : Bytes) (start brace : Nat) :
    clauseSegments (x ++ b) (x.size + start) (x.size + brace) = clauseSegments b start brace := by
  unfold clauseSegments
  simp only [Nat.add_lt_add_iff_left, Bytes.trimEnd_append_right, Segment.erase_append_right,
    Segment.keep_append_right]

/-- **A class is patched alike.** The match ends with the bracket of the body, so that the walk
starts at the same distance. -/
private theorem classMembersPatch_append (h : Heading x) (b : Bytes) {m : Match} (hm : 0 < m.stop) :
    classMembersPatch (x ++ b) (m.shift x.size) = (classMembersPatch b m).shift x.size := by
  have hstart : (m.shift x.size).start = x.size + m.start := rfl
  have hstop : (m.shift x.size).stop = x.size + m.stop := rfl
  have hbrace : x.size + m.stop - 1 = x.size + (m.stop - 1) := Nat.add_sub_assoc hm x.size
  unfold classMembersPatch
  simp only [hstart, hstop, hbrace, Bytes.isAt_append_right, Nat.add_assoc, h.walkMembers_append,
    clauseSegments_append, Segment.keep_append_right, Patch.erase_append_right]
  split
  · -- the keyword `abstract` alone
    rfl
  · -- a body, in which the walk may have stopped early
    cases hstopped : (walkMembers b (m.stop - 1 + 1)).stopped <;>
      simp [Patch.shift, Walk.shift, hstopped, Event.shift]

/-! ### All constructs -/

/-- A literal is copied alike, and the notice of an unclosed one is moved along. -/
private theorem literalPatch_append (h : Heading x) (b : Bytes) (m : Match) :
    literalPatch (x ++ b) (m.shift x.size) = (literalPatch b m).shift x.size := by
  have hstart : (m.shift x.size).start = x.size + m.start := rfl
  have hstop : (m.shift x.size).stop = x.size + m.stop := rfl
  -- the literal is left open in both texts or in none
  have hopen : ((literalAt (x ++ b) (x.size + m.start)).any fun l => !l.terminated) =
      (literalAt b m.start).any fun l => !l.terminated := by
    rw [h.literalAt_append, Option.any_map]
    rfl
  rw [literalPatch, literalPatch, hstart, hstop, hopen, Segment.keep_append_right]
  cases (literalAt b m.start).any fun l => !l.terminated <;> rfl

/-- **Every construct is found behind a heading where it is found without one**, but for an `as`
that nothing stands before. One case for each construct, and only that of a cast needs the
assumption. -/
theorem matchAt_append (h : Heading x) {b : Bytes} {cursor i : Nat} (hink : AsFollowsInk b i)
    (k : Construct) :
    k.matchAt (x ++ b) (x.size + cursor) (x.size + i) =
      (k.matchAt b cursor i).map (Match.shift x.size) := by
  cases k with
  | literal kind =>
    rw [Construct.matchAt, Construct.matchAt, h.literalAt_append]
    cases literalAt b i with
    | none => rfl
    | some l =>
      -- the kind of a literal does not depend on its place
      have hkind : (l.shift x.size).kind = l.kind := rfl
      rw [Option.map_some, Option.filter_some, Option.filter_some, hkind]
      split <;> rfl
  | ambient => exact h.ambientAt_append b i
  | typeAlias => exact h.typeAliasAt_append b i
  | interface => exact h.interfaceAt_append b i
  | classMembers => exact h.classMembersAt_append b i
  | typeArguments => exact h.typeArgumentsAt_append b i
  | returnType => exact h.returnTypeAt_append b i
  | annotated => exact h.annotationAt_append b cursor i
  | cast => exact h.castAt_append hink

/-- An annotation ends with its colon, and the match of a class with its bracket or keyword. The
patches of these two count back from the end of their match, and behind a heading this must not lead
before the text. -/
private theorem stop_pos_of_matchAt {b : Bytes} {cursor i : Nat} {k : Construct} {m : Match}
    (hk : k = .annotated ∨ k = .classMembers) (hat : k.matchAt b cursor i = some m) :
    0 < m.stop := by
  rcases hk with rfl | rfl
  · -- the match ends behind its colon
    rw [Construct.matchAt, annotationAt] at hat
    split at hat
    · cases hof : annotationOf b i with
      | none => simp [hof] at hat
      | some found =>
        simp only [hof] at hat
        split at hat
        · obtain rfl := Option.some.inj hat
          exact Nat.succ_pos i
        · simp at hat
    · simp at hat
  · rw [Construct.matchAt, classMembersAt, Option.or_eq_some_iff, Option.or_eq_some_iff] at hat
    rcases hat with (habstract | ⟨-, hbrace⟩) | ⟨-, hclause⟩
    · -- behind the blanks that follow the keyword
      rw [abstractAt] at habstract
      split at habstract
      · rename_i hc
        simp only [Bool.and_eq_true, decide_eq_true_eq] at hc
        obtain rfl := Option.some.inj habstract
        exact Nat.lt_of_le_of_lt (Nat.zero_le _) hc.1.2
      · simp at habstract
    · -- behind the bracket
      rw [classBraceAt] at hbrace
      split at hbrace
      · obtain rfl := Option.some.inj hbrace
        exact Nat.succ_pos i
      · simp at hbrace
    · -- behind the bracket that the clause leads to
      rw [implementsAt] at hclause
      split at hclause
      · dsimp only at hclause
        split at hclause
        · obtain rfl := Option.some.inj hclause
          exact Nat.succ_pos _
        · simp at hclause
      · simp at hclause

/-- **Every construct is patched behind a heading as without one.** One case for each construct. -/
theorem patchOf_append (h : Heading x) {b : Bytes} {cursor i : Nat} {k : Construct} {m : Match}
    (hat : k.matchAt b cursor i = some m) :
    patchOf (x ++ b) (m.shift x.size) = (patchOf b m).shift x.size := by
  have hkind : m.kind = k := kind_of_matchAt hat
  have hshift : (m.shift x.size).kind = k := hkind
  rw [patchOf, patchOf, hshift, hkind]
  cases k with
  | literal kind => exact h.literalPatch_append b m
  | ambient => exact h.ambientPatch_append b m
  | typeAlias => exact h.typeAliasPatch_append b m
  | interface => exact h.interfacePatch_append b m
  | classMembers => exact h.classMembersPatch_append b (stop_pos_of_matchAt (.inr rfl) hat)
  | typeArguments => exact typeArgumentsPatch_append b m
  | returnType => exact h.returnTypePatch_append b m
  | annotated => exact h.annotationPatch_append b (stop_pos_of_matchAt (.inl rfl) hat)
  | cast => exact h.castPatch_append b m

end Heading

end TypeErasure
