import TypeErasure.Proofs.Checked
import TypeErasure.Proofs.Cut.Construct

/-!
# Checked recognition and patches of the constructs

The twins of the functions that recognise and patch statements, casts, lists of type arguments,
return types and annotations. A construct is looked for at the offsets of a text, and patched where
it was found; under these conditions each twin gives the answer of its function.
-/

namespace TypeErasure

namespace Checked

variable {b : Bytes} {i : Nat} {m : Match}

/-! ### Statements -/

/-- The twin of `atStatementStart`. -/
def atStatementStart (b : Bytes) (i : Nat) : Checked Bool := do
  let k ← runStart b Byte.isBlank i
  or (or (.ok (k == 0)) (satBefore b k (·.among ['\n', '\r', ';', '{', '}'])))
    (closesComment b (k - 1))

/-- The start of a statement is tested at an offset of the text. Behind the blanks before it, a byte
is read only if this is not the start of the text. -/
theorem atStatementStart_eq (hi : i ≤ b.size) :
    atStatementStart b i = .ok (TypeErasure.atStatementStart b i) := by
  have hle : b.runStart Byte.isBlank i ≤ b.size := Nat.le_trans (b.runStart_le _ i) hi
  -- a byte is read before `k` only after the test that `k` is not the start of the text
  refine bind_eq (runStart_eq hi) (or_eq (or_eq rfl fun hk => satBefore_eq ?_ hle) fun hk => ?_)
  · exact Nat.pos_of_ne_zero (beq_eq_false_iff_ne.mp hk)
  · have hpos := beq_eq_false_iff_ne.mp (Bool.or_eq_false_iff.mp hk).1
    exact closesComment_eq (by omega)

/-- The twin of `statementKeyword`. -/
def statementKeyword (b : Bytes) (i : Nat) (word : String) : Checked (Option Nat) := do
  let exported ← keywordAt b i "export"
  let start := if exported then b.skipBlanks (i + 6) else i
  if ← and (and (atStatementStart b i) (.ok (!exported || i + 6 < start)))
      (keywordAt b start word) then
    return some (start + (Bytes.ofString word).size)
  else return none

/-- The keyword of a statement is looked for at an offset of the text; only the start of the
statement is read without a test. -/
theorem statementKeyword_eq {word : String} (hword : 0 < (Bytes.ofString word).size)
    (hi : i ≤ b.size) :
    statementKeyword b i word = .ok (TypeErasure.statementKeyword b i word) :=
  bind_eq (keywordAt_eq (by decide) b i) (ite_eq
    (and_eq (and_eq (atStatementStart_eq hi) fun _ => rfl) fun _ => keywordAt_eq hword b _)
    (fun _ => rfl) fun _ => rfl)

/-- The twin of `namedStatement`. -/
def namedStatement (b : Bytes) (i : Nat) (word : String) : Checked (Option Nat) := do
  return (← statementKeyword b i word).filter fun after =>
    after < b.skipBlanks after && b.satAt (b.skipBlanks after) Byte.isNameStart

/-- The name behind the keyword is looked at with a test. -/
theorem namedStatement_eq {word : String} (hword : 0 < (Bytes.ofString word).size)
    (hi : i ≤ b.size) : namedStatement b i word = .ok (TypeErasure.namedStatement b i word) :=
  bind_eq (statementKeyword_eq hword hi) rfl

/-- The twin of `interfaceAt` and `ambientAt`, which differ in their keyword. -/
def declarationAt (b : Bytes) (i : Nat) (word : String) (kind : Construct) :
    Checked (Option Match) := do
  let _ ← b.read i
  return (← namedStatement b i word).map fun after => ⟨kind, ⟨i, after⟩⟩

/-- **A declaration is looked for at a byte of the text.** -/
theorem declarationAt_eq {word : String} (kind : Construct)
    (hword : 0 < (Bytes.ofString word).size) (hi : i < b.size) :
    declarationAt b i word kind =
      .ok ((TypeErasure.namedStatement b i word).map fun after => ⟨kind, ⟨i, after⟩⟩) :=
  bind_eq (read_eq hi) (bind_eq (namedStatement_eq hword (Nat.le_of_lt hi)) rfl)

/-- The twin of `declarationPatch`. -/
def declarationPatch (b : Bytes) (m : Match) (stop : Nat) : Checked Patch := do
  if b.isAt stop '{' then
    let close ← findClose b .type (stop + 1)
    if close < b.size then return .erase b m.start (close + 1)
    else return { Patch.erase b m.start b.size with notices := [.neverClosed m.kind m.start] }
  else return .erase b m.start (← statementStop b m.start stop)

/-- A declaration that ends within the text is patched. Its body is searched for without a
condition. -/
private theorem declarationPatch_eq (hi : i ≤ b.size) :
    declarationPatch b m i = .ok (TypeErasure.declarationPatch b m i) := by
  unfold declarationPatch TypeErasure.declarationPatch
  -- with a body, or without one
  split
  · refine bind_eq (findClose_eq b .type (i + 1)) ?_
    dsimp only
    split <;> rfl
  · exact bind_eq (statementStop_eq hi) rfl

/-- The twin of `interfacePatch`. -/
def interfacePatch (b : Bytes) (m : Match) : Checked Patch := do
  declarationPatch b m (← findStop b .type (fun k => satAt b k (·.among ['{', ';'])) m.stop)

/-- The search for the body of an interface reads what is there. -/
theorem interfacePatch_eq (b : Bytes) (m : Match) :
    interfacePatch b m = .ok (TypeErasure.interfacePatch b m) :=
  bind_eq (findStop_eq fun _ _ hk => satAt_eq hk) (declarationPatch_eq (findStop_le _ _ _ _))

/-- The twin of `ambientPatch`. -/
def ambientPatch (b : Bytes) (m : Match) : Checked Patch := do
  declarationPatch b m (← findStop b .type
    (fun k => or (satAt b k (·.among [';', '{'])) (endsLine b m.stop k)) m.stop)

/-- That of an ambient declaration does too. It may end with its line, and the search goes on from
where the line is looked at. -/
theorem ambientPatch_eq (b : Bytes) (m : Match) :
    ambientPatch b m = .ok (TypeErasure.ambientPatch b m) :=
  bind_eq (findStop_eq fun _ hstart hk => or_eq (satAt_eq hk) fun _ => endsLine_eq hstart hk)
    (declarationPatch_eq (findStop_le _ _ _ _))

/-- The twin of `skipTypeParameters`. -/
def skipTypeParameters (b : Bytes) (i : Nat) : Checked (Option Nat) := do
  if b.isAt i '<' then
    let close ← findClose b .type (i + 1)
    if b.isAt close '>' then return some (b.skipSpace (close + 1)) else return none
  else return some i

/-- Type parameters can be looked for at every offset. -/
theorem skipTypeParameters_eq (b : Bytes) (i : Nat) :
    skipTypeParameters b i = .ok (TypeErasure.skipTypeParameters b i) := by
  unfold skipTypeParameters TypeErasure.skipTypeParameters
  split
  · refine bind_eq (findClose_eq b .type (i + 1)) ?_
    dsimp only
    split <;> rfl
  · rfl

/-- The twin of `typeAliasAt`. -/
def typeAliasAt (b : Bytes) (i : Nat) : Checked (Option Match) := do
  let _ ← b.read i
  andThen (statementKeyword b i "type") fun after =>
    let name := b.skipBlanks after
    let stop := nameStop b name
    if after < name && name < stop then
      andThen (skipTypeParameters b (b.skipSpace stop)) fun eq => do
        if ← isAssign b eq then return some ⟨.typeAlias, ⟨i, eq + 1⟩⟩ else return none
    else return none

/-- **A type alias is looked for at a byte of the text.** What follows the keyword is looked at with
a test, up to the sign. -/
theorem typeAliasAt_eq (hi : i < b.size) :
    typeAliasAt b i = .ok (TypeErasure.typeAliasAt b i) := by
  refine bind_eq (read_eq hi) ?_
  refine andThen_eq (statementKeyword_eq (by decide) (Nat.le_of_lt hi)) fun after _ => ?_
  dsimp only
  split
  · exact andThen_eq (skipTypeParameters_eq b _) fun eq _ =>
      ite_eq (isAssign_eq b eq) (fun _ => rfl) fun _ => rfl
  · rfl

/-- The twin of `typeAliasPatch`. -/
def typeAliasPatch (b : Bytes) (m : Match) : Checked Patch := do
  let stop ← findStop b .type (fun k => or (satAt b k (·.is ';')) (endsLine b m.stop k)) m.stop
  return .erase b m.start (← statementStop b m.start stop)

/-- The search for the end of an alias reads what is there, from the sign on. -/
theorem typeAliasPatch_eq (b : Bytes) (m : Match) :
    typeAliasPatch b m = .ok (TypeErasure.typeAliasPatch b m) :=
  bind_eq (findStop_eq fun _ hstart hk => or_eq (satAt_eq hk) fun _ => endsLine_eq hstart hk)
    (bind_eq (statementStop_eq (findStop_le _ _ _ _)) rfl)

/-! ### Casts -/

/-- The twin of `inBindingList`. -/
def inBindingList (b : Bytes) (i : Nat) : Checked Bool :=
  any (enclosingOpen b i) fun o =>
    and (satAt b o (·.is '{'))
      (any (lastInk b o) fun p => wordBefore b (p + 1) ["import", "export", "type"])

/-- A list of imported or exported names is looked for at an offset of the text: the bracket around
it is there, and so is the word before the bracket. -/
theorem inBindingList_eq (hi : i ≤ b.size) :
    inBindingList b i = .ok (TypeErasure.inBindingList b i) := by
  refine any_eq (enclosingOpen_eq hi) fun o ho => ?_
  -- the bracket stands before `i`, so it is a byte of the text
  have hlt : o < b.size := Nat.lt_of_lt_of_le (enclosingOpen_lt ho) hi
  refine and_eq (satAt_eq hlt) fun _ => any_eq (lastInk_eq (Nat.le_of_lt hlt)) fun p hp => ?_
  have := Bytes.lastInk_lt hp
  exact wordBefore_eq (by omega)

/-- The twin of `castOperandBefore`. -/
def castOperandBefore (b : Bytes) (i : Nat) : Checked Bool :=
  any (lastInk b i) fun p =>
    and (not (satAt b p (·.is '*'))) (not (wordBefore b (p + 1) declarators))

/-- The operand of a cast is looked for before an offset of the text. -/
theorem castOperandBefore_eq (hi : i ≤ b.size) :
    castOperandBefore b i = .ok (TypeErasure.castOperandBefore b i) := by
  refine any_eq (lastInk_eq hi) fun p hp => ?_
  have hlt : p < b.size := Nat.lt_of_lt_of_le (Bytes.lastInk_lt hp) hi
  exact and_eq (not_eq (satAt_eq hlt)) fun _ => not_eq (wordBefore_eq hlt)

/-- The twin of `castAt`. -/
def castAt (b : Bytes) (i : Nat) : Checked (Option Match) := do
  if ← and (and (and (and (and (satAt b i Byte.isBlank) (keywordAt b (i + 1) "as"))
      (.ok (b.satAt (i + 3) Byte.isSpace)))
      (.ok (b.satAt (b.skipSpace (i + 3)) startsCastType)))
      (castOperandBefore b i)) (not (inBindingList b i)) then
    return some ⟨.cast, ⟨i, i + 3⟩⟩
  else return none

/-- **A cast is looked for at a byte of the text.** The conditions are asked for one by one, and
each is safe at the offset that it is asked for. -/
theorem castAt_eq (hi : i < b.size) : castAt b i = .ok (TypeErasure.castAt b i) := by
  refine ite_eq (and_eq (and_eq (and_eq (and_eq (and_eq (satAt_eq hi) fun _ => ?_) fun _ => rfl)
    fun _ => rfl) fun _ => ?_) fun _ => not_eq ?_) (fun _ => rfl) fun _ => rfl
  · exact keywordAt_eq (by decide) b (i + 1)
  · exact castOperandBefore_eq (Nat.le_of_lt hi)
  · exact inBindingList_eq (Nat.le_of_lt hi)

/-- The twin of `castPatch`. -/
def castPatch (b : Bytes) (m : Match) : Checked Patch := do
  let stop ← findStop b .type
    (fun k => or (satAt b k (·.among [';', ','])) (endsLine b m.stop k)) m.stop
  return .erase b m.start (← trimEnd b m.start stop)

/-- The search for the end of its type reads what is there. -/
theorem castPatch_eq (b : Bytes) (m : Match) :
    castPatch b m = .ok (TypeErasure.castPatch b m) :=
  bind_eq (findStop_eq fun _ hstart hk => or_eq (satAt_eq hk) fun _ => endsLine_eq hstart hk)
    (bind_eq (trimEnd_eq (findStop_le _ _ _ _)) rfl)

/-! ### Lists of type arguments -/

/-- The twin of `fitsType`, which looks at the byte before a `=` without more ado. -/
def fitsType (b : Bytes) (o : OpenBrackets) (i : Nat) (c : Byte) : Checked Bool :=
  if c.is '=' then
    not (or (or (.ok (b.isAt (i + 1) '=')) (satBefore b i (·.is '='))) (satBefore b i (·.is '!')))
  else return TypeErasure.fitsType b o i c

/-- What fits into a type is asked for behind the start of the text, so that the byte before a sign
is there. -/
theorem fitsType_eq {o : OpenBrackets} {c : Byte} (hpos : 0 < i) (hi : i ≤ b.size) :
    fitsType b o i c = .ok (TypeErasure.fitsType b o i c) := by
  unfold fitsType
  split
  · rename_i hsign
    rw [TypeErasure.fitsType, if_pos hsign]
    exact not_eq (or_eq (or_eq rfl fun _ => isBefore_eq hpos hi) fun _ => isBefore_eq hpos hi)
  · rfl

/-- The twin of `typeListClose`, which looks at the byte before a `>` without more ado. -/
def typeListClose (b : Bytes) (o : OpenBrackets) (i : Nat) : Checked (Option Nat) :=
  match _hi : b[i]? with
  | none => return none
  | some c => do
    if c.is '<' then typeListClose b { o with angle := o.angle + 1 } (i + 1)
    else if c.is '>' then
      if ← satBefore b i (·.is '=') then typeListClose b o (i + 1)
      else if o.angle = 1 then if o.onlyAngle then return some i else return none
      else typeListClose b { o with angle := o.angle - 1 } (i + 1)
    else if c.isQuote then
      match _hl : TypeErasure.literalAt b i with
      | none => return none
      | some l => typeListClose b o l.span.stop
    else if c.isOpener || c.isCloser then
      match o.count c with
      | none => return none
      | some o => typeListClose b o (i + 1)
    else if ← fitsType b o i c then typeListClose b o (i + 1)
    else return none
termination_by b.size - i
decreasing_by
  all_goals
    have := (Array.getElem?_eq_some_iff.mp _hi).1
    try have := lt_stop_of_literalAt _hl
    omega

/-- One step of the search. The definition carries the proof that the search makes progress; here it
is left out. -/
private theorem typeListClose_of_getElem? {o : OpenBrackets} {c : Byte} (hc : b[i]? = some c) :
    typeListClose b o i =
      if c.is '<' then typeListClose b { o with angle := o.angle + 1 } (i + 1)
      else if c.is '>' then do
        if ← satBefore b i (·.is '=') then typeListClose b o (i + 1)
        else if o.angle = 1 then if o.onlyAngle then return some i else return none
        else typeListClose b { o with angle := o.angle - 1 } (i + 1)
      else if c.isQuote then
        match TypeErasure.literalAt b i with
        | none => return none
        | some l => typeListClose b o l.span.stop
      else if c.isOpener || c.isCloser then
        match o.count c with
        | none => return none
        | some o => typeListClose b o (i + 1)
      else do
        if ← fitsType b o i c then typeListClose b o (i + 1)
        else return none := by
  rw [typeListClose]
  split
  · rename_i hnone
    simp [hnone] at hc
  · rename_i c' hc'
    obtain rfl : c = c' := Option.some.inj (hc.symm.trans hc')
    -- the branches are those of the definition, and only a literal is asked for with a proof
    split
    · rfl
    · split
      · rfl
      · split
        · split
          · rename_i hl
            rw [hl]
          · rename_i l hl
            rw [hl]
        · rfl

/-- **The search for the end of a list of type arguments reads what is there**, if it does not start
with the text. The induction follows the search, in twelve cases. The offset stays positive, and
this is what the bytes before a `>` and a `=` are read by. -/
theorem typeListClose_eq {o : OpenBrackets} (hpos : 0 < i) :
    typeListClose b o i = .ok (TypeErasure.typeListClose b o i) := by
  have hle {i : Nat} {c : Byte} (hc : b[i]? = some c) : i ≤ b.size :=
    Nat.le_of_lt (Array.getElem?_eq_some_iff.mp hc).1
  fun_induction TypeErasure.typeListClose b o i with
  | case1 o i hnone =>
    -- the text is over
    rw [typeListClose]
    split
    · rfl
    · rename_i c hc
      simp [hnone] at hc
  | case2 o i c hc hopen ih =>
    -- an inner list begins
    rw [typeListClose_of_getElem? hc, if_pos hopen]
    exact ih (Nat.succ_pos i)
  -- for a `>` the byte before it is read, which is there because the list does not start the text
  | case3 o i c hc hopen hclose hbefore ih =>
    rw [typeListClose_of_getElem? hc, if_neg hopen, if_pos hclose]
    refine bind_eq (isBefore_eq hpos (hle hc)) ?_
    rw [if_pos hbefore]
    exact ih (Nat.succ_pos i)
  | case4 o i c hc hopen hclose hbefore hone honly =>
    -- the end of the list
    rw [typeListClose_of_getElem? hc, if_neg hopen, if_pos hclose]
    refine bind_eq (isBefore_eq hpos (hle hc)) ?_
    rw [if_neg hbefore, if_pos hone, if_pos honly]
    rfl
  | case5 o i c hc hopen hclose hbefore hone honly =>
    -- a bracket of another shape is still open
    rw [typeListClose_of_getElem? hc, if_neg hopen, if_pos hclose]
    refine bind_eq (isBefore_eq hpos (hle hc)) ?_
    rw [if_neg hbefore, if_pos hone, if_neg honly]
    rfl
  | case6 o i c hc hopen hclose hbefore hone ih =>
    -- the end of an inner list
    rw [typeListClose_of_getElem? hc, if_neg hopen, if_pos hclose]
    refine bind_eq (isBefore_eq hpos (hle hc)) ?_
    rw [if_neg hbefore, if_neg hone]
    exact ih (Nat.succ_pos i)
  | case7 o i c hc hopen hclose hquote hl =>
    -- a quote that starts no literal
    rw [typeListClose_of_getElem? hc, if_neg hopen, if_neg hclose, if_pos hquote, hl]
    rfl
  | case8 o i c hc hopen hclose hquote l hl ih =>
    -- a string type, which is passed over in one step
    rw [typeListClose_of_getElem? hc, if_neg hopen, if_neg hclose, if_pos hquote, hl]
    exact ih (Nat.lt_of_lt_of_le hpos (Nat.le_of_lt (lt_stop_of_literalAt hl)))
  | case9 o i c hc hopen hclose hquote hbracket hcount =>
    -- a bracket that closes nothing
    rw [typeListClose_of_getElem? hc, if_neg hopen, if_neg hclose, if_neg hquote, if_pos hbracket,
      hcount]
    rfl
  | case10 o i c hc hopen hclose hquote hbracket o' hcount ih =>
    -- a bracket that is counted
    rw [typeListClose_of_getElem? hc, if_neg hopen, if_neg hclose, if_neg hquote, if_pos hbracket,
      hcount]
    exact ih (Nat.succ_pos i)
  | case11 o i c hc hopen hclose hquote hbracket hfits ih =>
    -- a byte that fits
    rw [typeListClose_of_getElem? hc, if_neg hopen, if_neg hclose, if_neg hquote, if_neg hbracket]
    refine bind_eq (fitsType_eq hpos (hle hc)) ?_
    rw [if_pos hfits]
    exact ih (Nat.succ_pos i)
  | case12 o i c hc hopen hclose hquote hbracket hfits =>
    -- a byte that does not fit
    rw [typeListClose_of_getElem? hc, if_neg hopen, if_neg hclose, if_neg hquote, if_neg hbracket]
    refine bind_eq (fitsType_eq hpos (hle hc)) ?_
    rw [if_neg hfits]
    rfl

/-- The twin of `followsTypeList`. -/
def followsTypeList (b : Bytes) (i : Nat) : Checked Bool :=
  or (or (.ok (b.satAt i (·.among ['(', '{']))) (keywordAt b i "extends"))
    (keywordAt b i "implements")

/-- What may follow a list of type arguments can be looked for at every offset. -/
theorem followsTypeList_eq (b : Bytes) (i : Nat) :
    followsTypeList b i = .ok (TypeErasure.followsTypeList b i) :=
  or_eq (or_eq rfl fun _ => keywordAt_eq (by decide) b i) fun _ => keywordAt_eq (by decide) b i

/-- The twin of `typeArgumentsAt`. -/
def typeArgumentsAt (b : Bytes) (i : Nat) : Checked (Option Match) := do
  if ← and (and (and (.ok (0 < i)) (satAt b i (·.is '<'))) (satBefore b i Byte.isNamePart))
      (.ok !b.satAt (i + 1) (·.among ['<', '='])) then
    match ← typeListClose b {} i with
    | none => return none
    | some close =>
      if ← followsTypeList b (b.skipSpace (close + 1)) then
        return some ⟨.typeArguments, ⟨i, close + 1⟩⟩
      else return none
  else return none

/-- **A list of type arguments is looked for at a byte of the text.** The first condition rules out
the start of the text, and all that follow may rely on this. -/
theorem typeArgumentsAt_eq (hi : i < b.size) :
    typeArgumentsAt b i = .ok (TypeErasure.typeArgumentsAt b i) := by
  -- the offset was tested first, and the test holds wherever it matters
  have hpos {p : Bool} (h : (decide (0 < i) && p) = true) : 0 < i :=
    of_decide_eq_true (Bool.and_eq_true_iff.mp h).1
  refine ite_eq (and_eq (and_eq (and_eq rfl fun _ => satAt_eq hi) fun h => ?_) fun _ => rfl)
    (fun h => ?_) fun _ => rfl
  · exact satBefore_eq (hpos h) (Nat.le_of_lt hi)
  · have h' := (Bool.and_eq_true_iff.mp (Bool.and_eq_true_iff.mp h).1).1
    refine bind_eq (typeListClose_eq (hpos h')) ?_
    cases TypeErasure.typeListClose b {} i with
    | none => rfl
    | some close => exact ite_eq (followsTypeList_eq b _) (fun _ => rfl) fun _ => rfl

/-! ### Return types -/

/-- The twin of `visitConditional`. -/
def visitConditional (b : Bytes) (k : Nat) : Checked (Visit Nat Bool) := do
  if ← satAt b k (·.among ['\n', ';']) then return .halt false
  else if ← and (and (satAt b k (·.is '?')) (.ok !b.satAt (k + 1) (·.among ['.', '?'])))
      (not (hasBefore b k (·.is '?'))) then
    return .halt true
  else return .go 0

/-- A conditional expression is noticed at a byte of the text. -/
theorem visitConditional_eq (hi : i < b.size) :
    visitConditional b i = .ok (TypeErasure.visitConditional b i) :=
  ite_eq (satAt_eq hi) (fun _ => rfl) fun _ =>
    ite_eq (and_eq (and_eq (satAt_eq hi) fun _ => rfl) fun _ =>
      not_eq (hasBefore_eq (Nat.le_of_lt hi))) (fun _ => rfl) fun _ => rfl

/-- The twin of `inConditional`. -/
def inConditional (b : Bytes) (o : Nat) : Checked Bool := do
  return (← scanBack b (visitOutside b (fun _ => false) (visitConditional b)) 0 o).getD false

theorem inConditional_eq (hi : i ≤ b.size) :
    inConditional b i = .ok (TypeErasure.inConditional b i) :=
  bind_eq (scanBack_eq hi fun _ _ hk => visitOutside_eq hk (visitConditional_eq hk)) rfl

/-- The twin of `canOpenParameters`. -/
def canOpenParameters (b : Bytes) (o : Nat) : Checked Bool :=
  and (and (satAt b o (·.is '('))
    (not (any (lastCode b o) fun p =>
      or (satAt b p (·.is '?')) (wordBefore b (p + 1) controlWords))))
    (not (inConditional b o))

/-- A bracket that may open parameters is a byte of the text, and the word before it is too. -/
theorem canOpenParameters_eq (hi : i < b.size) :
    canOpenParameters b i = .ok (TypeErasure.canOpenParameters b i) := by
  refine and_eq (and_eq (satAt_eq hi) fun _ => not_eq ?_) fun _ =>
    not_eq (inConditional_eq (Nat.le_of_lt hi))
  refine any_eq (lastCode_eq (Nat.le_of_lt hi)) fun p hp => ?_
  have hlt : p < b.size := Nat.lt_trans (lastCode_lt hp) hi
  exact or_eq (satAt_eq hlt) fun _ => wordBefore_eq hlt

/-- The twin of `followsParameters`. -/
def followsParameters (b : Bytes) (colon : Nat) : Checked Bool := do
  let close ← trimEnd b 0 colon
  and (hasBefore b close (·.is ')')) (any (enclosingOpen b (close - 1)) (canOpenParameters b))

/-- Parameters are looked for before an offset of the text, first their closing and then their
opening bracket. -/
theorem followsParameters_eq (hi : i ≤ b.size) :
    followsParameters b i = .ok (TypeErasure.followsParameters b i) := by
  have hclose : b.trimEnd 0 i ≤ b.size := Nat.le_trans (b.trimEnd_le 0 i) hi
  refine bind_eq (trimEnd_eq hi) (and_eq (hasBefore_eq hclose) fun _ => ?_)
  -- the bracket that opens the list lies before the one that closes it
  refine any_eq (enclosingOpen_eq (by omega)) fun o ho => canOpenParameters_eq ?_
  have := enclosingOpen_lt ho
  omega

/-- The twin of `skipLeadingGroup`, which takes the bytes behind a function type as a range. -/
def skipLeadingGroup (b : Bytes) (i : Nat) : Checked (Option Nat) := do
  if b.satAt i (·.among ['{', '(']) then
    let close ← findClose b .type (i + 1)
    if close < b.size then
      let arrow := b.skipSpace (close + 1)
      if ← and (satAt b i (·.is '(')) (do
          let _ ← b.view arrow b.size
          return b.hasAt arrow "=>") then
        return some (arrow + 2)
      else return some (close + 1)
    else return none
  else return some i

/-- A leading group can be looked for at every offset. The bytes behind it are taken as a range only
if it is closed. -/
theorem skipLeadingGroup_eq (b : Bytes) (i : Nat) :
    skipLeadingGroup b i = .ok (TypeErasure.skipLeadingGroup b i) := by
  unfold skipLeadingGroup TypeErasure.skipLeadingGroup
  split
  · rename_i hopen
    refine bind_eq (findClose_eq b .type (i + 1)) ?_
    dsimp only
    split
    · rename_i hclose
      -- the group is closed within the text, and skipping whitespace does not leave it
      have harrow : b.skipSpace (TypeErasure.findClose b .type (i + 1) + 1) ≤ b.size :=
        Bytes.skipWhile_le_size hclose
      exact ite_eq (and_eq (satAt_eq (Bytes.lt_size_of_satAt hopen)) fun _ =>
        bind_eq (view_eq harrow (Nat.le_refl _)) rfl) (fun _ => rfl) fun _ => rfl
    · rfl
  · rfl

/-- The twin of `returnTypeStop`. -/
def returnTypeStop (b : Bytes) (colon : Nat) : Checked (Option Nat) := do
  if ← followsParameters b colon then
    match ← skipLeadingGroup b (b.skipSpace (colon + 1)) with
    | none => return none
    | some i =>
      let stop ← findStop b .type
        (fun k => or (or (satAt b k (·.among ['{', ';']))
          (and (satAt b k (·.is '=')) (.ok (b.isAt (k + 1) '>')))) (endsLine b (colon + 1) k)) i
      let trimmed ← trimEnd b (colon + 1) stop
      if b.satAt stop (·.among ['{', '=']) && colon + 1 < trimmed then return some trimmed
      else return none
  else return none

/-- The end of a return type is looked for from an offset of the text. The search starts behind the
colon, so that the line may be looked at from there. -/
theorem returnTypeStop_eq (hi : i ≤ b.size) :
    returnTypeStop b i = .ok (TypeErasure.returnTypeStop b i) := by
  refine ite_eq (followsParameters_eq hi) (fun _ => ?_) fun _ => rfl
  refine bind_eq (skipLeadingGroup_eq b _) ?_
  cases hk : TypeErasure.skipLeadingGroup b (b.skipSpace (i + 1)) with
  | none => rfl
  | some k =>
    have hspace : i + 1 ≤ b.skipSpace (i + 1) := b.le_skipWhile _ _
    have hle := (scans_skipLeadingGroup hk).le
    -- the type starts behind the colon, so each line break is looked at from the colon on
    refine bind_eq (findStop_eq fun j hj hlt => or_eq (or_eq (satAt_eq hlt) fun _ =>
      and_eq (satAt_eq hlt) fun _ => rfl) fun _ => endsLine_eq (by omega) hlt) ?_
    exact bind_eq (trimEnd_eq (findStop_le _ _ _ _)) (apply_ite Except.ok _ _ _).symm

/-- The twin of `returnTypeAt`. -/
def returnTypeAt (b : Bytes) (i : Nat) : Checked (Option Match) := do
  if ← and (and (satAt b i (·.is ':')) (.ok !b.isAt (i + 1) ':'))
      (do return (← returnTypeStop b i).isSome) then
    return some ⟨.returnType, ⟨i, i + 1⟩⟩
  else return none

/-- **A return type is looked for at a byte of the text.** -/
theorem returnTypeAt_eq (hi : i < b.size) :
    returnTypeAt b i = .ok (TypeErasure.returnTypeAt b i) :=
  ite_eq (and_eq (and_eq (satAt_eq hi) fun _ => rfl) fun _ =>
    bind_eq (returnTypeStop_eq (Nat.le_of_lt hi)) rfl) (fun _ => rfl) fun _ => rfl

/-- The twin of `returnTypePatch`. -/
def returnTypePatch (b : Bytes) (m : Match) : Checked Patch := do
  return .erase b m.start ((← returnTypeStop b m.start).getD m.stop)

theorem returnTypePatch_eq (hm : m.start ≤ b.size) :
    returnTypePatch b m = .ok (TypeErasure.returnTypePatch b m) :=
  bind_eq (returnTypeStop_eq hm) rfl

/-! ### Annotations -/

/-- The twin of `isColon`. -/
def isColon (b : Bytes) (i : Nat) : Checked Bool :=
  and (and (satAt b i (·.is ':')) (.ok !b.isAt (i + 1) ':')) (not (hasBefore b i (·.is ':')))

theorem isColon_eq (hi : i < b.size) : isColon b i = .ok (TypeErasure.isColon b i) :=
  and_eq (and_eq (satAt_eq hi) fun _ => rfl) fun _ => not_eq (hasBefore_eq (Nat.le_of_lt hi))

/-- The twin of `visitDeclarator`. -/
def visitDeclarator (b : Bytes) (k : Nat) : Checked (Visit Nat Bool) := do
  if ← satAt b k (·.is ';') then return .halt false
  else if ← and (satAt b k Byte.isNamePart) (.ok !b.satAt (k + 1) Byte.isNamePart) then
    let start ← runStart b Byte.isNamePart (k + 1)
    let word ← b.view start (k + 1)
    if declarators.any fun w => Bytes.ofString w == word then
      return .halt !(← hasBefore b start (·.is '.'))
    else return .go 0
  else return .go 0

/-- The keyword of a list of declared names is noticed at a byte of the text. The word that ends
there is a range. -/
theorem visitDeclarator_eq (hi : i < b.size) :
    visitDeclarator b i = .ok (TypeErasure.visitDeclarator b i) := by
  have hle := b.runStart_le Byte.isNamePart (i + 1)
  refine ite_eq (satAt_eq hi) (fun _ => rfl) fun _ =>
    ite_eq (and_eq (satAt_eq hi) fun _ => rfl) (fun _ => ?_) fun _ => rfl
  refine bind_eq (runStart_eq hi) (bind_eq (view_eq hle hi) ?_)
  dsimp only
  split
  · exact bind_eq (hasBefore_eq (Nat.le_trans hle hi)) rfl
  · rfl

/-- The twin of `inDeclaratorList`. -/
def inDeclaratorList (b : Bytes) (comma : Nat) : Checked Bool := do
  return (← scanBack b (visitOutside b (fun _ => false) (visitDeclarator b)) 0 comma).getD false

theorem inDeclaratorList_eq (hi : i ≤ b.size) :
    inDeclaratorList b i = .ok (TypeErasure.inDeclaratorList b i) :=
  bind_eq (scanBack_eq hi fun _ _ hk => visitOutside_eq hk (visitDeclarator_eq hk)) rfl

/-- The twin of `patternStart`. -/
def patternStart (b : Bytes) (p : Nat) : Checked (Option Nat) := do
  if ← satAt b p (·.among ['}', ']']) then enclosingOpen b p
  else
    let start ← nameStart b (p + 1)
    if start < p + 1 then return some start else return none

/-- The start of a name or pattern is found from its last byte. -/
theorem patternStart_eq (hi : i < b.size) :
    patternStart b i = .ok (TypeErasure.patternStart b i) := by
  refine ite_eq (satAt_eq hi) (fun _ => enclosingOpen_eq (Nat.le_of_lt hi)) fun _ => ?_
  refine bind_eq (nameStart_eq hi) ?_
  dsimp only
  split <;> rfl

/-- A rest parameter starts at offset `start - 3`: its dots stand before `start`. -/
def dotsBefore (b : Bytes) (start : Nat) : Checked Bool :=
  and (.ok (3 ≤ start)) (do return (← b.view (start - 3) start) == Bytes.ofString "...")

/-- The three dots are taken as a range only if there are three bytes. -/
private theorem dotsBefore_eq (hi : i ≤ b.size) :
    dotsBefore b i = .ok (decide (3 ≤ i) && b.hasAt (i - 3) "...") := by
  refine and_eq rfl fun h => bind_eq (view_eq (Nat.sub_le i 3) hi) ?_
  have h3 : 3 ≤ i := of_decide_eq_true h
  rw [Bytes.hasAt, show (Bytes.ofString "...").size = 3 by decide, Nat.sub_add_cancel h3]
  rfl

/-- The twin of `annotatedBy`. -/
def annotatedBy (b : Bytes) (start : Nat) : Checked (Option Annotated) := do
  let before := if ← dotsBefore b start then start - 3 else start
  match ← lastInk b before with
  | none => return none
  | some prev =>
    if ← satAt b prev (·.is '(') then return some .parameter
    else if ← satAt b prev (·.is ',') then
      if ← any (enclosingOpen b prev) (fun o => satAt b o (·.is '(')) then return some .parameter
      else if ← inDeclaratorList b prev then return some .variable
      else return none
    else if ← wordBefore b (prev + 1) declarators then return some .variable
    else return none

/-- What an annotation belongs to is found from the start of its pattern. All bytes that are looked
at stand before that, so they are there. -/
theorem annotatedBy_eq (hi : i ≤ b.size) :
    annotatedBy b i = .ok (TypeErasure.annotatedBy b i) := by
  refine bind_eq (dotsBefore_eq hi) ?_
  unfold TypeErasure.annotatedBy
  dsimp only
  -- the dots are counted off only if there are three bytes
  have hle : (if (decide (3 ≤ i) && b.hasAt (i - 3) "...") = true then i - 3 else i) ≤ b.size := by
    split <;> omega
  refine bind_eq (lastInk_eq hle) ?_
  cases hprev : b.lastInk _ with
  | none => rfl
  | some prev =>
    have hlt : prev < b.size := Nat.lt_of_lt_of_le (Bytes.lastInk_lt hprev) hle
    refine ite_eq (satAt_eq hlt) (fun _ => rfl) fun _ => ite_eq (satAt_eq hlt) (fun _ => ?_)
      fun _ => ite_eq (wordBefore_eq hlt) (fun _ => rfl) fun _ => rfl
    refine ite_eq (any_eq (enclosingOpen_eq (Nat.le_of_lt hlt)) fun o ho => satAt_eq ?_)
      (fun _ => rfl) fun _ => ite_eq (inDeclaratorList_eq (Nat.le_of_lt hlt)) (fun _ => rfl)
      fun _ => rfl
    exact Nat.lt_trans (enclosingOpen_lt ho) hlt

/-- A name or pattern starts no later than its last byte. -/
private theorem patternStart_le {p start : Nat} (h : TypeErasure.patternStart b p = some start) :
    start ≤ p := by
  unfold TypeErasure.patternStart at h
  split at h
  · exact Nat.le_of_lt (enclosingOpen_lt h)
  · dsimp only at h
    rw [Option.ite_none_right_eq_some] at h
    obtain ⟨hlt, heq⟩ := h
    obtain rfl := Option.some.inj heq
    exact Nat.le_of_lt_succ hlt

/-- The annotation that starts at offset `start`, of the pattern whose last byte stands at offset
`last`. -/
def annotationFrom (b : Bytes) (start last : Nat) : Checked (Option (Nat × Annotated)) :=
  andThen (patternStart b last) fun pattern =>
    andThen (annotatedBy b pattern) fun annotated => return some (start, annotated)

/-- Its annotation is found from its last byte on. -/
private theorem annotationFrom_eq {start last : Nat} (hlast : last < b.size) :
    annotationFrom b start last = .ok (do
      let pattern ← TypeErasure.patternStart b last
      let annotated ← TypeErasure.annotatedBy b pattern
      some (start, annotated)) := by
  refine andThen_eq (patternStart_eq hlast) fun pattern hpattern => ?_
  -- the pattern starts no later than its last byte
  have := patternStart_le hpattern
  exact andThen_eq (annotatedBy_eq (by omega)) fun _ _ => rfl

/-- The twin of `annotationOf`. -/
def annotationOf (b : Bytes) (colon : Nat) : Checked (Option (Nat × Annotated)) :=
  andThen (lastInk b colon) fun p => do
    if ← satAt b p (·.among ['?', '!']) then andThen (lastInk b p) (annotationFrom b p)
    else annotationFrom b colon p

/-- The annotation that a colon starts is found by going back from the colon, over a marker if there
is one. -/
theorem annotationOf_eq (hi : i ≤ b.size) :
    annotationOf b i = .ok (TypeErasure.annotationOf b i) := by
  refine andThen_eq (lastInk_eq hi) fun p hp => ?_
  have hlt : p < b.size := Nat.lt_of_lt_of_le (Bytes.lastInk_lt hp) hi
  refine bind_eq (satAt_eq hlt) ?_
  cases b.satAt p (·.among ['?', '!']) with
  | true =>
    -- behind a marker, the pattern ends further back
    exact andThen_eq (lastInk_eq (Nat.le_of_lt hlt)) fun last hlast =>
      annotationFrom_eq (Nat.lt_trans (Bytes.lastInk_lt hlast) hlt)
  | false => exact annotationFrom_eq hlt

/-- The twin of `annotationAt`. -/
def annotationAt (b : Bytes) (cursor i : Nat) : Checked (Option Match) := do
  if ← isColon b i then
    match ← annotationOf b i with
    | some (start, _) =>
      if cursor ≤ start then return some ⟨.annotated, ⟨start, i + 1⟩⟩ else return none
    | none => return none
  else return none

/-- **An annotation is looked for at a byte of the text.** -/
theorem annotationAt_eq {cursor : Nat} (hi : i < b.size) :
    annotationAt b cursor i = .ok (TypeErasure.annotationAt b cursor i) := by
  refine ite_eq (isColon_eq hi) (fun _ => bind_eq (annotationOf_eq (Nat.le_of_lt hi)) ?_)
    fun _ => rfl
  cases TypeErasure.annotationOf b i with
  | none => rfl
  | some found => exact (apply_ite Except.ok _ _ _).symm

/-- The twin of `annotatedTypeStop`. -/
def annotatedTypeStop (b : Bytes) (annotated : Annotated) (start : Nat) : Checked Nat :=
  findStop b .type
    (fun k => or (or (satAt b k (·.among [',', ';'])) (isAssign b k))
      (and (.ok (annotated == .variable)) (endsLine b start k)))
    start

/-- The search for the end of its type reads what is there. -/
theorem annotatedTypeStop_eq (b : Bytes) (annotated : Annotated) (start : Nat) :
    annotatedTypeStop b annotated start =
      .ok (TypeErasure.annotatedTypeStop b annotated start) :=
  findStop_eq fun _ hstart hk => or_eq (or_eq (satAt_eq hk) fun _ => isAssign_eq b _) fun _ =>
    and_eq rfl fun _ => endsLine_eq hstart hk

/-- The twin of `itemName`, which takes the bytes behind a comma as a range. -/
def itemName (b : Bytes) (i : Nat) : Checked Nat := do
  let _ ← b.view (b.skipSpace i) b.size
  return TypeErasure.itemName b i

/-- The bytes behind a comma are a range, since skipping whitespace does not leave the text. -/
private theorem itemName_eq (hi : i ≤ b.size) : itemName b i = .ok (TypeErasure.itemName b i) :=
  bind_eq (view_eq (Bytes.skipWhile_le_size hi) (Nat.le_refl _)) rfl

/-- The twin of `nextAnnotated`. -/
def nextAnnotated (b : Bytes) (i : Nat) : Checked (Option (Nat × Nat)) := do
  let name ← itemName b i
  let marker := b.skipBlanks (nameStop b name)
  let colon := markerColon b marker
  if ← and (.ok (name < nameStop b name)) (and (.ok (b.isAt colon ':')) (isColon b colon)) then
    return some (marker, colon)
  else return none

/-- The next item of a list is looked for from an offset of the text. Its colon is read again only
where there is one. -/
theorem nextAnnotated_eq (hi : i ≤ b.size) :
    nextAnnotated b i = .ok (TypeErasure.nextAnnotated b i) := by
  -- a colon that stands alone is a colon
  have hcolon (k : Nat) : and (.ok (b.isAt k ':')) (isColon b k) =
      .ok (TypeErasure.isColon b k) := by
    refine (and_eq rfl fun hat => isColon_eq (Bytes.lt_size_of_isAt hat)).trans ?_
    rw [TypeErasure.isColon]
    cases b.isAt k ':' <;> rfl
  exact bind_eq (itemName_eq hi) (ite_eq (and_eq rfl fun _ => hcolon _) (fun _ => rfl) fun _ => rfl)

/-- The twin of `AnnotatedItem.stop`. -/
def itemStop (item : AnnotatedItem) (b : Bytes) (annotated : Annotated) : Checked Nat := do
  trimEnd b item.start (← annotatedTypeStop b annotated (item.colon + 1))

/-- The end of an item reads what is there, whatever the item. -/
theorem itemStop_eq (item : AnnotatedItem) (b : Bytes) (annotated : Annotated) :
    itemStop item b annotated = .ok (item.stop b annotated) :=
  bind_eq (annotatedTypeStop_eq b annotated _) (trimEnd_eq (findStop_le _ _ _ _))

/-- The twin of `AnnotatedItem.next`. -/
def nextItem (item : AnnotatedItem) (b : Bytes) (annotated : Annotated) :
    Checked (Option AnnotatedItem) := do
  let typeStop ← annotatedTypeStop b annotated (item.colon + 1)
  if b.isAt typeStop ',' then
    return (← nextAnnotated b (typeStop + 1)).map fun (marker, colon) =>
      ⟨item.stop b annotated, marker, colon⟩
  else return none

/-- So does the search for the item behind it, which starts behind a comma. -/
private theorem nextItem_eq (item : AnnotatedItem) (b : Bytes) (annotated : Annotated) :
    nextItem item b annotated = .ok (item.next b annotated) := by
  refine bind_eq (annotatedTypeStop_eq b annotated _) ?_
  unfold AnnotatedItem.next AnnotatedItem.typeStop
  dsimp only
  split
  · rename_i hcomma
    exact bind_eq (nextAnnotated_eq (Bytes.lt_size_of_isAt hcomma)) rfl
  · rfl

/-- The twin of `annotatedItems`. It fails if the next item does not stand further on. -/
def annotatedItems (b : Bytes) (annotated : Annotated) (item : AnnotatedItem) : Checked Patch := do
  let stop ← itemStop item b annotated
  let segments := [.keep b item.copied item.start, .erase b item.start stop]
  match ← nextItem item b annotated with
  | none => return { stop, segments }
  | some next =>
    if _h : item.colon < next.colon ∧ next.colon < b.size then
      let rest ← annotatedItems b annotated next
      return { rest with segments := segments ++ rest.segments }
    else .error ⟨next.colon⟩
termination_by b.size - item.colon
decreasing_by omega

/-- **A list of annotations is gone through within the text.** The induction follows the list. The
twin asks that each colon stands further on than the last one, and it does. -/
private theorem annotatedItems_eq (b : Bytes) (annotated : Annotated) (item : AnnotatedItem) :
    annotatedItems b annotated item = .ok (TypeErasure.annotatedItems b annotated item) := by
  fun_induction TypeErasure.annotatedItems b annotated item with
  | case1 item hnone =>
    -- the last item of the list
    rw [annotatedItems]
    exact bind_eq (itemStop_eq item b annotated)
      (bind_eq ((nextItem_eq item b annotated).trans (congrArg _ hnone)) rfl)
  | case2 item next hnext rest ih =>
    rw [annotatedItems]
    refine bind_eq (itemStop_eq item b annotated)
      (bind_eq ((nextItem_eq item b annotated).trans (congrArg _ hnext)) ?_)
    dsimp only
    -- the next colon lies further on, which is what the test asks for
    rw [dif_pos (AnnotatedItem.colon_lt_next hnext)]
    exact bind_eq ih rfl

/-- The twin of `annotationPatch`. -/
def annotationPatch (b : Bytes) (m : Match) : Checked Patch := do
  let colon := m.stop - 1
  let annotated := match ← annotationOf b colon with
    | some (_, annotated) => annotated
    | none => .parameter
  annotatedItems b annotated ⟨m.start, m.start, colon⟩

/-- An annotation is patched from the colon that gave it away. -/
theorem annotationPatch_eq (hm : m.stop ≤ b.size) :
    annotationPatch b m = .ok (TypeErasure.annotationPatch b m) :=
  bind_eq (annotationOf_eq (Nat.le_trans (Nat.sub_le _ _) hm)) (annotatedItems_eq b _ _)

end Checked

end TypeErasure
