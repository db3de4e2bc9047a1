import TypeErasure.Proofs.Checked.Construct
import TypeErasure.Proofs.Cut.Class

/-!
# Checked classes, and all constructs

The twins of the functions that recognise a class header and read the members of a class body, and
of the search for the next construct. The words of a class member are cut out of the text, so this
is where it matters that the bytes are a text and that a name ends between two characters.

Main statements: in every text the twin of the search gives the answer of the search
(`Checked.nextMatch_eq`), and so does the twin of the patch of the construct that is found
(`Checked.patchOf_eq`).
-/

namespace TypeErasure

namespace Checked

variable {b : Bytes} {i k : Nat} {m : Match}

/-! ### Headers -/

/-- The twin of `angleOpen`. -/
def angleOpen (b : Bytes) (depth : Nat) : Nat → Checked (Option Nat)
  | 0 => return none
  | k + 1 => do
    if ← and (satAt b k (·.is '>')) (not (hasBefore b k (·.is '='))) then
      angleOpen b (depth + 1) k
    else if ← satAt b k (·.is '<') then
      if depth = 0 then return some k else angleOpen b (depth - 1) k
    else if ← satAt b k (·.among [';', '{', '}']) then return none
    else angleOpen b depth k

/-- The bracket that opens a list of type arguments is looked for before an offset of the text. By
induction on that offset. -/
theorem angleOpen_eq {depth : Nat} (hi : i ≤ b.size) :
    angleOpen b depth i = .ok (TypeErasure.angleOpen b depth i) := by
  induction i generalizing depth with
  | zero =>
    -- nothing stands before the start of the text
    rfl
  | succ k ih =>
    have hk : k ≤ b.size := Nat.le_of_succ_le hi
    refine ite_eq (and_eq (satAt_eq hi) fun _ => not_eq (hasBefore_eq hk)) (fun _ => ih hk)
      fun _ => ite_eq (satAt_eq hi) (fun _ => ?_) fun _ => ite_eq (satAt_eq hi) (fun _ => rfl)
      fun _ => ih hk
    split
    · rfl
    · exact ih hk

/-- The twin of `headerPartStart`. -/
def headerPartStart (b : Bytes) (p : Nat) : Checked (Option Nat) := do
  if ← satAt b p Byte.isNamePart then
    let start ← nameStart b (p + 1)
    if p < start then return none else return some start
  else if ← satAt b p (·.among ['.', ',']) then return some p
  else if ← satAt b p (·.is ')') then enclosingOpen b p
  else if ← and (and (satAt b p (·.is '>')) (.ok (0 < p))) (not (satBefore b p (·.is '='))) then
    angleOpen b 0 p
  else return none

/-- A part of a class header is found from its last byte. One case for each shape of a part. -/
theorem headerPartStart_eq (hi : i < b.size) :
    headerPartStart b i = .ok (TypeErasure.headerPartStart b i) := by
  have hle := Nat.le_of_lt hi
  refine ite_eq (satAt_eq hi)
    (fun _ => bind_eq (nameStart_eq hi) (apply_ite Except.ok _ _ _).symm) fun _ =>
    ite_eq (satAt_eq hi) (fun _ => rfl) fun _ =>
    ite_eq (satAt_eq hi) (fun _ => enclosingOpen_eq hle) fun _ =>
    ite_eq (and_eq (and_eq (satAt_eq hi) fun _ => rfl) fun hpos => not_eq ?_)
      (fun _ => angleOpen_eq hle) fun _ => rfl
  -- a `>` at the start of the text is ruled out before the byte before it is read
  exact isBefore_eq (of_decide_eq_true (Bool.and_eq_true_iff.mp hpos).2) hle

/-- The twin of `endsClassHeader`. It fails if a part of the header does not stand further back. -/
def endsClassHeader (b : Bytes) (k : Nat) : Checked Bool := do
  match ← lastCode b k with
  | none => return false
  | some p =>
    match ← headerPartStart b p with
    | none => return false
    | some start =>
      if _h : start < k then
        or (and (satAt b p Byte.isNamePart) (keywordAt b start "class")) (endsClassHeader b start)
      else .error ⟨start⟩
termination_by k

/-- **The end of a class header is looked for at an offset of the text.** The induction follows the
reading, which goes back part by part. The twin asks that each part starts further back than the
last one, and it does. -/
theorem endsClassHeader_eq (hk : k ≤ b.size) :
    endsClassHeader b k = .ok (TypeErasure.endsClassHeader b k) := by
  fun_induction TypeErasure.endsClassHeader b k with
  | case1 k hnone =>
    -- there is no code before the header
    rw [endsClassHeader]
    exact bind_eq ((lastCode_eq hk).trans (congrArg _ hnone)) rfl
  | case2 k p hp hnone =>
    -- what stands there is no part of a header
    have hlt := lastCode_lt hp
    rw [endsClassHeader]
    exact bind_eq ((lastCode_eq hk).trans (congrArg _ hp))
      (bind_eq ((headerPartStart_eq (by omega)).trans (congrArg _ hnone)) rfl)
  | case3 k p hp start hstart ih =>
    -- one more part, and the rest of the header
    have hlt := lastCode_lt hp
    have hle := headerPartStart_le hstart
    rw [endsClassHeader]
    refine bind_eq ((lastCode_eq hk).trans (congrArg _ hp))
      (bind_eq ((headerPartStart_eq (by omega)).trans (congrArg _ hstart)) ?_)
    dsimp only
    -- each part of the header starts before the last one
    rw [dif_pos (by omega)]
    exact or_eq (and_eq (satAt_eq (by omega)) fun _ => keywordAt_eq (by decide) b start) fun _ =>
      ih (by omega)

/-- The twin of `abstractAt`. -/
def abstractAt (b : Bytes) (i : Nat) : Checked (Option Match) := do
  let next := b.skipBlanks (i + 8)
  if ← and (and (keywordAt b i "abstract") (.ok (i + 8 < next))) (keywordAt b next "class") then
    return some ⟨.classMembers, ⟨i, next⟩⟩
  else return none

/-- The keyword `abstract` can be looked for at every offset. -/
theorem abstractAt_eq (b : Bytes) (i : Nat) : abstractAt b i = .ok (TypeErasure.abstractAt b i) :=
  ite_eq (and_eq (and_eq (keywordAt_eq (by decide) b i) fun _ => rfl) fun _ =>
    keywordAt_eq (by decide) b _) (fun _ => rfl) fun _ => rfl

/-- The twin of `classBraceAt`. -/
def classBraceAt (b : Bytes) (i : Nat) : Checked (Option Match) := do
  if ← and (satAt b i (·.is '{')) (endsClassHeader b i) then
    return some ⟨.classMembers, ⟨i, i + 1⟩⟩
  else return none

/-- The bracket of a class body is looked for at a byte of the text. -/
theorem classBraceAt_eq (hi : i < b.size) :
    classBraceAt b i = .ok (TypeErasure.classBraceAt b i) :=
  ite_eq (and_eq (satAt_eq hi) fun _ => endsClassHeader_eq (Nat.le_of_lt hi)) (fun _ => rfl)
    fun _ => rfl

/-- The twin of `implementsAt`. -/
def implementsAt (b : Bytes) (i : Nat) : Checked (Option Match) := do
  if ← and (satAt b i Byte.isBlank) (keywordAt b (i + 1) "implements") then
    let brace ← findStop b .type (fun k => satAt b k (·.among ['{', ';'])) (i + 1)
    if ← and (.ok (b.isAt brace '{')) (endsClassHeader b brace) then
      return some ⟨.classMembers, ⟨i, brace + 1⟩⟩
    else return none
  else return none

/-- The clause of a class is looked for at a byte of the text, and the search for its bracket reads
what is there. -/
theorem implementsAt_eq (hi : i < b.size) :
    implementsAt b i = .ok (TypeErasure.implementsAt b i) :=
  ite_eq (and_eq (satAt_eq hi) fun _ => keywordAt_eq (by decide) b (i + 1))
    (fun _ => bind_eq (findStop_eq fun _ _ hk => satAt_eq hk)
      (ite_eq (and_eq rfl fun _ => endsClassHeader_eq (findStop_le _ _ _ _)) (fun _ => rfl)
        fun _ => rfl))
    fun _ => rfl

/-- The twin of `classMembersAt`. -/
def classMembersAt (b : Bytes) (i : Nat) : Checked (Option Match) := do
  let _ ← b.read i
  orElse (orElse (abstractAt b i) (classBraceAt b i)) (implementsAt b i)

/-- **A class is looked for at a byte of the text.** -/
theorem classMembersAt_eq (hi : i < b.size) :
    classMembersAt b i = .ok (TypeErasure.classMembersAt b i) :=
  bind_eq (read_eq hi) (orElse_eq (orElse_eq (abstractAt_eq b i) fun _ => classBraceAt_eq hi)
    fun _ => implementsAt_eq hi)

/-! ### Members -/

/-- The twin of `modifiersAt`, which cuts out the word that can be a modifier. -/
def modifiersAt (b : Bytes) (k : Nat) : Checked Modifiers :=
  match _h : modifierStop b k with
  | none => return .named [] k
  | some next => do
    let word ← b.cut k (nameStop b k)
    if ghostModifiers.any fun w => Bytes.ofString w == word then return .ghost
    else if typeModifiers.any fun w => Bytes.ofString w == word then
      return (← modifiersAt b next).cons (.erase b k next)
    else if fieldModifiers.any fun w => Bytes.ofString w == word then
      return (← modifiersAt b next).cons (.keep b k next)
    else return .foreign [] k
termination_by b.size - k
decreasing_by
  all_goals
    have := lt_of_modifierStop _h
    omega

/-- A word is cut out of a text between characters. Both of its ends are seams, and in a text these
are boundaries of characters. -/
private theorem cut_nameStop (hb : b.IsText) (hk : Seam b k) :
    b.cut k (nameStop b k) = .ok (b.slice k (nameStop b k)) :=
  cut_eq (hk.boundary hb) (hk.nameStop.boundary hb) (le_nameStop b k)

/-- One modifier, or a word that is none. The definition carries the proof that the modifiers get
fewer; here it is left out. -/
private theorem modifiersAt_of_modifierStop {next : Nat} (h : modifierStop b k = some next) :
    modifiersAt b k = do
      let word ← b.cut k (nameStop b k)
      if ghostModifiers.any fun w => Bytes.ofString w == word then return .ghost
      else if typeModifiers.any fun w => Bytes.ofString w == word then
        return (← modifiersAt b next).cons (.erase b k next)
      else if fieldModifiers.any fun w => Bytes.ofString w == word then
        return (← modifiersAt b next).cons (.keep b k next)
      else return .foreign [] k := by
  rw [modifiersAt]
  split
  · rename_i hnone
    simp [hnone] at h
  · rename_i next' hnext
    obtain rfl : next = next' := Option.some.inj (h.symm.trans hnext)
    rfl

/-- **The modifiers of a member are cut out of the text between characters.** The induction follows
the reading. Each modifier ends at a seam, where the next word may be cut out. -/
theorem modifiersAt_eq (hb : b.IsText) (hk : Seam b k) :
    modifiersAt b k = .ok (TypeErasure.modifiersAt b k) := by
  fun_induction TypeErasure.modifiersAt b k with
  | case1 k hnone =>
    -- no modifier stands here
    rw [modifiersAt]
    split
    · rfl
    · rename_i hnext
      simp [hnone] at hnext
  -- a word is cut out between characters, whichever list it is then looked up in
  | case2 k next hnext hghost =>
    rw [modifiersAt_of_modifierStop hnext]
    exact bind_eq (cut_nameStop hb hk) (if_pos hghost)
  | case3 k next hnext hghost htype ih =>
    -- a modifier that only types need, and those behind it
    rw [modifiersAt_of_modifierStop hnext]
    refine bind_eq (cut_nameStop hb hk) ((if_neg hghost).trans ((if_pos htype).trans ?_))
    exact bind_eq (ih (modifierStop_spec hnext).2) rfl
  | case4 k next hnext hghost htype hfield ih =>
    -- a modifier that stays, and those behind it
    rw [modifiersAt_of_modifierStop hnext]
    refine bind_eq (cut_nameStop hb hk)
      ((if_neg hghost).trans ((if_neg htype).trans ((if_pos hfield).trans ?_)))
    exact bind_eq (ih (modifierStop_spec hnext).2) rfl
  | case5 k next hnext hghost htype hfield =>
    -- another word
    rw [modifiersAt_of_modifierStop hnext]
    exact bind_eq (cut_nameStop hb hk)
      ((if_neg hghost).trans ((if_neg htype).trans (if_neg hfield)))

/-- The twin of `memberNameStop`, which cuts out the name. -/
def memberNameStop (b : Bytes) (k : Nat) : Checked (Option Nat) := do
  if ← satAt b k (·.is '#') then
    let stop := nameStop b (k + 1)
    if k + 1 < stop then
      let _ ← b.cut k stop
      return some stop
    else return none
  else if ← satAt b k Byte.isQuote then
    andThen (literalAt b k) fun l => do
      let _ ← b.cut k l.span.stop
      return some l.span.stop
  else if ← satAt b k (·.is '[') then
    let close ← findClose b .value (k + 1)
    if b.isAt close ']' then
      let _ ← b.cut k (close + 1)
      return some (close + 1)
    else return none
  else
    let stop := nameStop b k
    if k < stop then
      let name ← b.cut k stop
      if ["constructor"].any fun w => Bytes.ofString w == name then return none
      else return some stop
    else return none

/-- **The name of a member is cut out of the text between characters.** One case for each of the
four shapes of a name, and each ends at a seam. -/
theorem memberNameStop_eq (hb : b.IsText) (hk : Seam b k) (hlt : k < b.size) :
    memberNameStop b k = .ok (TypeErasure.memberNameStop b k) := by
  have hcut {stop : Nat} (hseam : Seam b stop) (hle : k ≤ stop) :
      b.cut k stop = .ok (b.slice k stop) := cut_eq (hk.boundary hb) (hseam.boundary hb) hle
  refine ite_eq (satAt_eq hlt) (fun hhash => ?_) fun _ => ite_eq (satAt_eq hlt) (fun _ => ?_)
    fun _ => ite_eq (satAt_eq hlt) (fun _ => ?_) fun _ => ?_
  · -- a private name
    have hseam : Seam b (nameStop b (k + 1)) := (Seam.succ_of_isAt hhash rfl).nameStop
    dsimp only
    split
    · exact bind_eq (hcut hseam (by omega)) rfl
    · rfl
  · -- a quoted name
    refine (andThen_eq (literalAt_eq b k) fun l hl =>
      bind_eq (hcut (.of_literalAt hl) ?_) rfl).trans
      ?_
    · exact Nat.le_of_lt (lt_stop_of_literalAt hl)
    · cases TypeErasure.literalAt b k <;> rfl
  · -- a computed name
    refine bind_eq (findClose_eq b .value (k + 1)) ?_
    unfold computedNameStop
    dsimp only
    split
    · rename_i hclose
      have hle : k + 1 ≤ TypeErasure.findClose b .value (k + 1) := le_findStop hlt
      exact bind_eq (hcut (.succ_of_isAt hclose rfl) (by omega)) rfl
    · rfl
  · -- a plain name
    dsimp only
    by_cases hname : k < nameStop b k
    · rw [if_pos hname, decide_eq_true hname]
      refine bind_eq (cut_nameStop hb hk) ?_
      unfold wordAt
      cases ["constructor"].any fun w => Bytes.ofString w == b.slice k (nameStop b k) <;> rfl
    · rw [if_neg hname, decide_eq_false hname]
      rfl

/-- The twin of `ghostStop`. -/
def ghostStop (b : Bytes) (start : Nat) : Checked Nat := do
  statementStop b start
    (← findStop b .type (fun k => or (satAt b k (·.is ';')) (endsLine b start k)) start)

/-- The end of a member that exists only for types is found by a search that reads what is there. -/
theorem ghostStop_eq (b : Bytes) (start : Nat) :
    ghostStop b start = .ok (TypeErasure.ghostStop b start) :=
  bind_eq (findStop_eq fun _ hstart hk => or_eq (satAt_eq hk) fun _ => endsLine_eq hstart hk)
    (statementStop_eq (findStop_le _ _ _ _))

/-- The twin of `fieldTypeStop`. -/
def fieldTypeStop (b : Bytes) (start : Nat) : Checked Nat :=
  findStop b .type
    (fun k => or (or (satAt b k (·.is ';')) (isAssign b k)) (endsLine b start k)) start

/-- The same for the end of a field's type. -/
theorem fieldTypeStop_eq (b : Bytes) (start : Nat) :
    fieldTypeStop b start = .ok (TypeErasure.fieldTypeStop b start) :=
  findStop_eq fun _ hstart hk => or_eq (or_eq (satAt_eq hk) fun _ => isAssign_eq b _) fun _ =>
    endsLine_eq hstart hk

/-- The twin of `initializerStop`. -/
def initializerStop (b : Bytes) (start : Nat) : Checked Nat := do
  trimEnd b start
    (← findStop b .value (fun k => or (satAt b k (·.is ';')) (endsLine b start k)) start)

theorem initializerStop_eq (b : Bytes) (start : Nat) :
    initializerStop b start = .ok (TypeErasure.initializerStop b start) :=
  bind_eq (findStop_eq fun _ hstart hk => or_eq (satAt_eq hk) fun _ => endsLine_eq hstart hk)
    (trimEnd_eq (findStop_le _ _ _ _))

/-- The twin of `fieldType`. -/
def fieldType (b : Bytes) (name after colon : Nat) : Checked (List Segment × Nat) := do
  if b.isAt colon ':' then
    let start := if isMarker b after then after else colon
    let stop ← trimEnd b start (← fieldTypeStop b (colon + 1))
    return ([.keep b name start, .erase b start stop], stop)
  else if isMarker b after then
    return ([.keep b name after, .erase b after (after + 1)], after + 1)
  else return ([], name)

/-- The type of a field is read safely. Only its end has to be searched for. -/
theorem fieldType_eq (b : Bytes) (name after colon : Nat) :
    fieldType b name after colon = .ok (TypeErasure.fieldType b name after colon) := by
  unfold fieldType TypeErasure.fieldType
  split
  · exact bind_eq (fieldTypeStop_eq b _) (bind_eq (trimEnd_eq (findStop_le _ _ _ _)) rfl)
  · split <;> rfl

/-- The twin of `fieldInitializer`. -/
def fieldInitializer (b : Bytes) (stop : Nat) : Checked (List Segment × Nat) := do
  let eq := skipTrivia b stop
  if ← isAssign b eq then
    let last ← initializerStop b (eq + 1)
    return ([.keep b stop (eq + 1), .nested (b.slice (eq + 1) last)], last)
  else return ([], stop)

theorem fieldInitializer_eq (b : Bytes) (stop : Nat) :
    fieldInitializer b stop = .ok (TypeErasure.fieldInitializer b stop) :=
  ite_eq (isAssign_eq b _) (fun _ => bind_eq (initializerStop_eq b _) rfl) fun _ => rfl

/-- The twin of `namedMember`. -/
def namedMember (b : Bytes) (modifiers : List Segment) (k : Nat) : Checked Member := do
  match ← memberNameStop b k with
  | none => return .other modifiers k
  | some name =>
    let after := skipTrivia b name
    let colon := skipMarker b after
    if b.satAt colon (·.among ['(', '<', '{']) then return .other modifiers k
    else
      let (type, typeStop) ← fieldType b name after colon
      let (initializer, stop) ← fieldInitializer b typeStop
      return .field (modifiers ++ [.keep b k name] ++ type ++ initializer) stop

/-- A member with a name is read safely, if the name starts at a seam within the text. -/
theorem namedMember_eq {modifiers : List Segment} (hb : b.IsText) (hk : Seam b k)
    (hlt : k < b.size) :
    namedMember b modifiers k = .ok (TypeErasure.namedMember b modifiers k) := by
  refine bind_eq (memberNameStop_eq hb hk hlt) ?_
  unfold TypeErasure.namedMember
  cases TypeErasure.memberNameStop b k with
  | none => rfl
  | some name =>
    dsimp only
    split
    · -- a method
      rfl
    · exact bind_eq (fieldType_eq b _ _ _) (bind_eq (fieldInitializer_eq b _) rfl)

/-- The twin of `ghostMember`. -/
def ghostMember (b : Bytes) (start : Nat) : Checked Member := do
  let stop ← ghostStop b start
  return .field [.erase b start stop] stop

/-- A member that exists only for types is read safely. -/
private theorem ghostMember_eq (b : Bytes) (start : Nat) :
    ghostMember b start = .ok (TypeErasure.ghostMember b start) :=
  bind_eq (ghostStop_eq b start) rfl

/-- The twin of `memberAt`. -/
def memberAt (b : Bytes) (start : Nat) : Checked Member := do
  match ← modifiersAt b start with
  | .ghost => ghostMember b start
  | .foreign modifiers k => return .other modifiers k
  | .named modifiers k =>
    if isIndexSignature b k then ghostMember b start else namedMember b modifiers k

/-- The name behind the modifiers of a member stands within the text. The induction goes over the
modifiers, each of which is followed by another byte. -/
private theorem lt_size_of_modifiersAt {segments : List Segment} {start : Nat} (hk : k < b.size)
    (h : TypeErasure.modifiersAt b k = .named segments start) : start < b.size := by
  fun_induction TypeErasure.modifiersAt b k generalizing segments with
  | case1 k => exact (Modifiers.named.inj h).2 ▸ hk
  | case2 => simp at h
  | case3 k next hnext _ _ ih =>
    obtain ⟨rest, hrest⟩ := Modifiers.exists_of_cons_eq_named h
    exact ih (lt_of_modifierStop hnext).2 hrest
  | case4 k next hnext _ _ _ ih =>
    obtain ⟨rest, hrest⟩ := Modifiers.exists_of_cons_eq_named h
    exact ih (lt_of_modifierStop hnext).2 hrest
  | case5 => simp at h

/-- **One member is read safely**, from a seam within the text. The name behind its modifiers starts
at a seam too (`modifiersAt_severed`). -/
theorem memberAt_eq (hb : b.IsText) (hk : Seam b k) (hlt : k < b.size) :
    memberAt b k = .ok (TypeErasure.memberAt b k) := by
  refine bind_eq (modifiersAt_eq hb hk) ?_
  have hsevered := modifiersAt_severed hk
  unfold TypeErasure.memberAt
  cases hmods : TypeErasure.modifiersAt b k with
  | ghost =>
    -- a member that exists only for types
    exact ghostMember_eq b k
  | foreign => rfl
  | named modifiers start =>
    rw [hmods] at hsevered
    dsimp only
    split
    · -- an index signature
      exact ghostMember_eq b k
    · exact namedMember_eq hb (Cuts.seam_right hsevered) (lt_size_of_modifiersAt hlt hmods)

/-- The twin of `walkMembers`. It fails if a field is empty. -/
def walkMembers (b : Bytes) (i : Nat) : Checked Walk :=
  let start := skipTrivia b i
  let gap := Segment.keep b i start
  if _hstart : start < b.size ∧ !b.isAt start '}' then do
    if b.isAt start ';' then
      return (← walkMembers b (start + 1)).after [gap, .keep b start (start + 1)]
    else
      match ← memberAt b start with
      | .other segments stop => return ⟨gap :: segments, stop, true⟩
      | .field segments stop =>
        if _h : start < stop then return (← walkMembers b stop).after (gap :: segments)
        else .error ⟨stop⟩
  else return ⟨[gap], start, false⟩
termination_by b.size - i
decreasing_by
  all_goals
    have := le_skipTrivia b i
    omega

/-- **The walk through a class body reads what is there.** The induction follows the walk. The twin
asks that each field takes up a byte, so that the walk makes progress, and it does. -/
private theorem walkMembers_eq (hb : b.IsText) (hi : Seam b i) :
    walkMembers b i = .ok (TypeErasure.walkMembers b i) := by
  fun_induction TypeErasure.walkMembers b i with
  | case1 i start gap hstart hsemi ih =>
    -- an empty member
    rw [walkMembers, dif_pos hstart, if_pos hsemi]
    exact bind_eq (ih (.succ_of_isAt hsemi rfl)) rfl
  | case2 i start gap hstart hsemi segments stop hmember =>
    -- a member that is no field ends the walk
    rw [walkMembers, dif_pos hstart, if_neg hsemi]
    have heq : memberAt b start = .ok (.other segments stop) :=
      hmember ▸ memberAt_eq hb hi.skipTrivia hstart.1
    exact bind_eq heq rfl
  | case3 i start gap hstart hsemi segments stop hmember ih =>
    rw [walkMembers, dif_pos hstart, if_neg hsemi]
    have heq : memberAt b start = .ok (.field segments stop) :=
      hmember ▸ memberAt_eq hb hi.skipTrivia hstart.1
    have hsevered : (TypeErasure.memberAt b start).Severed b start := memberAt_severed hi.skipTrivia
    rw [hmember] at hsevered
    refine bind_eq heq ?_
    dsimp only
    -- a field takes up at least one byte
    rw [dif_pos (lt_of_memberAt hmember)]
    exact bind_eq (ih (Cuts.seam_right hsevered)) rfl
  | case4 i start gap hstart =>
    -- the bracket that closes the body, or the end of the text
    rw [walkMembers, dif_neg hstart]
    rfl

/-- The twin of `clauseSegments`. -/
def clauseSegments (b : Bytes) (start brace : Nat) : Checked (List Segment) := do
  if start < brace then
    let stop ← trimEnd b start brace
    return [.erase b start stop, .keep b stop brace]
  else return []

/-- The clause of a class is trimmed within the text. -/
private theorem clauseSegments_eq {start : Nat} (hi : i ≤ b.size) :
    clauseSegments b start i = .ok (TypeErasure.clauseSegments b start i) := by
  unfold clauseSegments TypeErasure.clauseSegments
  split
  · exact bind_eq (trimEnd_eq hi) rfl
  · rfl

/-- The twin of `classMembersPatch`. -/
def classMembersPatch (b : Bytes) (m : Match) : Checked Patch := do
  if ← satAt b m.start (·.is 'a') then return .erase b m.start m.stop
  else
    let brace := m.stop - 1
    let clause ← clauseSegments b m.start brace
    let walk ← walkMembers b (brace + 1)
    return {
      stop := walk.stop
      segments := clause ++ .keep b brace (brace + 1) :: walk.segments
      notices := if walk.stopped then [.walkStopped walk.stop] else [] }

/-- **A class is patched safely**, from where it was found. -/
private theorem classMembersPatch_eq (hb : b.IsText) (hstart : m.start < b.size) (hpos : 0 < m.stop)
    (hstop : Seam b m.stop) :
    classMembersPatch b m = .ok (TypeErasure.classMembersPatch b m) := by
  refine ite_eq (satAt_eq hstart) (fun _ => rfl) fun _ => ?_
  refine bind_eq (clauseSegments_eq (Nat.le_trans (Nat.sub_le _ _) hstop.le_size)) ?_
  -- the body starts behind the bracket, which is the last byte that gave the construct away
  have hbrace : Seam b (m.stop - 1 + 1) := by rwa [Nat.sub_add_cancel hpos]
  exact bind_eq (walkMembers_eq hb hbrace) rfl

/-! ### All constructs -/

/-- The twin of `Construct.matchAt`. -/
def matchAt (b : Bytes) (cursor i : Nat) : Construct → Checked (Option Match)
  | .literal kind => do
    let _ ← b.read i
    return ((← literalAt b i).filter fun l => l.kind == kind).map fun l => ⟨.literal kind, l.span⟩
  | .ambient => declarationAt b i "declare" .ambient
  | .typeAlias => typeAliasAt b i
  | .interface => declarationAt b i "interface" .interface
  | .classMembers => classMembersAt b i
  | .typeArguments => typeArgumentsAt b i
  | .returnType => returnTypeAt b i
  | .annotated => annotationAt b cursor i
  | .cast => castAt b i

/-- **All bytes that tell whether a construct stands at an offset are there.** One case for each
construct, and each has a lemma of its own. -/
theorem matchAt_eq {cursor : Nat} (hi : i < b.size) (k : Construct) :
    matchAt b cursor i k = .ok (k.matchAt b cursor i) := by
  cases k with
  | literal kind => exact bind_eq (read_eq hi) (bind_eq (literalAt_eq b i) rfl)
  | ambient => exact declarationAt_eq .ambient (by decide) hi
  | typeAlias => exact typeAliasAt_eq hi
  | interface => exact declarationAt_eq .interface (by decide) hi
  | classMembers => exact classMembersAt_eq hi
  | typeArguments => exact typeArgumentsAt_eq hi
  | returnType => exact returnTypeAt_eq hi
  | annotated => exact annotationAt_eq hi
  | cast => exact castAt_eq hi

/-- The twin of `Rules.improve`. -/
def improve (r : Rules) (b : Bytes) (cursor : Nat) (best : Option Match) (k : Construct) :
    Checked (Option Match) := do
  if r.enables k then
    return (← firstIn (fun i => matchAt b cursor i k) cursor (best.elim b.size (·.start))).or best
  else return best

/-- The twin of `Rules.nextMatch`. -/
def nextMatch (r : Rules) (b : Bytes) (cursor : Nat) : Checked (Option Match) :=
  Construct.all.foldlM (improve r b cursor) none

/-- One construct is searched for within the text: up to the best match so far, or up to the end. -/
private theorem improve_eq {r : Rules} {cursor : Nat} {best : Option Match}
    (hlimit : searchLimit b best ≤ b.size) (k : Construct) :
    improve r b cursor best k = .ok (r.improve b cursor best k) := by
  unfold improve Rules.improve
  split
  · -- up to the best match so far, all offsets lie within the text
    exact bind_eq (firstIn_eq fun i _ hi => matchAt_eq (Nat.lt_of_lt_of_le hi hlimit) k) rfl
  · rfl

/-- A search among more constructs reads what is there, since the best match so far lies within the
text. By induction on the constructs, with the invariant that the search for the next match is
proved with. -/
private theorem foldlM_improve_eq {r : Rules} {cursor : Nat} {ks : List Construct}
    {best : Option Match} (h : r.Best b cursor ks best) (more : List Construct) :
    more.foldlM (improve r b cursor) best = .ok (more.foldl (r.improve b cursor) best) := by
  induction more generalizing ks best with
  | nil => rfl
  | cons k more ih =>
    rw [List.foldlM_cons]
    exact bind_eq (improve_eq h.limit_le k) (ih (h.improve k))

/-- **All bytes that the search for the next construct reads are there.** Before the first construct
nothing has been found, and the invariant holds. -/
theorem nextMatch_eq (r : Rules) (b : Bytes) (cursor : Nat) :
    nextMatch r b cursor = .ok (r.nextMatch b cursor) := by
  have hnone : r.Best b cursor [] none :=
    ⟨fun m hm => by simp at hm, fun k hk => by simp at hk, Nat.le_refl _⟩
  exact foldlM_improve_eq hnone Construct.all

/-- The twin of `literalPatch`. -/
def literalPatch (b : Bytes) (m : Match) : Checked Patch := do
  return {
    stop := m.stop
    segments := [.keep b m.start m.stop]
    notices :=
      if (← literalAt b m.start).any fun l => !l.terminated then [.unterminated m.kind m.start]
      else [] }

/-- The twin of `patchOf`. -/
def patchOf (b : Bytes) (m : Match) : Checked Patch :=
  match m.kind with
  | .literal _ => literalPatch b m
  | .ambient => ambientPatch b m
  | .typeAlias => typeAliasPatch b m
  | .interface => interfacePatch b m
  | .classMembers => classMembersPatch b m
  | .typeArguments => return typeArgumentsPatch b m
  | .returnType => returnTypePatch b m
  | .annotated => annotationPatch b m
  | .cast => castPatch b m

/-- A construct is given away by at least one byte. One case for each of the three places where a
class is recognised. -/
private theorem stop_pos_of_classMembersAt (h : TypeErasure.classMembersAt b i = some m) :
    0 < m.stop := by
  unfold TypeErasure.classMembersAt at h
  rcases Option.or_eq_some_iff.mp h with h | ⟨-, h⟩
  · rcases Option.or_eq_some_iff.mp h with h | ⟨-, h⟩
    · -- the keyword is eight letters long
      unfold TypeErasure.abstractAt at h
      dsimp only at h
      rw [Option.ite_none_right_eq_some] at h
      obtain rfl := Option.some.inj h.2
      have : i + 8 ≤ b.skipBlanks (i + 8) := b.le_skipWhile _ _
      show 0 < b.skipBlanks (i + 8)
      omega
    · unfold TypeErasure.classBraceAt at h
      rw [Option.ite_none_right_eq_some] at h
      obtain rfl := Option.some.inj h.2
      exact Nat.succ_pos i
  · unfold TypeErasure.implementsAt at h
    rw [Option.ite_none_right_eq_some] at h
    have h := h.2
    dsimp only at h
    rw [Option.ite_none_right_eq_some] at h
    obtain rfl := Option.some.inj h.2
    exact Nat.succ_pos _

/-- **All bytes that the patch of a construct reads are there**, and words are cut out of the text
between characters. One case for each construct. That of a class needs where the construct was
found, and that of the others needs no more than that it lies within the text. -/
theorem patchOf_eq (hb : b.IsText) {r : Rules} {cursor : Nat} (h : r.nextMatch b cursor = some m) :
    patchOf b m = .ok (TypeErasure.patchOf b m) := by
  obtain ⟨k, i, -, hi, hsize, hat⟩ := (r.nextMatch_best b cursor).found m h
  have hstart : m.start < b.size := r.grammar_lawful.lt_size h
  have hstop : Seam b m.stop := (Rules.severs h).stop
  unfold patchOf TypeErasure.patchOf
  cases hkind : m.kind with
  | literal => exact bind_eq (literalAt_eq b m.start) rfl
  | ambient => exact ambientPatch_eq b m
  | typeAlias => exact typeAliasPatch_eq b m
  | interface => exact interfacePatch_eq b m
  | classMembers =>
    obtain rfl : k = .classMembers := (kind_of_matchAt hat).symm.trans hkind
    exact classMembersPatch_eq hb hstart (stop_pos_of_classMembersAt hat) hstop
  | typeArguments => rfl
  | returnType => exact returnTypePatch_eq (Nat.le_of_lt hstart)
  | annotated => exact annotationPatch_eq hstop.le_size
  | cast => exact castPatch_eq b m

end Checked

end TypeErasure
