import TypeErasure.Delimiter
import TypeErasure.Patch

/-!
# Class members

`memberAt` reads one member of a class body. A field is read whole: its modifiers, name, marker,
type and initializer. Of these the modifiers that only types know, the marker and the type are
commented out, and the initializer is left to a run of its own. An index signature and a member
under `declare` or `abstract` have no counterpart at run time and are commented out whole. All other
members, which are constructors, methods and accessors, are not for the walk to read.
-/

namespace TypeErasure

/-- A member of a class body. -/
inductive Member where
  /-- A field, or a member without counterpart at run time: its segments and its end. -/
  | field (segments : List Segment) (stop : Nat)
  /-- Another member: the segments of its modifiers, and the offset after them. -/
  | other (segments : List Segment) (stop : Nat)
  deriving DecidableEq, Repr

/-! ### Modifiers -/

/-- The modifiers that only types know. -/
def typeModifiers : List String :=
  ["public", "private", "protected", "readonly", "override"]

/-- The modifiers that mean something at run time. -/
def fieldModifiers : List String :=
  ["static", "accessor"]

/-- The modifiers of members without counterpart at run time. -/
def ghostModifiers : List String :=
  ["declare", "abstract"]

/-- How the modifiers of a member end. -/
inductive Modifiers where
  /-- The name of the member follows at offset `start`. -/
  | named (segments : List Segment) (start : Nat)
  /-- A word follows that is no modifier of a field. -/
  | foreign (segments : List Segment) (start : Nat)
  /-- The member has no counterpart at run time. -/
  | ghost
  deriving DecidableEq, Repr

/-- The modifiers with one more segment in front. -/
def Modifiers.cons (s : Segment) : Modifiers → Modifiers
  | named segments start => named (s :: segments) start
  | foreign segments start => foreign (s :: segments) start
  | ghost => ghost

/-- A byte that can start the rest of a member after a modifier. -/
def startsMemberName (c : Byte) : Bool :=
  c.isNameStart || c.among ['#', '[', '\'', '"', '*']

/-- The offset after the word at offset `k` and the blanks behind it, if the word is followed by
another name in its line, as a modifier is. -/
def modifierStop (b : Bytes) (k : Nat) : Option Nat :=
  let stop := nameStop b k
  let next := b.skipBlanks stop
  if k < stop && stop < next && b.satAt next startsMemberName then some next else none

/-- What follows a modifier lies behind it and within the text. The word itself and the blanks
behind it are both asked for, and a byte has to follow them. -/
theorem lt_of_modifierStop {b : Bytes} {k next : Nat} (h : modifierStop b k = some next) :
    k < next ∧ next < b.size := by
  unfold modifierStop at h
  dsimp only at h
  split at h
  · rename_i hc
    simp only [Bool.and_eq_true, decide_eq_true_eq] at hc
    obtain rfl := Option.some.inj h
    exact ⟨by omega, Bytes.lt_size_of_satAt hc.2⟩
  · simp at h

/-- The word at offset `k` is one of `words`. -/
def wordAt (b : Bytes) (k : Nat) (words : List String) : Bool :=
  words.any fun w => Bytes.ofString w == b.slice k (nameStop b k)

/-- The modifiers of the member from offset `k` on. -/
def modifiersAt (b : Bytes) (k : Nat) : Modifiers :=
  match _h : modifierStop b k with
  | none => .named [] k
  | some next =>
    if wordAt b k ghostModifiers then .ghost
    else if wordAt b k typeModifiers then (modifiersAt b next).cons (.erase b k next)
    else if wordAt b k fieldModifiers then (modifiersAt b next).cons (.keep b k next)
    else .foreign [] k
termination_by b.size - k
decreasing_by
  all_goals
    have := lt_of_modifierStop _h
    omega

/-! ### Names -/

/-- A `[name: Key]: Value` starts at offset `i`. -/
def isIndexSignature (b : Bytes) (i : Nat) : Bool :=
  let name := b.skipSpace (i + 1)
  let stop := nameStop b name
  b.isAt i '[' && name < stop && b.isAt (b.skipSpace stop) ':'

/-- The end of a computed name that starts at offset `k`. -/
def computedNameStop (b : Bytes) (k : Nat) : Option Nat :=
  let close := findClose b .value (k + 1)
  if b.isAt close ']' then some (close + 1) else none

/-- The end of the member name that starts at offset `k`: a private, quoted, computed or plain
name. -/
def memberNameStop (b : Bytes) (k : Nat) : Option Nat :=
  if b.isAt k '#' then
    let stop := nameStop b (k + 1)
    if k + 1 < stop then some stop else none
  else if b.satAt k Byte.isQuote then (literalAt b k).map (·.span.stop)
  else if b.isAt k '[' then computedNameStop b k
  else
    let stop := nameStop b k
    if k < stop && !wordAt b k ["constructor"] then some stop else none

/-! ### Fields -/

/-- A member without counterpart at run time is commented out through its `;` or its last line. -/
def ghostStop (b : Bytes) (start : Nat) : Nat :=
  statementStop b start <|
    findStop b .type (fun i => b.isAt i ';' || endsLine b start i) start

/-- The marker of a field: a `?` or `!` that does not start a longer sign. -/
def isMarker (b : Bytes) (i : Nat) : Bool :=
  b.satAt i (·.among ['?', '!']) && !b.isAt (i + 1) '='

/-- Where code goes on behind the marker that can stand at offset `i`. -/
def skipMarker (b : Bytes) (i : Nat) : Nat :=
  if isMarker b i then skipTrivia b (i + 1) else i

theorem le_skipMarker (b : Bytes) (i : Nat) : i ≤ skipMarker b i := by
  have := le_skipTrivia b (i + 1)
  unfold skipMarker
  split <;> omega

/-- The end of the type of a field that starts at offset `start`. -/
def fieldTypeStop (b : Bytes) (start : Nat) : Nat :=
  findStop b .type (fun i => b.isAt i ';' || isAssign b i || endsLine b start i) start

/-- The end of the initializer of a field that starts at offset `start`. -/
def initializerStop (b : Bytes) (start : Nat) : Nat :=
  b.trimEnd start <|
    findStop b .value (fun i => b.isAt i ';' || endsLine b start i) start

/-- The marker and type of a field whose name ends at offset `name`: their segments and their end.
`after` is where code goes on behind the name, and `colon` where it goes on behind the marker. -/
def fieldType (b : Bytes) (name after colon : Nat) : List Segment × Nat :=
  if b.isAt colon ':' then
    let start := if isMarker b after then after else colon
    let stop := b.trimEnd start (fieldTypeStop b (colon + 1))
    ([.keep b name start, .erase b start stop], stop)
  else if isMarker b after then
    ([.keep b name after, .erase b after (after + 1)], after + 1)
  else ([], name)

/-- The initializer of a field whose type ends at offset `stop`: its segments and its end. -/
def fieldInitializer (b : Bytes) (stop : Nat) : List Segment × Nat :=
  let eq := skipTrivia b stop
  if isAssign b eq then
    let last := initializerStop b (eq + 1)
    ([.keep b stop (eq + 1), .nested (b.slice (eq + 1) last)], last)
  else ([], stop)

/-- The rest of a member from its name at offset `k` on, behind the given modifiers. -/
def namedMember (b : Bytes) (modifiers : List Segment) (k : Nat) : Member :=
  match memberNameStop b k with
  | none => .other modifiers k
  | some name =>
    let after := skipTrivia b name
    let colon := skipMarker b after
    if b.satAt colon (·.among ['(', '<', '{']) then .other modifiers k
    else
      let (type, typeStop) := fieldType b name after colon
      let (initializer, stop) := fieldInitializer b typeStop
      .field (modifiers ++ [.keep b k name] ++ type ++ initializer) stop

/-- The member at offset `start` as a whole, without counterpart at run time. -/
def ghostMember (b : Bytes) (start : Nat) : Member :=
  .field [.erase b start (ghostStop b start)] (ghostStop b start)

/-- **The member of a class body at offset `start`.** -/
def memberAt (b : Bytes) (start : Nat) : Member :=
  match modifiersAt b start with
  | .ghost => ghostMember b start
  | .foreign modifiers k => .other modifiers k
  | .named modifiers k =>
    if isIndexSignature b k then ghostMember b start else namedMember b modifiers k

/-! ### A field is not empty -/

/-- The name of a member is not empty, whichever of the four forms it has. A plain or private name
is read only if it has a byte, a quoted name is a literal, and a computed name has its brackets. -/
theorem lt_of_memberNameStop {b : Bytes} {k name : Nat} (h : memberNameStop b k = some name) :
    k < name := by
  unfold memberNameStop at h
  split at h
  · -- a private name
    dsimp only at h
    split at h
    · simp only [Option.some.injEq] at h
      omega
    · simp at h
  · split at h
    · -- a quoted name
      obtain ⟨l, hl, rfl⟩ := Option.map_eq_some_iff.mp h
      exact lt_stop_of_literalAt hl
    · split at h
      · -- a computed name
        rename_i hopen
        unfold computedNameStop at h
        dsimp only at h
        split at h
        · simp only [Option.some.injEq] at h
          have := Bytes.lt_size_of_isAt hopen
          have : k + 1 ≤ findClose b .value (k + 1) := le_findStop (by omega)
          omega
        · simp at h
      · -- a plain name
        dsimp only at h
        split at h
        · rename_i hname
          simp only [Bool.and_eq_true, decide_eq_true_eq] at hname
          simp only [Option.some.injEq] at h
          omega
        · simp at h

/-- The type of a field does not end before the name of the field, even if there is no type. Both
ends that can occur are trimmed no further back than to the marker or the colon. -/
private theorem le_fieldType {b : Bytes} {name after colon : Nat} (h₁ : name ≤ after)
    (h₂ : after ≤ colon) : name ≤ (fieldType b name after colon).2 := by
  unfold fieldType
  split
  · -- with a type, that is, behind a colon
    rename_i hcolon
    have := Bytes.lt_size_of_isAt hcolon
    have : colon + 1 ≤ fieldTypeStop b (colon + 1) := le_findStop (by omega)
    dsimp only
    split
    · have : after ≤ b.trimEnd after (fieldTypeStop b (colon + 1)) :=
        Bytes.le_trimEnd (by omega)
      omega
    · have : colon ≤ b.trimEnd colon (fieldTypeStop b (colon + 1)) :=
        Bytes.le_trimEnd (by omega)
      omega
  · split
    · -- a marker without a type
      exact Nat.le_succ_of_le h₁
    · exact Nat.le_refl _

theorem le_initializerStop {b : Bytes} {start : Nat} (h : start ≤ b.size) :
    start ≤ initializerStop b start :=
  Bytes.le_trimEnd (le_findStop h)

/-- Reading the initializer does not move back, also if there is none. If there is one, its sign
lies behind the type and the initializer itself behind the sign. -/
private theorem le_fieldInitializer (b : Bytes) (stop : Nat) :
    stop ≤ (fieldInitializer b stop).2 := by
  have := le_skipTrivia b stop
  unfold fieldInitializer
  dsimp only
  split
  · rename_i heq
    have := Bytes.lt_size_of_isAt (Bool.and_eq_true_iff.mp heq).1
    have : skipTrivia b stop + 1 ≤ initializerStop b (skipTrivia b stop + 1) :=
      le_initializerStop (by omega)
    dsimp only
    omega
  · exact Nat.le_refl _

/-- A field that is read from its name on is not empty. The chain goes from the name, which has a
byte, over the type to the initializer. -/
private theorem lt_of_namedMember {b : Bytes} {modifiers segments : List Segment} {k stop : Nat}
    (h : namedMember b modifiers k = .field segments stop) : k < stop := by
  unfold namedMember at h
  split at h
  · simp at h
  · rename_i name hname
    have hlt := lt_of_memberNameStop hname
    have hafter := le_skipTrivia b name
    dsimp only at h
    split at h
    · simp at h
    · simp only [Member.field.injEq] at h
      obtain ⟨-, rfl⟩ := h
      calc k < name := hlt
        _ ≤ _ := le_fieldType hafter (le_skipMarker b _)
        _ ≤ _ := le_fieldInitializer b _

/-- A byte with which a member without counterpart at run time starts: that of a modifier or of an
index signature. -/
def startsGhost (c : Byte) : Bool :=
  c.isNameStart || c.is '['

/-- Such a byte is not whitespace and ends nothing. The classes are unfolded to numbers, and the
rest is arithmetic. -/
private theorem startsGhost_spec {c : Byte} (h : startsGhost c = true) :
    c.isSpace = false ∧ c.isCloser = false ∧ c.is ';' = false ∧ c.is '\n' = false ∧
      c.is '>' = false := by
  simp only [startsGhost, Byte.isNameStart, Byte.isLetter, Byte.isSpace, Byte.isCloser, Byte.among,
    Byte.between, Byte.is, List.any_cons, List.any_nil, Bool.or_eq_true, Bool.and_eq_true,
    decide_eq_true_eq, beq_iff_eq, Bool.or_false, Bool.or_eq_false_iff, beq_eq_false_iff_ne,
    Char.reduceToNat] at h ⊢
  omega

/-- A member without counterpart at run time is not empty if it starts as such a member does: the
search for its end does not stop at its first byte, and trimming does not remove it. -/
theorem lt_ghostStop {b : Bytes} {start : Nat} (h : b.satAt start startsGhost = true) :
    start < ghostStop b start := by
  have hsize := Bytes.lt_size_of_satAt h
  simp only [Bytes.satAt, Array.getElem?_eq_getElem hsize, Option.any_some] at h
  obtain ⟨hspace, hcloser, hsemi, hbreak, hangle⟩ := startsGhost_spec h
  have hstop : start < findStop b .type (fun i => b.isAt i ';' || endsLine b start i) start := by
    -- the first byte neither ends the line nor closes a bracket, so the search moves on
    apply lt_findStop hsize
    · simp [endsLine, Bytes.isAt, Array.getElem?_eq_getElem hsize, hsemi, hbreak]
    · simp [closesAt, Bytes.satAt, Bytes.isAt, Array.getElem?_eq_getElem hsize, hcloser, hangle]
  unfold ghostStop statementStop
  split
  · omega
  · apply Bytes.lt_trimEnd hstop
    simp [Bytes.satAt, Array.getElem?_eq_getElem hsize, hspace]

/-- A modifier starts with a byte of a name, and hence with one that a ghost can start with. -/
theorem satAt_of_modifierStop {b : Bytes} {k next : Nat} (h : modifierStop b k = some next) :
    b.satAt k startsGhost = true := by
  have hname : k < nameStop b k := by
    unfold modifierStop at h
    dsimp only at h
    split at h
    · rename_i hc
      simp only [Bool.and_eq_true, decide_eq_true_eq] at hc
      exact hc.1.1
    · simp at h
  unfold nameStop at hname
  split at hname
  · rename_i hstart
    have hsize := Bytes.lt_size_of_satAt hstart
    simp only [Bytes.satAt, Array.getElem?_eq_getElem hsize, Option.any_some] at hstart ⊢
    simp [startsGhost, hstart]
  · omega

/-- Modifiers that end with a name after one more was put in front ended with it before. -/
theorem Modifiers.exists_of_cons_eq_named {s : Segment} {m : Modifiers} {segments : List Segment}
    {start : Nat} (h : m.cons s = .named segments start) : ∃ rest, m = .named rest start := by
  cases m with
  | named rest first =>
    simp only [Modifiers.cons, Modifiers.named.injEq] at h
    exact ⟨rest, by rw [h.2]⟩
  | foreign => simp [Modifiers.cons] at h
  | ghost => simp [Modifiers.cons] at h

/-- The name of a member stands behind its modifiers. The induction follows the list of modifiers,
each of which is not empty. -/
private theorem le_of_modifiersAt {b : Bytes} {k start : Nat} {segments : List Segment}
    (h : modifiersAt b k = .named segments start) : k ≤ start := by
  fun_induction modifiersAt b k generalizing segments with
  | case1 k =>
    -- the name ends the list
    simp only [Modifiers.named.injEq] at h
    omega
  | case2 => simp at h
  | case3 k next hnext _ _ ih =>
    obtain ⟨rest, hrest⟩ := Modifiers.exists_of_cons_eq_named h
    have := lt_of_modifierStop hnext
    have := ih hrest
    omega
  | case4 k next hnext _ _ _ ih =>
    obtain ⟨rest, hrest⟩ := Modifiers.exists_of_cons_eq_named h
    have := lt_of_modifierStop hnext
    have := ih hrest
    omega
  | case5 => simp at h

/-- A member without modifiers starts with its name, and any other with a modifier. For modifiers
are read only if a word with something behind it stands there. -/
theorem startsGhost_of_modifiersAt {b : Bytes} {k : Nat} (h : modifiersAt b k ≠ .named [] k) :
    b.satAt k startsGhost = true := by
  rw [modifiersAt] at h
  split at h
  · exact absurd rfl h
  · rename_i hnext
    exact satAt_of_modifierStop hnext

/-- A member whose name is an index signature starts with a modifier or with the signature. -/
theorem startsGhost_of_isIndexSignature {b : Bytes} {start k : Nat} {modifiers : List Segment}
    (hm : modifiersAt b start = .named modifiers k) (hindex : isIndexSignature b k = true) :
    b.satAt start startsGhost = true := by
  by_cases hk : modifiersAt b start = .named [] start
  · -- without modifiers the signature itself stands at the start
    obtain ⟨rfl, rfl⟩ : [] = modifiers ∧ start = k := by simpa [hk] using hm
    simp only [isIndexSignature, Bool.and_eq_true] at hindex
    have hsize := Bytes.lt_size_of_isAt hindex.1.1
    simp only [Bytes.isAt, Bytes.satAt, Array.getElem?_eq_getElem hsize,
      Option.any_some] at hindex ⊢
    simp [startsGhost, hindex.1.1]
  · exact startsGhost_of_modifiersAt hk

/-- **A field that is read is not empty**, so that the walk through a class body moves on. A field
is either commented out whole, and then `lt_ghostStop` applies since it starts like a ghost, or read
from its name on, which stands behind the modifiers. -/
theorem lt_of_memberAt {b : Bytes} {start stop : Nat} {segments : List Segment}
    (h : memberAt b start = .field segments stop) : start < stop := by
  have hghost (hs : b.satAt start startsGhost = true)
      (h : ghostMember b start = .field segments stop) : start < stop := by
    simp only [ghostMember, Member.field.injEq] at h
    exact h.2 ▸ lt_ghostStop hs
  unfold memberAt at h
  split at h
  · -- a modifier says that the member is a ghost
    rename_i hm
    exact hghost (startsGhost_of_modifiersAt (by simp [hm])) h
  · simp at h
  · rename_i modifiers k hm
    split at h
    · -- an index signature is a ghost whatever stands before it
      rename_i hindex
      exact hghost (startsGhost_of_isIndexSignature hm hindex) h
    · -- any other field is read from its name on, behind its modifiers
      exact Nat.lt_of_le_of_lt (le_of_modifiersAt hm) (lt_of_namedMember h)

end TypeErasure
