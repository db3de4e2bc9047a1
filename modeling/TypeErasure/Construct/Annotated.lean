import TypeErasure.Delimiter
import TypeErasure.Patch

/-!
# Annotations of variables and parameters

A colon is an annotation if it follows a name or a destructuring pattern that is declared by `var`,
`let` or `const`, or that stands directly in a list in round brackets. All other colons, of object
literals, conditional expressions, labels and cases, are left alone. A `?` or `!` before the colon
belongs to the annotation.

The patch of an annotation goes on through the list that it stands in: as long as the next item is
an annotated name, its annotation is commented out too.
-/

namespace TypeErasure

/-- What is annotated. A line break can end the type of a variable, but not that of a parameter. -/
inductive Annotated where
  | variable
  | parameter
  deriving DecidableEq, Repr

/-- A colon stands at offset `i`, and none next to it. -/
def isColon (b : Bytes) (i : Nat) : Bool :=
  b.isAt i ':' && !b.isAt (i + 1) ':' && !b.isBefore i ':'

/-! ### Declarators -/

/-- Where to look for the word that declares the variables of a list, on the way back from one of
its commas. The last byte of a word decides for the whole word. -/
def visitDeclarator (b : Bytes) (k : Nat) : Visit Nat Bool :=
  if b.isAt k ';' then .halt false
  else if b.satAt k Byte.isNamePart && !b.satAt (k + 1) Byte.isNamePart then
    let start := b.runStart Byte.isNamePart (k + 1)
    if declarators.any fun w => Bytes.ofString w == b.slice start (k + 1) then
      .halt (!b.isBefore start '.')
    else .go 0
  else .go 0

/-- The comma at offset `comma` parts the variables of a `var`, `let` or `const` statement. -/
def inDeclaratorList (b : Bytes) (comma : Nat) : Bool :=
  (scanBack b (visitOutside b (fun _ => false) (visitDeclarator b)) 0 comma).getD false

/-! ### Recognition -/

/-- The start of the name or destructuring pattern whose last byte stands at offset `p`. -/
def patternStart (b : Bytes) (p : Nat) : Option Nat :=
  if b.satAt p (·.among ['}', ']']) then enclosingOpen b p
  else
    let start := nameStart b (p + 1)
    if start < p + 1 then some start else none

/-- What the pattern that starts at offset `start` declares, if anything. -/
def annotatedBy (b : Bytes) (start : Nat) : Option Annotated := do
  let before := if 3 ≤ start && b.hasAt (start - 3) "..." then start - 3 else start
  let prev ← b.lastInk before
  if b.isAt prev '(' then some .parameter
  else if b.isAt prev ',' then
    if (enclosingOpen b prev).any fun o => b.isAt o '(' then some .parameter
    else if inDeclaratorList b prev then some .variable
    else none
  else if wordBefore b (prev + 1) declarators then some .variable
  else none

/-- The annotation at the colon at offset `colon`: where it starts, at a marker or at the colon, and
what it annotates. -/
def annotationOf (b : Bytes) (colon : Nat) : Option (Nat × Annotated) := do
  let p ← b.lastInk colon
  let marked := b.satAt p (·.among ['?', '!'])
  let start := if marked then p else colon
  let last ← if marked then b.lastInk p else some p
  let pattern ← patternStart b last
  let annotated ← annotatedBy b pattern
  some (start, annotated)

/-- An annotation has its colon at offset `i` and does not start before `cursor`. -/
def annotationAt (b : Bytes) (cursor i : Nat) : Option Match :=
  if isColon b i then
    match annotationOf b i with
    | some (start, _) => if cursor ≤ start then some ⟨.annotated, ⟨start, i + 1⟩⟩ else none
    | none => none
  else none

/-! ### The patch -/

/-- The end of the annotated type that starts at offset `start`: a `,`, a `;`, an assignment, or the
line break after a variable. -/
def annotatedTypeStop (b : Bytes) (annotated : Annotated) (start : Nat) : Nat :=
  findStop b .type
    (fun i => b.satAt i (·.among [',', ';']) || isAssign b i ||
      (annotated == .variable && endsLine b start i))
    start

/-- Where the name of a list item starts that starts at or after offset `i`: behind the dots of a
rest parameter. -/
def itemName (b : Bytes) (i : Nat) : Nat :=
  if b.hasAt (b.skipSpace i) "..." then b.skipSpace i + 3 else b.skipSpace i

/-- The name of an item starts at or after the offset that is looked from. -/
theorem le_itemName (b : Bytes) (i : Nat) : i ≤ itemName b i := by
  have : i ≤ b.skipSpace i := b.le_skipWhile _ i
  unfold itemName
  split <;> omega

/-- Where the colon has to stand if the marker of an annotation can stand at offset `marker`. -/
def markerColon (b : Bytes) (marker : Nat) : Nat :=
  if b.isAt marker '?' then b.skipBlanks (marker + 1) else marker

/-- The colon of an annotation does not stand before its marker. -/
theorem le_markerColon (b : Bytes) (marker : Nat) : marker ≤ markerColon b marker := by
  have : marker + 1 ≤ b.skipBlanks (marker + 1) := b.le_skipWhile _ _
  unfold markerColon
  split <;> omega

/-- The marker and the colon of an annotated name that starts at or after offset `i`. They are the
same if there is no marker. -/
def nextAnnotated (b : Bytes) (i : Nat) : Option (Nat × Nat) :=
  let name := itemName b i
  let marker := b.skipBlanks (nameStop b name)
  let colon := markerColon b marker
  if name < nameStop b name && isColon b colon then some (marker, colon) else none

/-- The colon of the next annotated name stands at or after the offset that is looked from, and
within the text. The first follows the chain of scans that lead to the colon, the second from the
byte that is found there. -/
private theorem bounds_of_nextAnnotated {b : Bytes} {i marker colon : Nat}
    (h : nextAnnotated b i = some (marker, colon)) : i ≤ colon ∧ colon < b.size := by
  unfold nextAnnotated at h
  dsimp only at h
  split at h
  · rename_i hc
    simp only [Bool.and_eq_true, decide_eq_true_eq, isColon] at hc
    simp only [Option.some.injEq, Prod.mk.injEq] at h
    obtain ⟨rfl, rfl⟩ := h
    refine ⟨?_, Bytes.lt_size_of_isAt hc.2.1.1⟩
    calc i ≤ itemName b i := le_itemName b i
      _ ≤ nameStop b (itemName b i) := le_nameStop b _
      _ ≤ b.skipBlanks (nameStop b (itemName b i)) := b.le_skipWhile _ _
      _ ≤ markerColon b (b.skipBlanks (nameStop b (itemName b i))) := le_markerColon b _
  · simp at h

/-- One annotation of a list: it starts at `start`, its colon stands at `colon`, and the text before
it is copied from `copied` on. -/
structure AnnotatedItem where
  copied : Nat
  start : Nat
  colon : Nat
  deriving DecidableEq, Repr

namespace AnnotatedItem

/-- Where the type of the item is followed by something else. -/
def typeStop (item : AnnotatedItem) (b : Bytes) (annotated : Annotated) : Nat :=
  annotatedTypeStop b annotated (item.colon + 1)

/-- The end of the item. -/
def stop (item : AnnotatedItem) (b : Bytes) (annotated : Annotated) : Nat :=
  b.trimEnd item.start (item.typeStop b annotated)

/-- The text before the annotation is kept and the annotation is commented out. -/
def segments (item : AnnotatedItem) (b : Bytes) (annotated : Annotated) : List Segment :=
  [.keep b item.copied item.start, .erase b item.start (item.stop b annotated)]

/-- The item after this one, if a comma and another annotated name follow. -/
def next (item : AnnotatedItem) (b : Bytes) (annotated : Annotated) : Option AnnotatedItem :=
  let typeStop := item.typeStop b annotated
  if b.isAt typeStop ',' then
    (nextAnnotated b (typeStop + 1)).map fun (marker, colon) =>
      ⟨item.stop b annotated, marker, colon⟩
  else none

/-- The next item has its colon further on, and within the text. Between the two colons lie the type
of the item and a comma. The patch of a list ends because of this. -/
theorem colon_lt_next {item next : AnnotatedItem} {b : Bytes} {annotated : Annotated}
    (h : item.next b annotated = some next) : item.colon < next.colon ∧ next.colon < b.size := by
  unfold AnnotatedItem.next at h
  dsimp only at h
  split at h
  · rename_i hcomma
    obtain ⟨⟨marker, colon⟩, hnext, rfl⟩ := Option.map_eq_some_iff.mp h
    have hbounds := bounds_of_nextAnnotated hnext
    -- the type starts behind the colon, for otherwise no comma could follow it
    have hsize := Bytes.lt_size_of_isAt hcomma
    have htype : item.colon + 1 ≤ item.typeStop b annotated := by
      by_cases hcolon : item.colon + 1 ≤ b.size
      · exact le_findStop hcolon
      · have : item.typeStop b annotated = b.size := by
          rw [typeStop, annotatedTypeStop, findStop, findStopFrom, if_neg (by omega)]
        omega
    dsimp only
    omega
  · simp at h

end AnnotatedItem

/-- The patch of an item and of the items that follow it in its list. -/
def annotatedItems (b : Bytes) (annotated : Annotated) (item : AnnotatedItem) : Patch :=
  match _h : item.next b annotated with
  | none => { stop := item.stop b annotated, segments := item.segments b annotated }
  | some next =>
    let rest := annotatedItems b annotated next
    { rest with segments := item.segments b annotated ++ rest.segments }
termination_by b.size - item.colon
decreasing_by
  have := AnnotatedItem.colon_lt_next _h
  omega

/-- **Annotations are commented out**, item by item through the list that the first one stands
in. -/
def annotationPatch (b : Bytes) (m : Match) : Patch :=
  let colon := m.stop - 1
  let annotated := match annotationOf b colon with
    | some (_, annotated) => annotated
    | none => .parameter
  annotatedItems b annotated ⟨m.start, m.start, colon⟩

end TypeErasure
