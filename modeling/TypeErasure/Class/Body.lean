import TypeErasure.Class.Header
import TypeErasure.Class.Member

/-!
# Class bodies

The fields at the head of a class body are read one after another, from the opening bracket to the
first member that is no field; what follows is left to the other constructs. An `implements` clause
before the bracket and an `abstract` before the keyword `class` are commented out too.
-/

namespace TypeErasure

/-! ### Recognition -/

/-- An `abstract` that belongs to a class stands at offset `i`. The match reaches to the keyword
`class`. -/
def abstractAt (b : Bytes) (i : Nat) : Option Match :=
  let next := b.skipBlanks (i + 8)
  if keywordAt b i "abstract" && i + 8 < next && keywordAt b next "class" then
    some ⟨.classMembers, ⟨i, next⟩⟩
  else none

/-- The bracket of a class body stands at offset `i`. -/
def classBraceAt (b : Bytes) (i : Nat) : Option Match :=
  if b.isAt i '{' && endsClassHeader b i then some ⟨.classMembers, ⟨i, i + 1⟩⟩ else none

/-- An `implements` clause starts with the blank at offset `i`. The match reaches through the
bracket of the class body. -/
def implementsAt (b : Bytes) (i : Nat) : Option Match :=
  if b.satAt i Byte.isBlank && keywordAt b (i + 1) "implements" then
    let brace := findStop b .type (fun k => b.satAt k (·.among ['{', ';'])) (i + 1)
    if b.isAt brace '{' && endsClassHeader b brace then some ⟨.classMembers, ⟨i, brace + 1⟩⟩
    else none
  else none

/-- A part of a class that is read as a whole starts at offset `i`. -/
def classMembersAt (b : Bytes) (i : Nat) : Option Match :=
  ((abstractAt b i).or (classBraceAt b i)).or (implementsAt b i)

/-! ### The walk through the fields -/

/-- The part of a class body that a walk has read: its segments, its end, and whether a member that
is no field stopped the walk there. -/
structure Walk where
  segments : List Segment
  stop : Nat
  stopped : Bool
  deriving DecidableEq, Repr

/-- The walk with more segments in front. -/
def Walk.after (w : Walk) (segments : List Segment) : Walk :=
  { w with segments := segments ++ w.segments }

/-- Reads fields from offset `i` on, up to the end of the class body, the end of the text, or a
member that is no field. -/
def walkMembers (b : Bytes) (i : Nat) : Walk :=
  let start := skipTrivia b i
  let gap := Segment.keep b i start
  if start < b.size ∧ !b.isAt start '}' then
    if b.isAt start ';' then
      (walkMembers b (start + 1)).after [gap, .keep b start (start + 1)]
    else
      match _h : memberAt b start with
      | .other segments stop => ⟨gap :: segments, stop, true⟩
      | .field segments stop => (walkMembers b stop).after (gap :: segments)
  else ⟨[gap], start, false⟩
termination_by b.size - i
decreasing_by
  · have := le_skipTrivia b i
    omega
  · have := le_skipTrivia b i
    have := lt_of_memberAt _h
    omega

/-! ### The patch -/

/-- The part of a class header that a match holds before the bracket at offset `brace`: the clause
is commented out, and the whitespace behind it is kept. -/
def clauseSegments (b : Bytes) (start brace : Nat) : List Segment :=
  if start < brace then
    let stop := b.trimEnd start brace
    [.erase b start stop, .keep b stop brace]
  else []

/-- **The fields of a class are patched one by one**, behind the clause that the match starts with.
An `abstract` is commented out alone. -/
def classMembersPatch (b : Bytes) (m : Match) : Patch :=
  if b.isAt m.start 'a' then .erase b m.start m.stop
  else
    let brace := m.stop - 1
    let walk := walkMembers b (brace + 1)
    { stop := walk.stop
      segments := clauseSegments b m.start brace ++ .keep b brace (brace + 1) :: walk.segments
      notices := if walk.stopped then [.walkStopped walk.stop] else [] }

end TypeErasure
