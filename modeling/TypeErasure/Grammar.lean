import TypeErasure.Rules
import TypeErasure.Construct.Statement
import TypeErasure.Construct.Annotated
import TypeErasure.Construct.Cast
import TypeErasure.Construct.TypeArguments
import TypeErasure.Construct.ReturnType
import TypeErasure.Class.Body

/-!
# The grammar of the eraser

A `Grammar` is what a run has to know about a language: the next construct of a text, and what
becomes of a construct. `Rules.grammar` is the grammar of typed source text under given rules: of
all constructs that the rules enable, the one that starts first is next, and of several that start
at the same offset the one of highest precedence.
-/

namespace TypeErasure

/-- What a run has to know about a language. -/
structure Grammar where
  /-- The next construct of a text at or after an offset. -/
  next : Bytes → Nat → Option Match
  /-- What becomes of a construct of a text. -/
  patch : Bytes → Match → Patch

/-! ### Recognition -/

/-- The construct that is given away at offset `i`, if it does not start before `cursor`. -/
def Construct.matchAt (b : Bytes) (cursor i : Nat) : Construct → Option Match
  | literal kind =>
    ((literalAt b i).filter fun l => l.kind == kind).map fun l => ⟨literal kind, l.span⟩
  | ambient => ambientAt b i
  | typeAlias => typeAliasAt b i
  | interface => interfaceAt b i
  | classMembers => classMembersAt b i
  | typeArguments => typeArgumentsAt b i
  | returnType => returnTypeAt b i
  | annotated => annotationAt b cursor i
  | cast => castAt b i

/-- The first construct of the given kind that is given away at an offset from `cursor` up to
`limit`. -/
def Construct.detect (b : Bytes) (cursor limit : Nat) (k : Construct) : Option Match :=
  firstIn (fun i => k.matchAt b cursor i) cursor limit

/-- The better of the best match so far and the first match of kind `k`. Only a match that starts
earlier is better, so the search ends where the best match starts. -/
def Rules.improve (r : Rules) (b : Bytes) (cursor : Nat) (best : Option Match) (k : Construct) :
    Option Match :=
  if r.enables k then
    (k.detect b cursor (best.elim b.size (·.start))).or best
  else best

/-- **The next construct** of a text at or after offset `cursor`. -/
def Rules.nextMatch (r : Rules) (b : Bytes) (cursor : Nat) : Option Match :=
  Construct.all.foldl (r.improve b cursor) none

/-! ### Patches -/

/-- A literal is copied. -/
def literalPatch (b : Bytes) (m : Match) : Patch :=
  { stop := m.stop
    segments := [.keep b m.start m.stop]
    notices :=
      if (literalAt b m.start).any fun l => !l.terminated then [.unterminated m.kind m.start]
      else [] }

/-- What becomes of a construct. -/
def patchOf (b : Bytes) (m : Match) : Patch :=
  match m.kind with
  | .literal _ => literalPatch b m
  | .ambient => ambientPatch b m
  | .typeAlias => typeAliasPatch b m
  | .interface => interfacePatch b m
  | .classMembers => classMembersPatch b m
  | .typeArguments => typeArgumentsPatch b m
  | .returnType => returnTypePatch b m
  | .annotated => annotationPatch b m
  | .cast => castPatch b m

/-- **The grammar of typed source text** under the given rules. -/
def Rules.grammar (r : Rules) : Grammar :=
  ⟨r.nextMatch, patchOf⟩

end TypeErasure
