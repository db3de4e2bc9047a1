import TypeErasure.Literal

/-!
# Trivia: whitespace and comments

`skipTrivia` runs forward over whitespace and comments. `scanBack` runs backward over code and jumps
over block comments: it recognises a comment by its closing `*/` and resumes before the nearest
`/*`. The backward searches of the eraser are instances of it: `lastCode` finds the nearest byte of
code, `enclosingOpen` the bracket that a place is in.
-/

namespace TypeErasure

/-! ### Forward -/

/-- The first offset at or after `i` that is in neither whitespace nor a comment. -/
def skipTrivia (b : Bytes) (i : Nat) : Nat :=
  match _h : literalAt b (b.skipSpace i) with
  | none => b.skipSpace i
  | some l => if l.kind.isComment then skipTrivia b l.span.stop else b.skipSpace i
termination_by b.size - i
decreasing_by
  have := bounds_of_literalAt _h
  have : i ≤ b.skipSpace i := b.le_skipWhile _ i
  omega

/-- Skipping whitespace and comments never goes back. The induction follows the comments that are
skipped, each of which is not empty. -/
theorem le_skipTrivia (b : Bytes) (i : Nat) : i ≤ skipTrivia b i := by
  have hspace (i : Nat) : i ≤ b.skipSpace i := b.le_skipWhile _ i
  fun_induction skipTrivia b i with
  | case1 => exact hspace _
  | case2 i l h _ ih =>
    have := lt_stop_of_literalAt h
    have := hspace i
    omega
  | case3 => exact hspace _

/-! ### Backward -/

/-- The byte at offset `k` is the last of a block comment, as far as its two last bytes tell. -/
def closesComment (b : Bytes) (k : Nat) : Bool :=
  b.isAt k '/' && b.isBefore k '*'

/-- The start of the block comment whose closing `*` stands at offset `star`: the nearest `/*` that
starts before it. -/
def commentStart (b : Bytes) (star : Nat) : Option Nat :=
  lastBelow (fun p => b.isAt p '/' && b.isAt (p + 1) '*') star

/-- One step of a backward scan: go on in a new state, or halt with an answer. -/
inductive Visit (σ α : Type) where
  | go (state : σ)
  | halt (answer : α)

/-- Visits the bytes of code before offset `k`, from right to left and without block comments, until
a visit halts. There is no answer if no visit halts, or if a comment has no start. -/
def scanBack {σ α : Type} (b : Bytes) (visit : σ → Nat → Visit σ α) (state : σ) (k : Nat) :
    Option α :=
  match k with
  | 0 => none
  | k + 1 =>
    if closesComment b k then
      match _h : commentStart b (k - 1) with
      | none => none
      | some start => scanBack b visit state start
    else
      match visit state k with
      | .halt answer => some answer
      | .go state => scanBack b visit state k
termination_by k
decreasing_by
  · have := lastBelow_lt _h
    omega
  · omega

/-- An answer of a backward scan is the answer of a visit before its start. The induction follows
the scan, which moves to an earlier offset at each step, over a comment or over a byte. -/
theorem exists_of_scanBack_eq_some {σ α : Type} {b : Bytes} {visit : σ → Nat → Visit σ α}
    {state : σ} {k : Nat} {a : α} (h : scanBack b visit state k = some a) :
    ∃ s j, j < k ∧ visit s j = .halt a := by
  fun_induction scanBack b visit state k with
  | case1 => simp at h
  | case2 => simp at h
  | case3 state k _ start hstart ih =>
    obtain ⟨s, j, hj, hv⟩ := ih h
    have := lastBelow_lt hstart
    exact ⟨s, j, by omega, hv⟩
  | case4 state k _ answer hv =>
    obtain rfl := Option.some.inj h
    exact ⟨state, k, by omega, hv⟩
  | case5 state k _ state' hv ih =>
    obtain ⟨s, j, hj, hv'⟩ := ih h
    exact ⟨s, j, by omega, hv'⟩

/-- The nearest offset before `i` that is in neither whitespace nor a block comment. -/
def lastCode (b : Bytes) (i : Nat) : Option Nat :=
  scanBack b (fun (_ : Unit) k => if b.satAt k Byte.isSpace then .go () else .halt k) () i

/-- The nearest code before an offset lies before it. -/
theorem lastCode_lt {b : Bytes} {i k : Nat} (h : lastCode b i = some k) : k < i := by
  obtain ⟨_, j, hj, hv⟩ := exists_of_scanBack_eq_some h
  split at hv
  · simp at hv
  · simp only [Visit.halt.injEq] at hv
    omega

/-! ### The enclosing bracket -/

/-- Counts brackets from right to left: `depth` groups have been entered by their closing bracket.
`outside` is what to do with a byte that is no bracket and lies in no such group, and `opened` what
to do with an opening bracket whose group holds the place that the scan started from.

The depth has no bound here. A counter of 32 bits with a sign agrees with it as long as fewer than
`2 ^ 31` groups are open at once. -/
def visitOutside {α : Type} (b : Bytes) (opened : Nat → α) (outside : Nat → Visit Nat α)
    (depth k : Nat) : Visit Nat α :=
  if b.satAt k Byte.isCloser then .go (depth + 1)
  else if b.satAt k Byte.isOpener then
    if depth = 0 then .halt (opened k) else .go (depth - 1)
  else if depth = 0 then outside k
  else .go depth

/-- The visit of the search for the enclosing bracket: a `;` outside of inner groups ends it without
an answer. -/
def visitEnclosing (b : Bytes) : Nat → Nat → Visit Nat (Option Nat) :=
  visitOutside b some fun k => if b.isAt k ';' then .halt none else .go 0

/-- The opening bracket of the group that offset `i` is in, searched for within the statement. -/
def enclosingOpen (b : Bytes) (i : Nat) : Option Nat :=
  (scanBack b (visitEnclosing b) 0 i).join

/-- The bracket that an offset is in opens before it. The visit that answers is looked at: of its
branches only the one at an opening bracket gives an offset, and that offset is its own. -/
theorem enclosingOpen_lt {b : Bytes} {i k : Nat} (h : enclosingOpen b i = some k) : k < i := by
  obtain ⟨depth, j, hj, hv⟩ := exists_of_scanBack_eq_some (Option.join_eq_some_iff.mp h)
  unfold visitEnclosing visitOutside at hv
  split at hv
  · simp at hv
  · split at hv
    · split at hv
      · simp only [Visit.halt.injEq, Option.some.injEq] at hv
        omega
      · simp at hv
    · split at hv
      · dsimp only at hv
        split at hv <;> simp at hv
      · simp at hv

end TypeErasure
