import TypeErasure.Delimiter

/-!
# Class headers

A curly bracket opens a class body if the code before it reads, from right to left, as the header of
a class: names, dots, commas and bracketed groups, back to the keyword `class`.
-/

namespace TypeErasure

/-- The `<` that matches the `>` at offset `k`, where `depth` inner lists have been entered by their
`>`. A `;` or a curly bracket ends the search. -/
def angleOpen (b : Bytes) (depth : Nat) : Nat → Option Nat
  | 0 => none
  | k + 1 =>
    if b.isAt k '>' && !b.isBefore k '=' then angleOpen b (depth + 1) k
    else if b.isAt k '<' then if depth = 0 then some k else angleOpen b (depth - 1) k
    else if b.satAt k (·.among [';', '{', '}']) then none
    else angleOpen b depth k

/-- The `<` that is found lies before the `>`. By induction on the offset with the depth left free,
as the search deepens and rises on its way. -/
private theorem angleOpen_lt {b : Bytes} {depth i k : Nat} (h : angleOpen b depth i = some k) :
    k < i := by
  induction i generalizing depth with
  | zero => simp [angleOpen] at h
  | succ n ih =>
    rw [angleOpen] at h
    split at h
    · -- the `>` of an inner list
      have := ih h
      omega
    · split at h
      · split at h
        · -- the `<` that is searched for
          simp only [Option.some.injEq] at h
          omega
        · -- the `<` of an inner list
          have := ih h
          omega
      · split at h
        · simp at h
        · have := ih h
          omega

/-- The offset from which a class header is read on, to the left of its part that ends with the byte
at offset `p`. -/
def headerPartStart (b : Bytes) (p : Nat) : Option Nat :=
  if b.satAt p Byte.isNamePart then
    let start := nameStart b (p + 1)
    if p < start then none else some start
  else if b.satAt p (·.among ['.', ',']) then some p
  else if b.isAt p ')' then enclosingOpen b p
  else if b.isAt p '>' && 0 < p && !b.isBefore p '=' then angleOpen b 0 p
  else none

/-- A part of a class header does not start behind its last byte. Each kind of part brings its own
bound: names by definition, groups by `enclosingOpen_lt`, lists of types by `angleOpen_lt`. This is
what makes the search for the keyword end. -/
theorem headerPartStart_le {b : Bytes} {p k : Nat} (h : headerPartStart b p = some k) : k ≤ p := by
  unfold headerPartStart at h
  split at h
  · dsimp only at h
    split at h
    · simp at h
    · simp only [Option.some.injEq] at h
      omega
  · split at h
    · simp only [Option.some.injEq] at h
      omega
    · split at h
      · exact Nat.le_of_lt (enclosingOpen_lt h)
      · split at h
        · exact Nat.le_of_lt (angleOpen_lt h)
        · simp at h

/-- **The code before offset `k` is the header of a class.** -/
def endsClassHeader (b : Bytes) (k : Nat) : Bool :=
  match _hp : lastCode b k with
  | none => false
  | some p =>
    match _hs : headerPartStart b p with
    | none => false
    | some start =>
      (b.satAt p Byte.isNamePart && keywordAt b start "class") || endsClassHeader b start
termination_by k
decreasing_by
  have := lastCode_lt _hp
  have := headerPartStart_le _hs
  omega

end TypeErasure
