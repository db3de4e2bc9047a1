import TypeErasure.Name
import TypeErasure.Trivia

/-!
# Where a type or an expression ends

Nothing but its surroundings says where a type ends. `findStop` runs forward from its start, skips
strings, templates and comments, counts brackets, and stops at the first place outside all inner
groups that satisfies a condition, or at a closing bracket that was never opened. The condition
depends on the construct; `endsLine` is the part of it that constructs share, the line break that
completes what stands before it.
-/

namespace TypeErasure

/-! ### Signs -/

/-- The `=` at offset `i` is part of `=>`, `==`, `!=`, `<=` or `>=`. -/
def isCompoundEq (b : Bytes) (i : Nat) : Bool :=
  b.isAt i '=' &&
    (b.satAt (i + 1) (·.among ['=', '>']) ||
      (0 < i && b.satAt (i - 1) (·.among ['=', '!', '<', '>'])))

/-- A `=` stands at offset `i`, and not as a part of a longer sign. -/
def isAssign (b : Bytes) (i : Nat) : Bool :=
  b.isAt i '=' && !isCompoundEq b i

/-! ### Line breaks -/

/-- A byte after which a type or expression goes on in the next line. -/
def isOpenEnded (c : Byte) : Bool :=
  c.among ['|', '&', ',', ':', '?', '=', '(', '[', '{', '<', '+', '-', '*', '/', '%', '.']

/-- A first byte of a line that does not carry on the line before: a line break, an opening round or
square bracket, a closing curly one, a comment, a private name, a decorator or a name. -/
def startsAfresh (c : Byte) : Bool :=
  c.among ['\n', '\r', '(', '[', '}', '/', '#', '@'] || c.isNameStart

/-- **The line break at offset `nl` completes the type or expression that began at `start`.** It
does not if nothing was written yet, if the last byte before it asks for more, or if the next line
starts with something that carries on. -/
def lineBreakEnds (b : Bytes) (start nl : Nat) : Bool :=
  match b.lastInk nl with
  | none => false
  | some last =>
    if last < start || b.satAt last isOpenEnded || (b.isAt last '>' && b.isBefore last '=') then
      false
    else match b[b.skipBlanks (nl + 1)]? with
      | none => true
      | some c => startsAfresh c

/-- A line break stands at offset `i` and completes what began at `start`. -/
def endsLine (b : Bytes) (start i : Nat) : Bool :=
  b.isAt i '\n' && lineBreakEnds b start i

/-! ### The search -/

/-- How angle brackets are read: in a type they nest, in an expression they compare. -/
inductive Reading where
  | type
  | value
  deriving DecidableEq, Repr

/-- The end of a string, template or comment that starts at offset `i`. A regular expression is no
part of a type and is not skipped. -/
def inertStop (b : Bytes) (i : Nat) : Option Nat :=
  ((literalAt b i).filter fun l => l.kind != .regex).map (·.span.stop)

theorem lt_of_inertStop {b : Bytes} {i stop : Nat} (h : inertStop b i = some stop) : i < stop := by
  obtain ⟨l, hl, rfl⟩ := Option.map_eq_some_iff.mp h
  exact lt_stop_of_literalAt (Option.filter_eq_some_iff.mp hl).1

/-- A string, template or comment ends within the text, even if it has no closing delimiter. -/
theorem le_of_inertStop {b : Bytes} {i stop : Nat} (h : inertStop b i = some stop) :
    stop ≤ b.size := by
  obtain ⟨l, hl, rfl⟩ := Option.map_eq_some_iff.mp h
  exact stop_le_of_literalAt (Option.filter_eq_some_iff.mp hl).1

/-- An opening bracket stands at offset `i`. -/
def opensAt (b : Bytes) (reading : Reading) (i : Nat) : Bool :=
  b.satAt i Byte.isOpener || (reading == .type && b.isAt i '<')

/-- A closing bracket stands at offset `i`. The head of an arrow is none. -/
def closesAt (b : Bytes) (reading : Reading) (i : Nat) : Bool :=
  b.satAt i Byte.isCloser || (reading == .type && b.isAt i '>' && !b.isBefore i '=')

/-- The search with `depth` inner groups open at offset `i`. The depth has no bound here; a counter
of 32 bits with a sign agrees with it as long as fewer than `2 ^ 31` groups are open at once. -/
def findStopFrom (b : Bytes) (reading : Reading) (stop : Nat → Bool) (depth i : Nat) : Nat :=
  if i < b.size then
    if depth = 0 ∧ stop i then i
    else match _h : inertStop b i with
      | some next => findStopFrom b reading stop depth next
      | none =>
        if opensAt b reading i then findStopFrom b reading stop (depth + 1) (i + 1)
        else if closesAt b reading i then
          if depth = 0 then i else findStopFrom b reading stop (depth - 1) (i + 1)
        else findStopFrom b reading stop depth (i + 1)
  else b.size
termination_by b.size - i
decreasing_by
  · have := lt_of_inertStop _h
    omega
  all_goals omega

/-- **The end of a type or expression** that starts at offset `i`: the first place outside its inner
groups that satisfies `stop` or holds a closing bracket, or the end of the text. -/
def findStop (b : Bytes) (reading : Reading) (stop : Nat → Bool) (i : Nat) : Nat :=
  findStopFrom b reading stop 0 i

/-- The search never leaves the text, whatever the depth. The induction follows the search; it
answers with an offset that it has just tested or with the size of the text. -/
private theorem findStopFrom_le (b : Bytes) (reading : Reading) (stop : Nat → Bool)
    (depth i : Nat) : findStopFrom b reading stop depth i ≤ b.size := by
  fun_induction findStopFrom b reading stop depth i with
  | case1 => omega
  | case2 _ _ _ _ _ _ ih => exact ih
  | case3 _ _ _ _ _ _ ih => exact ih
  | case4 => omega
  | case5 _ _ _ _ _ _ _ _ ih => exact ih
  | case6 _ _ _ _ _ _ _ ih => exact ih
  | case7 => exact Nat.le_refl _

/-- The search never goes back, if it starts within the text or at its end. The induction follows
the search, and a skipped literal ends behind its start and within the text. -/
private theorem le_findStopFrom {b : Bytes} {reading : Reading} {stop : Nat → Bool} {depth i : Nat}
    (h : i ≤ b.size) : i ≤ findStopFrom b reading stop depth i := by
  fun_induction findStopFrom b reading stop depth i with
  | case1 => exact Nat.le_refl _
  | case2 _ i _ _ next hnext ih =>
    -- a literal is jumped over
    have := lt_of_inertStop hnext
    have := ih (le_of_inertStop hnext)
    omega
  | case3 _ i _ _ _ _ ih =>
    -- the other steps are one byte long
    have := ih (by omega)
    omega
  | case4 => exact Nat.le_refl _
  | case5 _ i _ _ _ _ _ _ ih =>
    have := ih (by omega)
    omega
  | case6 _ i _ _ _ _ _ ih =>
    have := ih (by omega)
    omega
  | case7 => exact h

theorem findStop_le (b : Bytes) (reading : Reading) (stop : Nat → Bool) (i : Nat) :
    findStop b reading stop i ≤ b.size :=
  findStopFrom_le b reading stop 0 i

/-- What is found does not lie before the start of the search. -/
theorem le_findStop {b : Bytes} {reading : Reading} {stop : Nat → Bool} {i : Nat}
    (h : i ≤ b.size) : i ≤ findStop b reading stop i :=
  le_findStopFrom h

/-- The search does not stop where it starts, unless it is told to. The first step is made by hand:
the byte is skipped as part of a literal or passed over, and from there on `le_findStopFrom`
applies. -/
theorem lt_findStop {b : Bytes} {reading : Reading} {stop : Nat → Bool} {i : Nat} (h : i < b.size)
    (hstop : stop i = false) (hclose : closesAt b reading i = false) :
    i < findStop b reading stop i := by
  rw [findStop, findStopFrom, if_pos h, if_neg (by simp [hstop])]
  -- the first step leads over a literal, into a group, or to the next byte
  split
  · rename_i next hnext
    have := lt_of_inertStop hnext
    have : next ≤ findStopFrom b reading stop 0 next := le_findStopFrom (le_of_inertStop hnext)
    omega
  · split
    · exact le_findStopFrom h
    · rw [if_neg (by simp [hclose])]
      exact le_findStopFrom h

/-- The closing bracket of the group whose contents start at offset `i`, or the end of the text. -/
def findClose (b : Bytes) (reading : Reading) (i : Nat) : Nat :=
  findStop b reading (fun _ => false) i

/-- The end of a statement whose last type or expression ends at `stop`: a `;` belongs to it, and
whitespace at its end does not. -/
def statementStop (b : Bytes) (start stop : Nat) : Nat :=
  if b.isAt stop ';' then stop + 1 else b.trimEnd start stop

end TypeErasure
