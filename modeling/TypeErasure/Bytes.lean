import TypeErasure.Byte

/-!
# Byte strings and scans over them

A text is an array of bytes and a place in it is an offset. The scans of this module are the
vocabulary of all later ones:

* `Bytes.skipWhile` runs forward over a class of bytes, `Bytes.runStart` backward;
* `Bytes.lastBefore` finds the nearest earlier byte of a class;
* `Bytes.trimEnd` moves an end offset back over whitespace;
* `firstIn` searches a range of offsets from the left, `lastBelow` from the right.

Reading past the end of a text is not an error: no byte is there, and every test says so.
-/

namespace TypeErasure

/-- A byte string: the UTF-8 encoding of a text, or a part of one. -/
abbrev Bytes := Array Byte

/-! ### Searching a range of offsets -/

/-- The first answer of `f` on the offsets `lo, lo + 1, …, hi - 1`. -/
def firstIn {α : Type} (f : Nat → Option α) (lo hi : Nat) : Option α :=
  if lo < hi then
    match f lo with
    | some a => some a
    | none => firstIn f (lo + 1) hi
  else none
termination_by hi - lo

/-- An answer of the search is an answer of `f` at some offset of the range. The induction follows
the search, which moves the lower end of the range on by one. -/
theorem exists_of_firstIn_eq_some {α : Type} {f : Nat → Option α} {lo hi : Nat} {a : α}
    (h : firstIn f lo hi = some a) : ∃ k, lo ≤ k ∧ k < hi ∧ f k = some a := by
  fun_induction firstIn f lo hi with
  | case1 lo hlo x hx => exact ⟨lo, Nat.le_refl _, hlo, hx.trans h⟩
  | case2 lo hlo _ ih =>
    obtain ⟨k, h₁, h₂, h₃⟩ := ih h
    exact ⟨k, by omega, h₂, h₃⟩
  | case3 => simp at h

/-- The greatest offset below the bound that satisfies `p`. -/
def lastBelow (p : Nat → Bool) : Nat → Option Nat
  | 0 => none
  | k + 1 => if p k then some k else lastBelow p k

/-- An answer of the search from the right lies below the bound. By induction on the bound: either
the offset just below it is the answer, or the search goes on from there. -/
theorem lastBelow_lt {p : Nat → Bool} {i k : Nat} (h : lastBelow p i = some k) : k < i := by
  induction i with
  | zero => simp [lastBelow] at h
  | succ n ih =>
    rw [lastBelow] at h
    split at h
    · simp only [Option.some.injEq] at h
      omega
    · have := ih h
      omega

namespace Bytes

/-! ### Text and bytes -/

/-- The UTF-8 encoding of a text. -/
def ofString (s : String) : Bytes :=
  s.toUTF8.data

/-- The text that a byte string encodes, if it is valid UTF-8. -/
def decode? (b : Bytes) : Option String :=
  String.fromUTF8? ⟨b⟩

/-! ### Looking at a place -/

/-- The byte at offset `i` encodes the character `ch`. -/
def isAt (b : Bytes) (i : Nat) (ch : Char) : Bool :=
  b[i]?.any fun c => c.is ch

/-- There is a byte at offset `i` and it satisfies `p`. -/
def satAt (b : Bytes) (i : Nat) (p : Byte → Bool) : Bool :=
  b[i]?.any p

/-- The byte before offset `i` encodes the character `ch`. -/
def isBefore (b : Bytes) (i : Nat) (ch : Char) : Bool :=
  0 < i && b.isAt (i - 1) ch

/-- The bytes from `start` up to `stop`. -/
def slice (b : Bytes) (start stop : Nat) : Bytes :=
  b.extract start stop

/-- The bytes of `w` stand at offset `i`. -/
def hasAt (b : Bytes) (i : Nat) (w : String) : Bool :=
  b.slice i (i + (ofString w).size) == ofString w

/-- A byte that passes a test is there: beyond the end of the text no test succeeds. -/
theorem lt_size_of_satAt {b : Bytes} {i : Nat} {p : Byte → Bool} (h : b.satAt i p = true) :
    i < b.size := by
  by_cases hi : i < b.size
  · exact hi
  · rw [satAt, Array.getElem?_eq_none (by omega)] at h
    simp at h

/-- A character that stands at an offset stands within the text. -/
theorem lt_size_of_isAt {b : Bytes} {i : Nat} {ch : Char} (h : b.isAt i ch = true) :
    i < b.size :=
  lt_size_of_satAt h

/-! ### Runs of a byte class -/

/-- The first offset at or after `i` whose byte does not satisfy `p`. -/
def skipWhile (b : Bytes) (p : Byte → Bool) (i : Nat) : Nat :=
  if h : i < b.size then
    if p b[i] then b.skipWhile p (i + 1) else i
  else i
termination_by b.size - i

theorem le_skipWhile (b : Bytes) (p : Byte → Bool) (i : Nat) : i ≤ b.skipWhile p i := by
  fun_induction b.skipWhile p i with
  | case1 => omega
  | case2 => exact Nat.le_refl _
  | case3 => exact Nat.le_refl _

/-- A run forward that starts within the text, or at its end, does not leave it. The induction
follows the run, and its last step is bounded by the test that made it. -/
theorem skipWhile_le_size {b : Bytes} {p : Byte → Bool} {i : Nat} (h : i ≤ b.size) :
    b.skipWhile p i ≤ b.size := by
  fun_induction b.skipWhile p i with
  | case1 _ hi _ ih => exact ih hi
  | case2 => exact h
  | case3 => exact h

/-- The first offset of the run of `p`-bytes that ends right before offset `i`. -/
def runStart (b : Bytes) (p : Byte → Bool) : Nat → Nat
  | 0 => 0
  | k + 1 => if b.satAt k p then b.runStart p k else k + 1

/-- The start of a run backward does not lie behind the offset that the run ends at. -/
theorem runStart_le (b : Bytes) (p : Byte → Bool) (i : Nat) : b.runStart p i ≤ i := by
  induction i with
  | zero => simp [runStart]
  | succ n ih =>
    rw [runStart]
    split <;> omega

/-- The nearest offset before `i` whose byte satisfies `p`. -/
def lastBefore (b : Bytes) (p : Byte → Bool) (i : Nat) : Option Nat :=
  lastBelow (fun k => b.satAt k p) i

/-- The nearest earlier byte of a class lies before the offset, as every answer of `lastBelow`
does. -/
private theorem lastBefore_lt {b : Bytes} {p : Byte → Bool} {i k : Nat}
    (h : b.lastBefore p i = some k) : k < i :=
  lastBelow_lt h

/-! ### Whitespace -/

/-- The first offset at or after `i` that holds no space and no tab. -/
def skipBlanks (b : Bytes) (i : Nat) : Nat :=
  b.skipWhile Byte.isBlank i

/-- The first offset at or after `i` that holds no whitespace. -/
def skipSpace (b : Bytes) (i : Nat) : Nat :=
  b.skipWhile Byte.isSpace i

/-- The nearest offset before `i` that holds something other than whitespace. -/
def lastInk (b : Bytes) (i : Nat) : Option Nat :=
  b.lastBefore (fun c => !c.isSpace) i

theorem lastInk_lt {b : Bytes} {i k : Nat} (h : b.lastInk i = some k) : k < i :=
  lastBefore_lt h

/-- The end offset `stop` moved back over whitespace, but not before `start`. -/
def trimEnd (b : Bytes) (start : Nat) : Nat → Nat
  | 0 => 0
  | k + 1 => if start < k + 1 && b.satAt k Byte.isSpace then b.trimEnd start k else k + 1

/-- Trimming moves an end only back. -/
theorem trimEnd_le (b : Bytes) (start stop : Nat) : b.trimEnd start stop ≤ stop := by
  induction stop with
  | zero => exact Nat.le_refl 0
  | succ k ih =>
    rw [trimEnd]
    split <;> omega

/-- Trimming does not move an end before the start that it is given. By induction on the end: a step
back is made only while the end is still behind `start`. -/
theorem le_trimEnd {b : Bytes} {start stop : Nat} (h : start ≤ stop) :
    start ≤ b.trimEnd start stop := by
  induction stop with
  | zero => exact h
  | succ k ih =>
    rw [trimEnd]
    split
    · rename_i hk
      simp only [Bool.and_eq_true, decide_eq_true_eq] at hk
      exact ih (by omega)
    · exact h

/-- What does not start with whitespace is not trimmed away. By induction on the end: whenever it is
moved back over a byte, that byte is whitespace and hence not the one at `start`. -/
theorem lt_trimEnd {b : Bytes} {start stop : Nat} (h : start < stop)
    (hs : b.satAt start Byte.isSpace = false) : start < b.trimEnd start stop := by
  induction stop with
  | zero => omega
  | succ k ih =>
    rw [trimEnd]
    split
    · rename_i hk
      simp only [Bool.and_eq_true, decide_eq_true_eq] at hk
      -- the byte at `start` is no whitespace, so the one at `k` is another
      have : start ≠ k := by
        rintro rfl
        simp [hs] at hk
      exact ih (by omega)
    · exact h

end Bytes

end TypeErasure
