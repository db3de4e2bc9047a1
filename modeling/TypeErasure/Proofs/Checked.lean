import TypeErasure.Proofs.Text

/-!
# Checked reading

The scanner reads past the end of a text without harm: no byte is there, and every test says so. A
`Checked` computation is strict instead. It fails as soon as it reads a byte outside of the text,
takes a range that does not lie in it, or cuts a text within a character.

Each scan has a checked twin, which reads its bytes strictly wherever the scan does not look whether
there is one. The twin of a scan gives the answer of the scan, and so all bytes that it reads are
there; the lemma `f_eq` says so of the twin of `f`. This module goes up to the search for the end of
a type, and the constructs are gone through in `TypeErasure.Proofs.Checked.Construct`.

A twin of its own have only those scans that can be misused: `literalAt` and `keywordAt` are safe at
every offset (`Checked.literalAt_eq`, `Checked.keywordAt_eq`), and so are the scans that compare
their offset with the size of the text before each read, such as `Bytes.skipWhile`.
-/

namespace TypeErasure

/-- The offset of a byte that is not there, or of a cut within a character. -/
structure OutOfRange where
  offset : Nat
  deriving DecidableEq, Repr

/-- A computation that fails when it reads outside of its text. -/
abbrev Checked (α : Type) :=
  Except OutOfRange α

namespace Bytes

/-- The byte at offset `i`, which has to be there. -/
def read (b : Bytes) (i : Nat) : Checked Byte :=
  if h : i < b.size then .ok b[i] else .error ⟨i⟩

/-- The byte before offset `i`, which has to be there. -/
def readBefore (b : Bytes) : Nat → Checked Byte
  | 0 => .error ⟨0⟩
  | i + 1 => b.read i

/-- The bytes from `start` up to `stop`, which have to be a range of the text. -/
def view (b : Bytes) (start stop : Nat) : Checked Bytes :=
  if start ≤ stop ∧ stop ≤ b.size then .ok (b.slice start stop) else .error ⟨stop⟩

/-- A character starts at offset `i`, or the text ends there. -/
def isBoundary (b : Bytes) (i : Nat) : Bool :=
  i == b.size || b.satAt i fun c => c.IsUTF8FirstByte

/-- The text from `start` up to `stop`, which has to be cut out between characters. -/
def cut (b : Bytes) (start stop : Nat) : Checked Bytes :=
  if b.isBoundary start && b.isBoundary stop then b.view start stop else .error ⟨start⟩

end Bytes

namespace Checked

variable {α β : Type}

/-! ### Sequences and conditions -/

/-- A sequence gives what its second part gives on the answer of the first. -/
theorem bind_eq {x : Checked α} {f : α → Checked β} {a : α} {c : β} (hx : x = .ok a)
    (hf : f a = .ok c) : (x >>= f) = .ok c := by
  rw [hx]
  exact hf

/-- A conditional gives what its branches give. Each branch may use how the condition came out, and
this is what makes a read safe behind a test. -/
theorem ite_eq {x : Checked Bool} {y z : Checked α} {p : Bool} {u v : α} (hx : x = .ok p)
    (hy : p = true → y = .ok u) (hz : p = false → z = .ok v) :
    (do if ← x then y else z) = .ok (if p then u else v) := by
  refine bind_eq hx ?_
  cases p with
  | true => exact hy rfl
  | false => exact hz rfl

/-- Both hold. The second is not looked at if the first does not. -/
def and (x y : Checked Bool) : Checked Bool := do
  if ← x then y else return false

/-- One of the two holds. The second is not looked at if the first does. -/
def or (x y : Checked Bool) : Checked Bool := do
  if ← x then return true else y

/-- It does not hold. -/
def not (x : Checked Bool) : Checked Bool := do
  return !(← x)

variable {x y : Checked Bool} {p q : Bool}

/-- The second condition has to be given only where the first holds. -/
theorem and_eq (hx : x = .ok p) (hy : p = true → y = .ok q) : and x y = .ok (p && q) :=
  (ite_eq hx hy fun _ => rfl).trans (by cases p <;> rfl)

/-- The second condition has to be given only where the first fails. -/
theorem or_eq (hx : x = .ok p) (hy : p = false → y = .ok q) : or x y = .ok (p || q) :=
  (ite_eq hx (fun _ => rfl) hy).trans (by cases p <;> rfl)

theorem not_eq (hx : x = .ok p) : not x = .ok (!p) :=
  bind_eq hx rfl

/-- Goes on with an answer, if there is one. -/
def andThen (o : Checked (Option α)) (f : α → Checked (Option β)) : Checked (Option β) := do
  match ← o with
  | none => return none
  | some a => f a

/-- What follows has to be given only for the answer that there is. -/
theorem andThen_eq {o : Checked (Option α)} {f : α → Checked (Option β)} {a : Option α}
    {g : α → Option β} (ho : o = .ok a) (hf : ∀ k, a = some k → f k = .ok (g k)) :
    andThen o f = .ok (a.bind g) := by
  refine bind_eq ho ?_
  cases a with
  | none => rfl
  | some k => exact hf k rfl

/-- The first of two answers. The second is not asked for if there is a first. -/
def orElse (o u : Checked (Option α)) : Checked (Option α) := do
  match ← o with
  | none => u
  | some a => return some a

/-- The second answer has to be given only where there is no first. -/
theorem orElse_eq {o u : Checked (Option α)} {a c : Option α} (ho : o = .ok a)
    (hu : a = none → u = .ok c) : orElse o u = .ok (a.or c) := by
  refine bind_eq ho ?_
  cases a with
  | none => exact hu rfl
  | some k => rfl

/-- There is an answer and it satisfies `f`. -/
def any (o : Checked (Option α)) (f : α → Checked Bool) : Checked Bool := do
  match ← o with
  | none => return false
  | some a => f a

/-- The test has to be given only for the answer that there is. -/
theorem any_eq {o : Checked (Option α)} {f : α → Checked Bool} {a : Option α} {g : α → Bool}
    (ho : o = .ok a) (hf : ∀ k, a = some k → f k = .ok (g k)) : any o f = .ok (a.any g) := by
  refine bind_eq ho ?_
  cases a with
  | none => rfl
  | some k => exact hf k rfl

/-! ### Bytes -/

variable {b : Bytes} {i j : Nat} {c : Byte → Bool}

theorem read_eq (hi : i < b.size) : b.read i = .ok b[i] :=
  dif_pos hi

theorem view_eq (hij : i ≤ j) (hj : j ≤ b.size) : b.view i j = .ok (b.slice i j) :=
  if_pos ⟨hij, hj⟩

/-- A text can be cut at its boundaries. The first byte of a character is known by its upper bits,
which is what the test looks at. -/
private theorem isBoundary_of_boundary (h : b.Boundary i) : b.isBoundary i = true := by
  obtain ⟨s, rfl, hvalid⟩ := h
  rw [Bytes.isBoundary, Bool.or_eq_true]
  -- a boundary is the end of the text or the first byte of a character
  rcases String.Pos.Raw.isValid_iff_isUTF8FirstByte.mp hvalid with hend | ⟨hlt, hfirst⟩
  · exact .inl (beq_iff_eq.mpr (congrArg String.Pos.Raw.byteIdx hend))
  · have hi : i < (Bytes.ofString s).size := hlt
    refine .inr ?_
    rw [Bytes.satAt, Array.getElem?_eq_getElem hi, Option.any_some]
    exact decide_eq_true hfirst

/-- **A text can be cut between characters.** -/
theorem cut_eq (hi : b.Boundary i) (hj : b.Boundary j) (hij : i ≤ j) :
    b.cut i j = .ok (b.slice i j) := by
  rw [Bytes.cut, isBoundary_of_boundary hi, isBoundary_of_boundary hj]
  exact view_eq hij hj.le_size

/-- The byte at offset `i` satisfies `c`. -/
def satAt (b : Bytes) (i : Nat) (c : Byte → Bool) : Checked Bool := do
  return c (← b.read i)

theorem satAt_eq (hi : i < b.size) : satAt b i c = .ok (b.satAt i c) := by
  refine bind_eq (read_eq hi) ?_
  rw [Bytes.satAt, Array.getElem?_eq_getElem hi]
  rfl

/-- The byte before offset `i` satisfies `c`. -/
def satBefore (b : Bytes) (i : Nat) (c : Byte → Bool) : Checked Bool := do
  return c (← b.readBefore i)

theorem satBefore_eq (hpos : 0 < i) (hi : i ≤ b.size) :
    satBefore b i c = .ok (b.satAt (i - 1) c) := by
  cases i with
  | zero => omega
  | succ k => exact satAt_eq hi

theorem isBefore_eq {ch : Char} (hpos : 0 < i) (hi : i ≤ b.size) :
    satBefore b i (·.is ch) = .ok (b.isBefore i ch) := by
  rw [satBefore_eq hpos hi, Bytes.isBefore, decide_eq_true hpos]
  rfl

/-- Offset `i` is not the start of the text, and the byte before it satisfies `c`. -/
def hasBefore (b : Bytes) (i : Nat) (c : Byte → Bool) : Checked Bool :=
  and (.ok (0 < i)) (satBefore b i c)

/-- With the test that there is one, the byte before any offset of the text can be looked at. -/
theorem hasBefore_eq (hi : i ≤ b.size) :
    hasBefore b i c = .ok (decide (0 < i) && b.satAt (i - 1) c) :=
  and_eq rfl fun hpos => satBefore_eq (of_decide_eq_true hpos) hi

/-- The twin of `Bytes.runStart`. -/
def runStart (b : Bytes) (c : Byte → Bool) : Nat → Checked Nat
  | 0 => return 0
  | k + 1 => do if ← satAt b k c then runStart b c k else return k + 1

/-- A run is followed back from an offset of the text, and all bytes before that are there. -/
theorem runStart_eq (hi : i ≤ b.size) : runStart b c i = .ok (b.runStart c i) := by
  induction i with
  | zero => rfl
  | succ k ih => exact ite_eq (satAt_eq hi) (fun _ => ih (by omega)) fun _ => rfl

/-- The twin of `Bytes.lastInk`, which takes the bytes before `i` as a range. -/
def lastInk (b : Bytes) (i : Nat) : Checked (Option Nat) := do
  let _ ← b.view 0 i
  return b.lastInk i

/-- The bytes before an offset of the text are a range of it. -/
theorem lastInk_eq (hi : i ≤ b.size) : lastInk b i = .ok (b.lastInk i) :=
  bind_eq (view_eq (Nat.zero_le i) hi) rfl

/-- The twin of `Bytes.trimEnd`. -/
def trimEnd (b : Bytes) (start : Nat) : Nat → Checked Nat
  | 0 => return 0
  | k + 1 => do
    if ← and (.ok (start < k + 1)) (satAt b k Byte.isSpace) then trimEnd b start k
    else return k + 1

/-- Whitespace is left off from an offset of the text on, going back. -/
theorem trimEnd_eq {start : Nat} (hi : i ≤ b.size) :
    trimEnd b start i = .ok (b.trimEnd start i) := by
  induction i with
  | zero => rfl
  | succ k ih =>
    exact ite_eq (and_eq rfl fun _ => satAt_eq hi) (fun _ => ih (by omega)) fun _ => rfl

/-- The twin of `lastBelow`. -/
def lastBelow (f : Nat → Checked Bool) : Nat → Checked (Option Nat)
  | 0 => return none
  | k + 1 => do if ← f k then return some k else lastBelow f k

/-- A search downward reads what its test reads, below the offset that it starts from. -/
private theorem lastBelow_eq {f : Nat → Checked Bool} {g : Nat → Bool}
    (h : ∀ k, k < i → f k = .ok (g k)) : lastBelow f i = .ok (TypeErasure.lastBelow g i) := by
  induction i with
  | zero => rfl
  | succ k ih =>
    exact ite_eq (h k (Nat.lt_succ_self k)) (fun _ => rfl) fun _ => ih fun j hj => h j (by omega)

/-- The twin of `firstIn`. -/
def firstIn (f : Nat → Checked (Option α)) (lo hi : Nat) : Checked (Option α) :=
  if lo < hi then do
    match ← f lo with
    | some a => return some a
    | none => firstIn f (lo + 1) hi
  else return none
termination_by hi - lo

/-- A search upward reads what its test reads, at the offsets that it goes through. The induction
follows the search. -/
theorem firstIn_eq {f : Nat → Checked (Option α)} {g : Nat → Option α} {lo hi : Nat}
    (h : ∀ k, lo ≤ k → k < hi → f k = .ok (g k)) :
    firstIn f lo hi = .ok (TypeErasure.firstIn g lo hi) := by
  fun_induction TypeErasure.firstIn g lo hi with
  | case1 lo hlo a ha =>
    -- the test answers at the first offset
    rw [firstIn, if_pos hlo]
    refine bind_eq ((h lo (Nat.le_refl _) hlo).trans (congrArg _ ha)) rfl
  | case2 lo hlo hnone ih =>
    -- the test does not answer, and the search goes on
    rw [firstIn, if_pos hlo]
    exact bind_eq ((h lo (Nat.le_refl _) hlo).trans (congrArg _ hnone))
      (ih fun k hk => h k (by omega))
  | case3 lo hlo =>
    -- all offsets have been gone through
    rw [firstIn, if_neg hlo]; rfl

/-! ### Names -/

/-- The first offset from `start` up to `stop` that holds no digit. -/
def skipDigits (b : Bytes) (stop start : Nat) : Checked Nat :=
  if start < stop then do
    if ← satAt b start Byte.isDigit then skipDigits b stop (start + 1) else return start
  else return start
termination_by stop - start

/-- Digits are skipped up to the end of the name only, so that each byte is there. The scan goes on
to the end of the digits instead and takes the smaller of the two. -/
private theorem skipDigits_eq {i j : Nat} (hij : i ≤ j) (hj : j ≤ b.size) :
    skipDigits b j i = .ok (min j (b.skipWhile Byte.isDigit i)) := by
  rw [skipDigits]
  split
  · -- a digit may stand here
    rename_i hlt
    have hi : i < b.size := by omega
    have hstep : b.skipWhile Byte.isDigit i =
        if b.satAt i Byte.isDigit then b.skipWhile Byte.isDigit (i + 1) else i := by
      rw [Bytes.skipWhile, dif_pos hi, Bytes.satAt, Array.getElem?_eq_getElem hi, Option.any_some]
    refine (ite_eq (satAt_eq hi) (fun _ => skipDigits_eq hlt hj) fun _ => rfl).trans ?_
    rw [hstep]
    split
    · rfl
    · rw [Nat.min_eq_right hij]
  · -- the name is over
    rename_i hge
    have := b.le_skipWhile Byte.isDigit i
    rw [Nat.min_eq_left (by omega), show i = j by omega]
    rfl
termination_by j - i

/-- The twin of `nameStart`. -/
def nameStart (b : Bytes) (stop : Nat) : Checked Nat := do
  skipDigits b stop (← runStart b Byte.isNamePart stop)

/-- The start of a name is found from its end, which lies within the text. -/
theorem nameStart_eq (hi : i ≤ b.size) : nameStart b i = .ok (TypeErasure.nameStart b i) :=
  bind_eq (runStart_eq hi) (skipDigits_eq (b.runStart_le _ i) hi)

/-- The twin of `wordBefore`. -/
def wordBefore (b : Bytes) (stop : Nat) (words : List String) : Checked Bool := do
  let word ← b.view (← nameStart b stop) stop
  return words.any fun w => Bytes.ofString w == word

/-- The name before an offset is a range of the text: it starts no later than it ends. -/
theorem wordBefore_eq {words : List String} (hi : i ≤ b.size) :
    wordBefore b i words = .ok (TypeErasure.wordBefore b i words) :=
  bind_eq (nameStart_eq hi) (bind_eq (view_eq (nameStart_le b i) hi) rfl)

/-- The twin of `keywordAt`. -/
def keywordAt (b : Bytes) (i : Nat) (word : String) : Checked Bool :=
  and (and (.ok (b.hasAt i word))
    (not (hasBefore b i fun c => c.isNamePart || c.is '.')))
    (.ok !b.satAt (i + (Bytes.ofString word).size) Byte.isNamePart)

/-- **A keyword can be looked for at every offset.** The byte before it is read only where the word
stands, and then the offset lies within the text. -/
theorem keywordAt_eq {word : String} (hword : 0 < (Bytes.ofString word).size) (b : Bytes)
    (i : Nat) :
    keywordAt b i word = .ok (TypeErasure.keywordAt b i word) := by
  -- the word is there, so the byte before it can be read
  refine and_eq (and_eq rfl fun hat => not_eq (hasBefore_eq ?_)) fun _ => rfl
  exact Nat.le_trans (Nat.le_add_right _ _) (Bytes.le_size_of_hasAt hat hword)

/-! ### Literals -/

/-- The twin of `endsOperand`. -/
def endsOperand (b : Bytes) (i : Nat) : Checked Bool := do
  match ← lastInk b i with
  | none => return false
  | some p =>
    if ← satAt b p (·.among [')', ']']) then return true
    else if ← satAt b p Byte.isNamePart then
      let word ← b.view (← runStart b Byte.isNamePart (p + 1)) (p + 1)
      return !expressionWords.any fun w => Bytes.ofString w == word
    else return false

/-- The last byte of code before an offset is there, and so is the word that it ends. -/
theorem endsOperand_eq (hi : i ≤ b.size) :
    endsOperand b i = .ok (TypeErasure.endsOperand b i) := by
  refine bind_eq (lastInk_eq hi) ?_
  rw [TypeErasure.endsOperand]
  cases hp : b.lastInk i with
  | none => rfl
  | some p =>
    have hlt : p < b.size := Nat.lt_of_lt_of_le (Bytes.lastInk_lt hp) hi
    -- the last byte of code is read again, first as a bracket and then as the end of a word
    refine ite_eq (satAt_eq hlt) (fun _ => rfl) fun _ => ite_eq (satAt_eq hlt) (fun _ => ?_)
      fun _ => rfl
    exact bind_eq (runStart_eq hlt) (bind_eq (view_eq (b.runStart_le _ _) hlt) rfl)

/-- The twin of `regexStop`. -/
def regexStop (b : Bytes) (i : Nat) : Checked (Option Nat) := do
  match b[i + 1]? with
  | none => return none
  | some c =>
    if ← or (.ok (refusesRegex c)) (endsOperand b i) then return none
    else return (regexClose b false (i + 1)).map (b.skipWhile Byte.isLetter)

/-- The twin of `literalAt`. -/
def literalAt (b : Bytes) (i : Nat) : Checked (Option Literal) := do
  match b[i]? with
  | none => return none
  | some c =>
    if c.is '/' then
      if b.isAt (i + 1) '/' then
        return some ⟨.lineComment, ⟨i, b.skipWhile (fun c => !c.is '\n') (i + 2)⟩, true⟩
      else if b.isAt (i + 1) '*' then
        return some (Literal.closedBy .blockComment b i (blockClose b (i + 2)))
      else return (← regexStop b i).map fun stop => ⟨.regex, ⟨i, stop⟩, true⟩
    else if c.isQuote then
      return some (Literal.closedBy .string b i (quoteClose b c (i + 1)))
    else if c.is '`' then
      return some (Literal.closedBy .template b i (quoteClose b c (i + 1)))
    else return none

/-- A regular expression can be looked for at every offset. The bytes before the slash are read only
where a byte follows it. -/
theorem regexStop_eq (b : Bytes) (i : Nat) :
    regexStop b i = .ok (TypeErasure.regexStop b i) := by
  rw [regexStop, TypeErasure.regexStop]
  cases hc : b[i + 1]? with
  | none => rfl
  | some c =>
    -- there is a byte behind the slash, so those before the slash can be read
    have hi : i + 1 < b.size := (Array.getElem?_eq_some_iff.mp hc).1
    exact ite_eq (or_eq rfl fun _ => endsOperand_eq (by omega)) (fun _ => rfl) fun _ => rfl

/-- **A literal can be looked for at every offset.** Of all kinds of literal only a regular
expression looks at bytes without a test (`regexStop_eq`). -/
theorem literalAt_eq (b : Bytes) (i : Nat) :
    literalAt b i = .ok (TypeErasure.literalAt b i) := by
  rw [literalAt, TypeErasure.literalAt]
  cases b[i]? with
  | none => rfl
  | some c =>
    simp only [regexStop_eq]
    split
    · split
      · rfl
      · split <;> rfl
    · split
      · rfl
      · split <;> rfl

/-! ### Backward scans -/

/-- The twin of `closesComment`. -/
def closesComment (b : Bytes) (k : Nat) : Checked Bool :=
  and (satAt b k (·.is '/')) (hasBefore b k (·.is '*'))

/-- The end of a comment is looked for at a byte of the text. -/
theorem closesComment_eq (hi : i < b.size) :
    closesComment b i = .ok (TypeErasure.closesComment b i) :=
  and_eq (satAt_eq hi) fun _ => hasBefore_eq (Nat.le_of_lt hi)

/-- The twin of `commentStart`. -/
def commentStart (b : Bytes) (star : Nat) : Checked (Option Nat) :=
  lastBelow (fun p => and (satAt b p (·.is '/')) (satAt b (p + 1) (·.is '*'))) star

/-- The start of a comment is looked for before its end, two bytes at a time. -/
theorem commentStart_eq (hi : i < b.size) :
    commentStart b i = .ok (TypeErasure.commentStart b i) :=
  lastBelow_eq fun _ hp => and_eq (satAt_eq (by omega)) fun _ => satAt_eq (by omega)

/-- What a search downward finds lies below the offset that it starts from. The scan back needs this
to make progress. -/
theorem lastBelow_lt {f : Nat → Checked Bool} {k : Nat} (h : lastBelow f i = .ok (some k)) :
    k < i := by
  induction i with
  | zero =>
    -- nothing lies below the start of the text
    simp [lastBelow, pure, Except.pure] at h
  | succ n ih =>
    rw [lastBelow] at h
    -- the search goes on as long as the test says no
    cases hn : f n with
    | error => simp [hn, bind, Except.bind] at h
    | ok answer =>
      cases answer with
      | true =>
        simp only [hn, bind, Except.bind, pure, Except.pure, if_true, Except.ok.injEq,
          Option.some.injEq] at h
        omega
      | false =>
        simp only [hn, bind, Except.bind, Bool.false_eq_true, if_false] at h
        exact Nat.lt_succ_of_lt (ih h)

variable {σ : Type}

/-- The twin of `scanBack`. -/
def scanBack (b : Bytes) (visit : σ → Nat → Checked (Visit σ α)) (state : σ) (k : Nat) :
    Checked (Option α) :=
  match k with
  | 0 => return none
  | k + 1 => do
    if ← closesComment b k then
      match _h : commentStart b (k - 1) with
      | .error e => .error e
      | .ok none => return none
      | .ok (some start) => scanBack b visit state start
    else
      match ← visit state k with
      | .halt answer => return some answer
      | .go state => scanBack b visit state k
termination_by k
decreasing_by
  · have := lastBelow_lt _h
    omega
  · omega

/-- **A scan back reads only bytes of the text**, if its visitor does when it is given one. The
induction follows the scan, and each case makes one step of the twin. -/
theorem scanBack_eq {visit : σ → Nat → Checked (Visit σ α)} {f : σ → Nat → Visit σ α} {state : σ}
    {k : Nat} (hk : k ≤ b.size) (h : ∀ s j, j < b.size → visit s j = .ok (f s j)) :
    scanBack b visit state k = .ok (TypeErasure.scanBack b f state k) := by
  -- the star of a comment that ends before `k` is a byte of the text
  have hstart {k : Nat} (hk : k + 1 ≤ b.size) :
      commentStart b (k - 1) = .ok (TypeErasure.commentStart b (k - 1)) :=
    commentStart_eq (by omega)
  fun_induction TypeErasure.scanBack b f state k with
  | case1 =>
    -- the scan is at the start of the text
    rw [scanBack]; rfl
  | case2 state k hclose hnone =>
    -- the comment has no start, and the scan is over
    rw [scanBack]
    refine bind_eq (closesComment_eq hk) ?_
    rw [if_pos hclose]
    split
    · rename_i he
      simp [hstart hk] at he
    · rfl
    · rename_i hsome
      simp [hstart hk, hnone] at hsome
  | case3 state k hclose start hsome ih =>
    -- a comment is passed over in one step
    rw [scanBack]
    refine bind_eq (closesComment_eq hk) ?_
    have hlt := TypeErasure.lastBelow_lt hsome
    rw [if_pos hclose]
    split
    · rename_i he
      simp [hstart hk] at he
    · rename_i hnone
      simp [hstart hk, hsome] at hnone
    · rename_i first hfirst
      -- both scans find the same start
      obtain rfl : start = first := by simpa [hstart hk, hsome] using hfirst
      exact ih (by omega)
  | case4 state k hopen answer hv =>
    -- the visitor halts
    rw [scanBack]
    refine bind_eq (closesComment_eq hk) ?_
    rw [if_neg hopen]
    exact bind_eq ((h state k hk).trans (congrArg _ hv)) rfl
  | case5 state k hopen state' hv ih =>
    -- the visitor goes on
    rw [scanBack]
    refine bind_eq (closesComment_eq hk) ?_
    rw [if_neg hopen]
    exact bind_eq ((h state k hk).trans (congrArg _ hv)) (ih (by omega))

/-- The twin of `lastCode`. -/
def lastCode (b : Bytes) (i : Nat) : Checked (Option Nat) :=
  scanBack b
    (fun (_ : Unit) k => do if ← satAt b k Byte.isSpace then return .go () else return .halt k) () i

/-- The last byte of code before an offset of the text is found by such a scan. -/
theorem lastCode_eq (hi : i ≤ b.size) : lastCode b i = .ok (TypeErasure.lastCode b i) :=
  scanBack_eq hi fun _ _ hk => ite_eq (satAt_eq hk) (fun _ => rfl) fun _ => rfl

/-- The twin of `visitOutside`. -/
def visitOutside (b : Bytes) (opened : Nat → α) (outside : Nat → Checked (Visit Nat α))
    (depth k : Nat) : Checked (Visit Nat α) := do
  if ← satAt b k Byte.isCloser then return .go (depth + 1)
  else if ← satAt b k Byte.isOpener then
    if depth = 0 then return .halt (opened k) else return .go (depth - 1)
  else if depth = 0 then outside k
  else return .go depth

/-- A visitor that stays outside of brackets reads the byte that it is given, and what the inner
visitor reads. -/
theorem visitOutside_eq {opened : Nat → α} {outside : Nat → Checked (Visit Nat α)}
    {f : Nat → Visit Nat α} {depth k : Nat} (hk : k < b.size) (h : outside k = .ok (f k)) :
    visitOutside b opened outside depth k =
      .ok (TypeErasure.visitOutside b opened f depth k) := by
  refine ite_eq (satAt_eq hk) (fun _ => rfl) fun _ => ite_eq (satAt_eq hk) (fun _ => ?_) fun _ => ?_
  · split <;> rfl
  · split
    · exact h
    · rfl

/-- The twin of `enclosingOpen`. -/
def enclosingOpen (b : Bytes) (i : Nat) : Checked (Option Nat) := do
  return (← scanBack b
    (visitOutside b some fun k => do
      if ← satAt b k (·.is ';') then return .halt none else return .go 0) 0 i).join

/-- The bracket around an offset of the text is found by a scan back. -/
theorem enclosingOpen_eq (hi : i ≤ b.size) :
    enclosingOpen b i = .ok (TypeErasure.enclosingOpen b i) :=
  bind_eq (scanBack_eq hi fun _ _ hk => visitOutside_eq hk
    (ite_eq (satAt_eq hk) (fun _ => rfl) fun _ => rfl)) rfl

/-! ### Where a type or an expression ends -/

/-- The twin of `isCompoundEq`. -/
def isCompoundEq (b : Bytes) (i : Nat) : Checked Bool :=
  and (satAt b i (·.is '='))
    (or (.ok (b.satAt (i + 1) (·.among ['=', '>'])))
      (hasBefore b i (·.among ['=', '!', '<', '>'])))

/-- The sign is read at a byte of the text. Of its neighbours, the scan looks whether they are
there. -/
theorem isCompoundEq_eq (hi : i < b.size) :
    isCompoundEq b i = .ok (TypeErasure.isCompoundEq b i) :=
  and_eq (satAt_eq hi) fun _ => or_eq rfl fun _ => hasBefore_eq (Nat.le_of_lt hi)

/-- The twin of `isAssign`, which asks for more than the `=` only where there is one. -/
def isAssign (b : Bytes) (i : Nat) : Checked Bool :=
  and (.ok (b.isAt i '=')) (not (isCompoundEq b i))

/-- **An assignment can be looked for at every offset.** The longer signs are looked for only where
an equals sign stands. -/
theorem isAssign_eq (b : Bytes) (i : Nat) : isAssign b i = .ok (TypeErasure.isAssign b i) :=
  and_eq rfl fun hat => not_eq (isCompoundEq_eq (Bytes.lt_size_of_isAt hat))

/-- The twin of `lineBreakEnds`, which takes the bytes before the line break as a range. -/
def lineBreakEnds (b : Bytes) (start nl : Nat) : Checked Bool := do
  let _ ← b.view start nl
  match b.lastInk nl with
  | none => return false
  | some last =>
    if ← or (or (.ok (last < start)) (satAt b last isOpenEnded))
        (and (satAt b last (·.is '>')) (hasBefore b last (·.is '='))) then
      return false
    else match b[b.skipBlanks (nl + 1)]? with
      | none => return true
      | some c => return startsAfresh c

/-- The bytes before a line break are a range if the statement starts before it. The last byte of
ink among them is there, and the byte behind the break is looked at with a test. -/
theorem lineBreakEnds_eq (hij : i ≤ j) (hj : j ≤ b.size) :
    lineBreakEnds b i j = .ok (TypeErasure.lineBreakEnds b i j) := by
  refine bind_eq (view_eq hij hj) ?_
  rw [TypeErasure.lineBreakEnds]
  cases hlast : b.lastInk j with
  | none => rfl
  | some last =>
    have hlt : last < b.size := Nat.lt_of_lt_of_le (Bytes.lastInk_lt hlast) hj
    refine ite_eq (or_eq (or_eq rfl fun _ => satAt_eq hlt) fun _ => and_eq (satAt_eq hlt) fun _ =>
      hasBefore_eq (Nat.le_of_lt hlt)) (fun _ => rfl) fun _ => ?_
    cases b[b.skipBlanks (j + 1)]? <;> rfl

/-- The twin of `endsLine`. -/
def endsLine (b : Bytes) (start i : Nat) : Checked Bool :=
  and (satAt b i (·.is '\n')) (lineBreakEnds b start i)

/-- A line is looked at from the start of its statement, which must not lie behind the line
break. -/
theorem endsLine_eq {start : Nat} (hstart : start ≤ i) (hi : i < b.size) :
    endsLine b start i = .ok (TypeErasure.endsLine b start i) :=
  and_eq (satAt_eq hi) fun _ => lineBreakEnds_eq hstart (Nat.le_of_lt hi)

variable {reading : Reading} {stop : Nat → Checked Bool} {f : Nat → Bool} {depth : Nat}

/-- The twin of `opensAt`. -/
def opensAt (b : Bytes) (reading : Reading) (i : Nat) : Checked Bool :=
  or (satAt b i Byte.isOpener) (and (.ok (reading == .type)) (satAt b i (·.is '<')))

/-- The twin of `closesAt`. -/
def closesAt (b : Bytes) (reading : Reading) (i : Nat) : Checked Bool :=
  or (satAt b i Byte.isCloser)
    (and (and (.ok (reading == .type)) (satAt b i (·.is '>'))) (not (hasBefore b i (·.is '='))))

/-- An opening bracket is looked for at a byte of the text. -/
theorem opensAt_eq (hi : i < b.size) :
    opensAt b reading i = .ok (TypeErasure.opensAt b reading i) :=
  or_eq (satAt_eq hi) fun _ => and_eq rfl fun _ => satAt_eq hi

theorem closesAt_eq (hi : i < b.size) :
    closesAt b reading i = .ok (TypeErasure.closesAt b reading i) :=
  or_eq (satAt_eq hi) fun _ => and_eq (and_eq rfl fun _ => satAt_eq hi) fun _ =>
    not_eq (hasBefore_eq (Nat.le_of_lt hi))

/-- The twin of `findStopFrom`. -/
def findStopFrom (b : Bytes) (reading : Reading) (stop : Nat → Checked Bool) (depth i : Nat) :
    Checked Nat :=
  if i < b.size then do
    if ← and (.ok (depth = 0)) (stop i) then return i
    else match _h : inertStop b i with
      | some next => findStopFrom b reading stop depth next
      | none =>
        if ← opensAt b reading i then findStopFrom b reading stop (depth + 1) (i + 1)
        else if ← closesAt b reading i then
          if depth = 0 then return i else findStopFrom b reading stop (depth - 1) (i + 1)
        else findStopFrom b reading stop depth (i + 1)
  else return b.size
termination_by b.size - i
decreasing_by
  · have := lt_of_inertStop _h
    omega
  all_goals omega

/-- Where nothing is skipped and the search does not stop, it looks for a bracket. Both tests for a
bracket read the byte at hand, which is there. -/
private theorem findStopFrom_succ (hi : i < b.size) (hstop : stop i = .ok (f i))
    (hgo : ¬(depth = 0 ∧ f i = true)) (hnone : inertStop b i = none) :
    findStopFrom b reading stop depth i =
      if TypeErasure.opensAt b reading i then findStopFrom b reading stop (depth + 1) (i + 1)
      else if TypeErasure.closesAt b reading i then
        if depth = 0 then .ok i else findStopFrom b reading stop (depth - 1) (i + 1)
      else findStopFrom b reading stop depth (i + 1) := by
  have hcond : and (.ok (depth = 0)) (stop i) = .ok (decide (depth = 0) && f i) :=
    and_eq rfl fun _ => hstop
  rw [findStopFrom, if_pos hi, hcond, opensAt_eq hi, closesAt_eq hi]
  simp only [bind, Except.bind, Bool.and_eq_true, decide_eq_true_eq, if_neg hgo]
  split
  · rename_i next hnext
    simp [hnone] at hnext
  · rfl

/-- A search reads only what its condition reads, from its start on. The induction follows the
search. Its condition is asked for at bytes of the text only, and from the start of the search on,
which is what `endsLine_eq` needs. -/
theorem findStopFrom_eq (h : ∀ k, i ≤ k → k < b.size → stop k = .ok (f k)) :
    findStopFrom b reading stop depth i = .ok (TypeErasure.findStopFrom b reading f depth i) := by
  fun_induction TypeErasure.findStopFrom b reading f depth i with
  | case1 depth i hi hstop =>
    -- the search stops here
    have hcond : and (.ok (depth = 0)) (stop i) = .ok (decide (depth = 0) && f i) :=
      and_eq rfl fun _ => h i (Nat.le_refl _) hi
    rw [findStopFrom, if_pos hi, hcond]
    simp only [bind, Except.bind, Bool.and_eq_true, decide_eq_true_eq, if_pos hstop]
    rfl
  | case2 depth i hi hgo next hnext ih =>
    -- a literal is passed over
    have hcond : and (.ok (depth = 0)) (stop i) = .ok (decide (depth = 0) && f i) :=
      and_eq rfl fun _ => h i (Nat.le_refl _) hi
    have hlt := lt_of_inertStop hnext
    rw [findStopFrom, if_pos hi, hcond]
    simp only [bind, Except.bind, Bool.and_eq_true, decide_eq_true_eq, if_neg hgo]
    split
    · rename_i first hfirst
      -- both searches pass over the same literal
      obtain rfl : next = first := Option.some.inj (hnext.symm.trans hfirst)
      exact ih fun k hk => h k (by omega)
    · rename_i hnone
      simp [hnone] at hnext
  | case3 depth i hi hgo hnone hopen ih =>
    -- an opening bracket
    rw [findStopFrom_succ hi (h i (Nat.le_refl _) hi) hgo hnone, if_pos hopen]
    exact ih fun k hk => h k (by omega)
  | case4 i hi hnone hopen hclose hgo =>
    -- a closing bracket that nothing opened
    rw [findStopFrom_succ hi (h i (Nat.le_refl _) hi) hgo hnone, if_neg hopen, if_pos hclose,
      if_pos rfl]
  | case5 depth i hi hgo hnone hopen hclose hpos ih =>
    -- a closing bracket
    rw [findStopFrom_succ hi (h i (Nat.le_refl _) hi) hgo hnone, if_neg hopen, if_pos hclose,
      if_neg hpos]
    exact ih fun k hk => h k (by omega)
  | case6 depth i hi hgo hnone hopen hclose ih =>
    -- any other byte
    rw [findStopFrom_succ hi (h i (Nat.le_refl _) hi) hgo hnone, if_neg hopen, if_neg hclose]
    exact ih fun k hk => h k (by omega)
  | case7 depth i hi =>
    -- the end of the text
    rw [findStopFrom, if_neg hi]
    rfl

/-- The twin of `findStop`. -/
def findStop (b : Bytes) (reading : Reading) (stop : Nat → Checked Bool) (i : Nat) : Checked Nat :=
  findStopFrom b reading stop 0 i

theorem findStop_eq (h : ∀ k, i ≤ k → k < b.size → stop k = .ok (f k)) :
    findStop b reading stop i = .ok (TypeErasure.findStop b reading f i) :=
  findStopFrom_eq h

/-- The twin of `findClose`. -/
def findClose (b : Bytes) (reading : Reading) (i : Nat) : Checked Nat :=
  findStop b reading (fun _ => .ok false) i

/-- A closing bracket can be looked for from every offset, since there is no condition to ask
for. -/
theorem findClose_eq (b : Bytes) (reading : Reading) (i : Nat) :
    findClose b reading i = .ok (TypeErasure.findClose b reading i) :=
  findStop_eq fun _ _ _ => rfl

/-- The twin of `statementStop`. -/
def statementStop (b : Bytes) (start stop : Nat) : Checked Nat :=
  if b.isAt stop ';' then return stop + 1 else trimEnd b start stop

/-- The end of a statement is found from an offset of the text. -/
theorem statementStop_eq {start : Nat} (hi : i ≤ b.size) :
    statementStop b start i = .ok (TypeErasure.statementStop b start i) := by
  unfold statementStop TypeErasure.statementStop
  split
  · rfl
  · exact trimEnd_eq hi

end Checked

end TypeErasure
