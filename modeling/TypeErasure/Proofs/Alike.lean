import TypeErasure.Proofs.Literal
import TypeErasure.Grammar

/-!
# Texts that are spelled differently

Of a name the eraser looks at little: where it starts and ends, and whether it is one of a few
words. Two texts are `Alike` if one results from the other by exchanging letters for letters, digits
for digits and other bytes of names for such bytes, where the words of the `vocabulary` stand at the
same offsets of both.

Nothing that a scan finds tells texts apart that are alike; the lemma `Alike.f_eq` says so of the
scan `f`. It does not matter whether a name stands in the code, in a comment or in a string. This
module goes up to the search for the end of a type, and the constructs are gone through in
`TypeErasure.Proofs.Alike.Construct`.
-/

namespace TypeErasure

/-! ### Bytes without their spelling -/

namespace Byte

/-- What the eraser sees of a byte: all letters are the same to it, and so are all digits and all
other bytes of names. -/
def guise (c : Byte) : Byte :=
  if c.isLetter then ofChar 'a'
  else if c.isDigit then ofChar '0'
  else if c.isNameStart then ofChar '_'
  else c

/-- The class does not tell bytes of the same guise apart. -/
def Blind (p : Byte → Bool) : Prop :=
  ∀ c d : Byte, c.guise = d.guise → p c = p d

/-- A byte is a letter if its guise is one. One case for each branch of the guise, in which the
letter `a`, the digit `0` and the underscore stand for their classes. -/
private theorem isLetter_guise (c : Byte) : c.guise.isLetter = c.isLetter := by
  unfold guise
  -- a letter stands for all letters
  split
  · rename_i h
    exact h.symm
  · -- the digit and the underscore are no letters, and other bytes stay
    rename_i h
    split
    · exact (Bool.eq_false_iff.mpr h).symm
    · split
      · exact (Bool.eq_false_iff.mpr h).symm
      · rfl

/-- No letter is a digit: the ranges of the two do not meet. -/
private theorem isDigit_of_isLetter {c : Byte} (h : c.isLetter = true) : c.isDigit = false := by
  simp only [isLetter, isDigit, between, Bool.or_eq_true, Bool.and_eq_true, decide_eq_true_eq,
    Bool.and_eq_false_iff, decide_eq_false_iff_not, Char.reduceToNat] at h ⊢
  omega

/-- A byte is a digit if its guise is one. The first branch needs that no letter is a digit. -/
private theorem isDigit_guise (c : Byte) : c.guise.isDigit = c.isDigit := by
  unfold guise
  split
  · -- a letter is no digit, and neither is the letter that stands for it
    rename_i h
    exact (isDigit_of_isLetter h).symm
  · -- the digit stands for all digits
    split
    · rename_i h
      exact h.symm
    · rename_i h
      split
      · exact (Bool.eq_false_iff.mpr h).symm
      · rfl

theorem isNameStart_of_isLetter {c : Byte} (h : c.isLetter = true) : c.isNameStart = true := by
  simp [isNameStart, h]

theorem isNameStart_of_isDigit {c : Byte} (h : c.isDigit = true) : c.isNameStart = false := by
  simp only [isDigit, isNameStart, isLetter, among, is, between, List.any_cons, List.any_nil,
    Bool.and_eq_true, decide_eq_true_eq, Bool.or_eq_false_iff, Bool.and_eq_false_iff,
    decide_eq_false_iff_not, beq_eq_false_iff_ne, Char.reduceToNat, and_true] at h ⊢
  omega

/-- A name may start with a byte if it may start with its guise, by the same three branches. -/
private theorem isNameStart_guise (c : Byte) : c.guise.isNameStart = c.isNameStart := by
  unfold guise
  split
  · -- a letter may start a name, and so may the letter that stands for it
    rename_i h
    exact (isNameStart_of_isLetter h).symm
  · -- a digit may not
    split
    · rename_i h
      exact (isNameStart_of_isDigit h).symm
    · split
      · rename_i h
        exact h.symm
      · rfl

/-- A byte that belongs to no name is its own guise: it is in none of the three classes that have a
guise of their own. -/
private theorem guise_of_not_isNamePart {c : Byte} (h : c.isNamePart = false) : c.guise = c := by
  rw [isNamePart, Bool.or_eq_false_iff] at h
  have hletter : ¬ c.isLetter = true := fun hl => by
    rw [isNameStart_of_isLetter hl] at h
    simp at h
  rw [guise, if_neg hletter, if_neg (by simp [h.2]), if_neg (by simp [h.1])]

/-- Letters are told from other bytes by their guise. -/
private theorem blind_isLetter : Blind isLetter := fun c d h => by
  rw [← isLetter_guise c, h, isLetter_guise]

/-- So are digits. -/
private theorem blind_isDigit : Blind isDigit := fun c d h => by
  rw [← isDigit_guise c, h, isDigit_guise]

theorem blind_isNameStart : Blind isNameStart := fun c d h => by
  rw [← isNameStart_guise c, h, isNameStart_guise]

namespace Blind

variable {p q : Byte → Bool}

theorem or (hp : Blind p) (hq : Blind q) : Blind fun c => p c || q c := by
  intro c d h
  show (p c || q c) = (p d || q d)
  rw [hp c d h, hq c d h]

theorem not (hp : Blind p) : Blind fun c => !p c :=
  fun c d h => congrArg _ (hp c d h)

end Blind

/-- The bytes of names are told from others by their guise, since they are digits or may start a
name. -/
theorem blind_isNamePart : Blind isNamePart :=
  blind_isNameStart.or blind_isDigit

/-- Only bytes of names are alike without being the same. -/
theorem eq_of_guise {c d : Byte} (hc : c.isNamePart = false) (h : c.guise = d.guise) : c = d := by
  -- the other byte is of no name either, so both are their own guise
  have hd : d.isNamePart = false := (blind_isNamePart c d h).symm.trans hc
  rw [← guise_of_not_isNamePart hc, h, guise_of_not_isNamePart hd]

/-- **A class that holds no byte of a name sees no spelling.** Two bytes of the same guise are both
in a name, and then neither is in the class, or they are the same byte. -/
theorem blind_of_excludes {p : Byte → Bool} (hp : Excludes isNamePart p) : Blind p := by
  intro c d h
  cases hc : c.isNamePart with
  | true =>
    -- the class holds neither of two bytes of names
    rw [hp c hc, hp d ((blind_isNamePart c d h).symm.trans hc)]
  | false => rw [eq_of_guise hc h]

/-- For a class that is given by its characters this is a computation. -/
theorem blind_among {chars : List Char}
    (h : chars.all (fun ch => !(ofChar ch).isNamePart) = true) : Blind (·.among chars) :=
  blind_of_excludes (excludes_among h)

/-- The same for a single character. -/
theorem blind_is {ch : Char} (h : (ofChar ch).isNamePart = false) : Blind (·.is ch) :=
  blind_of_excludes fun c hc => by
    rw [Bool.eq_false_iff]
    intro his
    rw [apply_of_is his isNamePart, h] at hc
    simp at hc

end Byte

/-! ### Words -/

/-- The words that the eraser knows. -/
def vocabulary : List String :=
  expressionWords ++ declarators ++ controlWords ++ typeModifiers ++ fieldModifiers ++
    ghostModifiers ++
    ["export", "import", "interface", "type", "as", "class", "extends", "implements", "constructor"]

namespace Bytes

/-- A word stands at an offset if its bytes do, one by one. From right to left, the word is compared
with a slice of the text, which must not be cut short by the end of the text. -/
theorem hasAt_iff {b : Bytes} {i : Nat} {w : String} :
    b.hasAt i w = true ↔
      ∀ k, k < (ofString w).size → b[i + k]? = (ofString w)[k]? := by
  refine ⟨fun h k hk => getElem?_of_hasAt h hk, fun h => ?_⟩
  rw [hasAt, beq_iff_eq]
  refine Array.ext_getElem? fun k => ?_
  rw [slice, Array.getElem?_extract]
  split
  · exact h k (by omega)
  · rename_i hk
    refine (Array.getElem?_eq_none ?_).symm
    -- a place of the word that is not in the text would be one that the text has
    apply Nat.le_of_not_lt
    intro hlt
    have hin := h k hlt
    rw [Array.getElem?_eq_getElem hlt] at hin
    have := (Array.getElem?_eq_some_iff.mp hin).1
    omega

/-- A range of the text spells a word. It has the length of the word, and the word stands where it
starts. -/
theorem beq_slice (b : Bytes) (w : String) (i j : Nat) :
    (ofString w == b.slice i j) =
      (decide ((ofString w).size = min j b.size - i) && b.hasAt i w) := by
  rw [Bool.eq_iff_iff, beq_iff_eq, Bool.and_eq_true, decide_eq_true_eq]
  refine ⟨fun h => ?_, fun ⟨hsize, hat⟩ => ?_⟩
  · -- the range has the length of the word, and its bytes
    have hsize : (ofString w).size = min j b.size - i := by rw [h, slice, Array.size_extract]
    refine ⟨hsize, hasAt_iff.mpr fun k hk => ?_⟩
    rw [h, slice, Array.getElem?_extract, if_pos (by omega)]
  · refine Array.ext_getElem? fun k => ?_
    rw [slice, Array.getElem?_extract]
    split
    · exact (hasAt_iff.mp hat k (by omega)).symm
    · exact Array.getElem?_eq_none (by omega)

/-- One step of a run of bytes. -/
theorem skipWhile_eq_ite (b : Bytes) (p : Byte → Bool) (i : Nat) :
    b.skipWhile p i = if b.satAt i p then b.skipWhile p (i + 1) else i := by
  rw [skipWhile]
  split
  · rename_i hi
    rw [satAt, Array.getElem?_eq_getElem hi, Option.any_some]
  · rename_i hi
    rw [satAt_eq_false_of_size_le (by omega)]
    rfl

end Bytes

/-! ### One step of a scan -/

/-- One step of skipping whitespace and comments, without the proof that it makes progress. -/
theorem skipTrivia_eq_ite (b : Bytes) (i : Nat) :
    skipTrivia b i =
      match literalAt b (b.skipSpace i) with
      | none => b.skipSpace i
      | some l => if l.kind.isComment then skipTrivia b l.span.stop else b.skipSpace i := by
  rw [skipTrivia]
  split <;> rename_i h <;> rw [h]

/-- One step of a backward scan, without the proof that the start of a comment lies further back. -/
theorem scanBack_succ {σ α : Type} (b : Bytes) (visit : σ → Nat → Visit σ α) (state : σ) (k : Nat) :
    scanBack b visit state (k + 1) =
      if closesComment b k then
        match commentStart b (k - 1) with
        | none => none
        | some start => scanBack b visit state start
      else
        match visit state k with
        | .halt answer => some answer
        | .go state => scanBack b visit state k := by
  rw [scanBack]
  split
  · split <;> rename_i h <;> rw [h]
  · rfl

/-- One step of a search. The definition carries a proof that a literal ends behind its start; here
it is left out, so that both sides of an equation can be rewritten. -/
theorem findStopFrom_eq_ite (b : Bytes) (reading : Reading) (stop : Nat → Bool) (depth i : Nat) :
    findStopFrom b reading stop depth i =
      if i < b.size then
        if depth = 0 ∧ stop i then i
        else match inertStop b i with
          | some next => findStopFrom b reading stop depth next
          | none =>
            if opensAt b reading i then findStopFrom b reading stop (depth + 1) (i + 1)
            else if closesAt b reading i then
              if depth = 0 then i else findStopFrom b reading stop (depth - 1) (i + 1)
            else findStopFrom b reading stop depth (i + 1)
      else b.size := by
  rw [findStopFrom]
  split
  · split
    · rfl
    · split <;> rename_i h <;> rw [h]
  · rfl

/-! ### Texts -/

/-- **The two texts are spelled differently at most.** -/
structure Alike (a b : Bytes) : Prop where
  /-- At each offset stand bytes of the same guise. -/
  guise : a.map Byte.guise = b.map Byte.guise
  /-- The words that the eraser knows stand at the same offsets. -/
  words : ∀ w ∈ vocabulary, ∀ i, a.hasAt i w = b.hasAt i w

namespace Alike

variable {a b : Bytes} {i j : Nat} {p : Byte → Bool}

theorem size_eq (h : Alike a b) : a.size = b.size := by
  rw [← Array.size_map (f := Byte.guise), h.guise, Array.size_map]

/-- **At each offset stand two bytes of the same guise**, or both texts have ended. -/
theorem getElem?_cases (h : Alike a b) (i : Nat) :
    a[i]? = none ∧ b[i]? = none ∨
      ∃ c d, a[i]? = some c ∧ b[i]? = some d ∧ c.guise = d.guise := by
  -- the guises stand at the same offsets
  have heq : a[i]?.map Byte.guise = b[i]?.map Byte.guise := by
    rw [← Array.getElem?_map, h.guise, Array.getElem?_map]
  cases ha : a[i]? with
  | none =>
    rw [ha, Option.map_none, eq_comm, Option.map_eq_none_iff] at heq
    exact .inl ⟨rfl, heq⟩
  | some c =>
    rw [ha, Option.map_some, eq_comm, Option.map_eq_some_iff] at heq
    obtain ⟨d, hd, hguise⟩ := heq
    exact .inr ⟨c, d, rfl, hd, hguise.symm⟩

/-- What sees no spelling holds at the same offsets of both texts. All other lemmas of this module
come down to this one and to `hasAt_eq`. -/
theorem satAt_eq (h : Alike a b) (hp : Byte.Blind p) (i : Nat) : a.satAt i p = b.satAt i p := by
  rcases h.getElem?_cases i with ⟨ha, hb⟩ | ⟨c, d, ha, hb, hcd⟩
  · rw [Bytes.satAt, Bytes.satAt, ha, hb]
  · rw [Bytes.satAt_of_getElem? ha, Bytes.satAt_of_getElem? hb, hp c d hcd]

/-- The same for a class that is given by its characters, none of which belongs to a name. -/
theorem satAt_among (h : Alike a b) {chars : List Char}
    (hchars : chars.all (fun ch => !(Byte.ofChar ch).isNamePart) = true) (i : Nat) :
    a.satAt i (·.among chars) = b.satAt i (·.among chars) :=
  h.satAt_eq (Byte.blind_among hchars) i

/-- The same for a single character. -/
theorem isAt_eq (h : Alike a b) {ch : Char} (hch : (Byte.ofChar ch).isNamePart = false) (i : Nat) :
    a.isAt i ch = b.isAt i ch :=
  h.satAt_eq (Byte.blind_is hch) i

theorem isBefore_eq (h : Alike a b) {ch : Char} (hch : (Byte.ofChar ch).isNamePart = false)
    (i : Nat) : a.isBefore i ch = b.isBefore i ch := by
  rw [Bytes.isBefore, Bytes.isBefore, h.isAt_eq hch]

/-! ### Runs of a byte class -/

/-- A run of a class that sees no spelling ends at the same offset. The recursion is that of the
skipping itself, on the bytes that are left. -/
theorem skipWhile_eq (h : Alike a b) (hp : Byte.Blind p) (i : Nat) :
    a.skipWhile p i = b.skipWhile p i := by
  rw [Bytes.skipWhile_eq_ite, Bytes.skipWhile_eq_ite b, h.satAt_eq hp]
  split
  · exact h.skipWhile_eq hp (i + 1)
  · rfl
termination_by a.size - i
decreasing_by
  have := h.size_eq
  have := Bytes.lt_size_of_satAt ‹_›
  omega

/-- It starts at the same offset as well, by induction on its end. -/
theorem runStart_eq (h : Alike a b) (hp : Byte.Blind p) (i : Nat) :
    a.runStart p i = b.runStart p i := by
  induction i with
  | zero => rfl
  | succ k ih => rw [Bytes.runStart, Bytes.runStart, h.satAt_eq hp, ih]

theorem skipBlanks_eq (h : Alike a b) (i : Nat) : a.skipBlanks i = b.skipBlanks i :=
  h.skipWhile_eq (Byte.blind_among rfl) i

theorem skipSpace_eq (h : Alike a b) (i : Nat) : a.skipSpace i = b.skipSpace i :=
  h.skipWhile_eq (Byte.blind_among rfl) i

/-- The last byte that is no whitespace stands at the same offset. -/
theorem lastInk_eq (h : Alike a b) (i : Nat) : a.lastInk i = b.lastInk i :=
  congrArg (lastBelow · i) (funext (h.satAt_eq (Byte.blind_among rfl).not))

/-- The same whitespace is left off at the end of a range. -/
theorem trimEnd_eq (h : Alike a b) (start stop : Nat) :
    a.trimEnd start stop = b.trimEnd start stop := by
  induction stop with
  | zero => rfl
  | succ k ih =>
    rw [Bytes.trimEnd, Bytes.trimEnd, h.satAt_eq (p := Byte.isSpace) (Byte.blind_among rfl), ih]

/-! ### Words and signs -/

/-- A word of the vocabulary stands at the same offsets of both texts. This is the second thing that
is asked of texts that are alike. -/
theorem hasAt_eq (h : Alike a b) {w : String} (hw : vocabulary.contains w = true) (i : Nat) :
    a.hasAt i w = b.hasAt i w :=
  h.words w (List.contains_iff_mem.mp hw) i

/-- A range spells one of some words in both texts or in none. By induction on the words. -/
theorem any_slice_eq (h : Alike a b) {words : List String}
    (hwords : words.all vocabulary.contains = true) (i j : Nat) :
    (words.any fun w => Bytes.ofString w == a.slice i j) =
      words.any fun w => Bytes.ofString w == b.slice i j := by
  induction words with
  | nil => rfl
  | cons w words ih =>
    rw [List.all_cons, Bool.and_eq_true] at hwords
    rw [List.any_cons, List.any_cons, ih hwords.2, Bytes.beq_slice, Bytes.beq_slice,
      h.hasAt_eq hwords.1, h.size_eq]

/-- A sign that is made of no bytes of names stands at the same places. Its bytes are the same in
both texts, because only bytes of names may differ. -/
theorem hasAt_sign (h : Alike a b) {w : String}
    (hw : (Bytes.ofString w).toList.all (fun c => !c.isNamePart) = true) (i : Nat) :
    a.hasAt i w = b.hasAt i w := by
  have hplace (k : Nat) (hk : k < (Bytes.ofString w).size) :
      a[i + k]? = (Bytes.ofString w)[k]? ↔ b[i + k]? = (Bytes.ofString w)[k]? := by
    -- a sign has no byte of a name in it, so both texts hold the same byte there
    have hc := List.all_eq_true.mp hw _ (Array.getElem_mem_toList hk)
    rw [Bool.not_eq_true'] at hc
    rw [Array.getElem?_eq_getElem hk]
    rcases h.getElem?_cases (i + k) with ⟨ha, hb⟩ | ⟨c, d, ha, hb, hcd⟩
    · rw [ha, hb]
    · rw [ha, hb, Option.some.injEq, Option.some.injEq]
      constructor
      · rintro rfl
        exact (Byte.eq_of_guise hc hcd).symm
      · rintro rfl
        exact (Byte.eq_of_guise hc hcd.symm).symm
  rw [Bool.eq_iff_iff, Bytes.hasAt_iff, Bytes.hasAt_iff]
  exact forall_congr' fun k => forall_congr' fun hk => hplace k hk

theorem nameStop_eq (h : Alike a b) (i : Nat) : nameStop a i = nameStop b i := by
  rw [nameStop, nameStop, h.satAt_eq Byte.blind_isNameStart, h.skipWhile_eq Byte.blind_isNamePart]

/-- A name that ends at an offset starts at the same one; digits before it are left off alike. -/
theorem nameStart_eq (h : Alike a b) (stop : Nat) : nameStart a stop = nameStart b stop := by
  rw [nameStart, nameStart, h.runStart_eq Byte.blind_isNamePart,
    h.skipWhile_eq Byte.blind_isDigit]

/-- A keyword stands at the same offsets: the word does, and so do the bytes of names that could go
on with it on either side. -/
theorem keywordAt_eq (h : Alike a b) {w : String} (hw : vocabulary.contains w = true) (i : Nat) :
    keywordAt a i w = keywordAt b i w := by
  rw [keywordAt, keywordAt, h.hasAt_eq hw, h.satAt_eq Byte.blind_isNamePart,
    h.satAt_eq (Byte.blind_isNamePart.or (Byte.blind_is rfl))]

theorem wordBefore_eq (h : Alike a b) {words : List String}
    (hwords : words.all vocabulary.contains = true) (stop : Nat) :
    wordBefore a stop words = wordBefore b stop words := by
  rw [wordBefore, wordBefore, h.nameStart_eq, h.any_slice_eq hwords]

/-! ### Literals -/

/-- A quote is closed at the same offset, since neither a quote nor a backslash is a byte of a name.
The recursion goes over the text with the search. -/
theorem quoteClose_eq (h : Alike a b) {quote : Byte} (hquote : quote.isNamePart = false) (j : Nat) :
    quoteClose a quote j = quoteClose b quote j := by
  rw [TypeErasure.quoteClose_eq, TypeErasure.quoteClose_eq b]
  rcases h.getElem?_cases j with ⟨ha, hb⟩ | ⟨c, d, ha, hb, hcd⟩
  · rw [ha, hb]
  · -- the byte at hand is the same for the search
    have hlt := (Array.getElem?_eq_some_iff.mp ha).1
    -- the quote is no byte of a name
    have hclose : (c == quote) = (d == quote) :=
      Byte.blind_of_excludes (p := (· == quote)) (fun c hc => by
        rw [beq_eq_false_iff_ne]
        rintro rfl
        simp [hquote] at hc) c d hcd
    rw [ha, hb]
    dsimp only
    have hescape : c.is '\\' = d.is '\\' := Byte.blind_is rfl c d hcd
    rw [hescape, hclose, h.quoteClose_eq hquote (j + 1),
      h.quoteClose_eq hquote (j + 2)]
termination_by a.size - j

private theorem blockClose_eq (h : Alike a b) (j : Nat) : blockClose a j = blockClose b j := by
  unfold blockClose
  simp (disch := decide) only [h.isAt_eq, h.size_eq]

/-- A regular expression ends at the same slash. None of the five signs that its search takes notice
of is a byte of a name. -/
private theorem regexClose_eq (h : Alike a b) (inClass : Bool) (j : Nat) :
    regexClose a inClass j = regexClose b inClass j := by
  rw [regexClose, regexClose.eq_def b]
  rcases h.getElem?_cases j with ⟨ha, hb⟩ | ⟨c, d, ha, hb, hcd⟩
  · rw [Array.getElem?_eq_none_iff] at ha hb
    -- the texts end together
    rw [dif_neg (by omega), dif_neg (by omega)]
  · -- the byte at hand answers to every sign alike
    obtain ⟨hi, rfl⟩ := Array.getElem?_eq_some_iff.mp ha
    obtain ⟨hi', rfl⟩ := Array.getElem?_eq_some_iff.mp hb
    have his {ch : Char} (hch : (Byte.ofChar ch).isNamePart = false) : a[j].is ch = b[j].is ch :=
      Byte.blind_is hch _ _ hcd
    have hbreak : a[j].among ['\n', '\r'] = b[j].among ['\n', '\r'] :=
      Byte.blind_among rfl _ _ hcd
    rw [dif_pos hi, dif_pos hi']
    simp (disch := decide) only [his, hbreak, h.regexClose_eq _ (j + 1), h.regexClose_eq _ (j + 2)]
termination_by a.size - j

/-- An operand ends before the same offsets. The words that announce an expression are in the
vocabulary. -/
theorem endsOperand_eq (h : Alike a b) (i : Nat) : endsOperand a i = endsOperand b i := by
  unfold endsOperand
  simp (disch := decide) only [h.lastInk_eq, h.satAt_among, h.satAt_eq Byte.blind_isNamePart,
    h.runStart_eq Byte.blind_isNamePart, h.any_slice_eq]

/-- A regular expression ends at the same offset, its flags included, and is ruled out alike. -/
theorem regexStop_eq (h : Alike a b) (i : Nat) : regexStop a i = regexStop b i := by
  unfold regexStop
  rcases h.getElem?_cases (i + 1) with ⟨ha, hb⟩ | ⟨c, d, ha, hb, hcd⟩
  · rw [ha, hb]
  · -- what rules out a regular expression is a digit, whitespace or a sign
    have hrefuses : refusesRegex c = refusesRegex d :=
      (((Byte.blind_among rfl).or Byte.blind_isDigit).or (Byte.blind_among rfl)) c d hcd
    rw [ha, hb]
    dsimp only
    rw [hrefuses, h.endsOperand_eq, h.regexClose_eq,
      show a.skipWhile Byte.isLetter = b.skipWhile Byte.isLetter from
        funext (h.skipWhile_eq Byte.blind_isLetter)]

/-- An unclosed literal ends with the text, and both texts have the same length. -/
private theorem closedBy_eq (h : Alike a b) (kind : LiteralKind) (i : Nat) (close : Option Nat) :
    Literal.closedBy kind a i close = Literal.closedBy kind b i close := by
  cases close with
  | none => rw [Literal.closedBy, Literal.closedBy, h.size_eq]
  | some => rfl

/-- **Texts that are alike have the same literals.** A byte of a name opens no literal, and any
other byte is the same in both texts. Then the literals end alike, by the lemma on the closing
delimiter of each kind. -/
theorem literalAt_eq (h : Alike a b) (i : Nat) : literalAt a i = literalAt b i := by
  -- no literal starts with a byte of a name
  have hnone {x : Bytes} {c : Byte} (hx : x[i]? = some c) (hc : c.isNamePart = true) :
      literalAt x i = none := by
    have hchars : c.among ['/', '\'', '"', '`'] = false := Byte.excludes_among rfl c hc
    simp only [Byte.among, List.any_cons, List.any_nil, Bool.or_eq_false_iff] at hchars
    simp [literalAt, hx, Byte.isQuote, Byte.among, hchars]
  rcases h.getElem?_cases i with ⟨ha, hb⟩ | ⟨c, d, ha, hb, hcd⟩
  · rw [literalAt, literalAt, ha, hb]
  · cases hname : c.isNamePart with
    | true => rw [hnone ha hname, hnone hb ((Byte.blind_isNamePart c d hcd).symm.trans hname)]
    | false =>
      -- a literal starts with the same byte in both texts
      obtain rfl := Byte.eq_of_guise hname hcd
      have hline : Byte.Blind fun c => !c.is '\n' := (Byte.blind_is rfl).not
      unfold literalAt
      rw [ha, hb]
      simp (disch := decide) only [h.isAt_eq, h.skipWhile_eq hline, h.closedBy_eq, h.blockClose_eq,
        h.regexStop_eq, h.quoteClose_eq hname]

/-! ### Trivia and backward scans -/

/-- Whitespace and comments end at the same offset. The recursion is that of the skipping. -/
theorem skipTrivia_eq (h : Alike a b) (i : Nat) : skipTrivia a i = skipTrivia b i := by
  rw [skipTrivia_eq_ite, skipTrivia_eq_ite b, h.skipSpace_eq, h.literalAt_eq]
  cases hl : literalAt b (b.skipSpace i) with
  | none => rfl
  | some l =>
    -- the comment ends behind its start, so less of the text is left
    have := bounds_of_literalAt hl
    have : i ≤ b.skipSpace i := b.le_skipWhile _ i
    have := h.size_eq
    dsimp only
    rw [h.skipTrivia_eq l.span.stop]
termination_by a.size - i

theorem closesComment_eq (h : Alike a b) (k : Nat) : closesComment a k = closesComment b k := by
  rw [closesComment, closesComment, h.isAt_eq rfl, h.isBefore_eq rfl]

theorem commentStart_eq (h : Alike a b) (star : Nat) :
    commentStart a star = commentStart b star := by
  unfold commentStart
  simp (disch := decide) only [h.isAt_eq]

section ScanBack

variable {σ α : Type}

/-- **A backward scan finds the same in both texts**, if it looks at the two with the same visitor.
The recursion is that of the scan, over a comment at once or over one byte. -/
theorem scanBack_eq (h : Alike a b) (visit : σ → Nat → Visit σ α) (state : σ) (k : Nat) :
    scanBack a visit state k = scanBack b visit state k := by
  cases k with
  -- nothing is left to scan
  | zero => rw [scanBack, scanBack]
  | succ k =>
    rw [scanBack_succ, scanBack_succ b, h.closesComment_eq, h.commentStart_eq]
    split
    · -- a comment is passed over in one step
      cases hstart : commentStart b (k - 1) with
      | none => rfl
      | some start =>
        have := lastBelow_lt hstart
        exact h.scanBack_eq visit state start
    · -- the visitor halts at this byte, or goes on before it
      cases visit state k with
      | halt => rfl
      | go state => exact h.scanBack_eq visit state k
termination_by k

/-- The last byte of code before an offset is at the same place. -/
theorem lastCode_eq (h : Alike a b) (i : Nat) : lastCode a i = lastCode b i := by
  have hspace : Byte.Blind Byte.isSpace := Byte.blind_among rfl
  unfold lastCode
  simp only [h.satAt_eq hspace, h.scanBack_eq]

/-- A visitor that stays outside of brackets sees the same brackets. -/
theorem visitOutside_eq (h : Alike a b) (opened : Nat → α) (outside : Nat → Visit Nat α) :
    visitOutside a opened outside = visitOutside b opened outside := by
  have hcloser : Byte.Blind Byte.isCloser := Byte.blind_among rfl
  have hopener : Byte.Blind Byte.isOpener := Byte.blind_among rfl
  funext depth k
  rw [visitOutside, visitOutside, h.satAt_eq hcloser, h.satAt_eq hopener]

end ScanBack

/-- The bracket that is open around an offset is at the same place. -/
theorem enclosingOpen_eq (h : Alike a b) (i : Nat) : enclosingOpen a i = enclosingOpen b i := by
  unfold enclosingOpen visitEnclosing
  simp (disch := decide) only [h.isAt_eq, h.visitOutside_eq, h.scanBack_eq]

/-! ### Where a type or an expression ends -/

/-- An equals sign is part of a longer sign at the same offsets. -/
theorem isCompoundEq_eq (h : Alike a b) (i : Nat) : isCompoundEq a i = isCompoundEq b i := by
  unfold isCompoundEq
  simp (disch := decide) only [h.isAt_eq, h.satAt_among]

theorem isAssign_eq (h : Alike a b) (i : Nat) : isAssign a i = isAssign b i := by
  rw [isAssign, isAssign, h.isAt_eq rfl, h.isCompoundEq_eq]

/-- **A line break ends a statement in both texts or in none.** The rule looks at the ink before the
break and at the first byte behind it, and both of its classes see no spelling. -/
theorem lineBreakEnds_eq (h : Alike a b) (start nl : Nat) :
    lineBreakEnds a start nl = lineBreakEnds b start nl := by
  have hopen : Byte.Blind isOpenEnded := Byte.blind_among rfl
  have hfresh : Byte.Blind startsAfresh := (Byte.blind_among rfl).or Byte.blind_isNameStart
  unfold lineBreakEnds
  simp (disch := decide) only [h.lastInk_eq, h.satAt_eq hopen, h.isAt_eq, h.isBefore_eq,
    h.skipBlanks_eq]
  -- a blank rest of the text ends the statement in both, and otherwise one byte decides
  rcases h.getElem?_cases (b.skipBlanks (nl + 1)) with ⟨ha, hb⟩ | ⟨c, d, ha, hb, hcd⟩
  · rw [ha, hb]
  · rw [ha, hb]
    dsimp only
    rw [hfresh c d hcd]

theorem endsLine_eq (h : Alike a b) (start i : Nat) : endsLine a start i = endsLine b start i := by
  rw [endsLine, endsLine, h.isAt_eq rfl, h.lineBreakEnds_eq]

/-- Strings, templates and comments are passed over alike. -/
theorem inertStop_eq (h : Alike a b) (i : Nat) : inertStop a i = inertStop b i := by
  rw [inertStop, inertStop, h.literalAt_eq]

theorem opensAt_eq (h : Alike a b) (reading : Reading) (i : Nat) :
    opensAt a reading i = opensAt b reading i := by
  rw [opensAt, opensAt, h.satAt_eq (p := Byte.isOpener) (Byte.blind_among rfl), h.isAt_eq rfl]

theorem closesAt_eq (h : Alike a b) (reading : Reading) (i : Nat) :
    closesAt a reading i = closesAt b reading i := by
  rw [closesAt, closesAt, h.satAt_eq (p := Byte.isCloser) (Byte.blind_among rfl), h.isAt_eq rfl,
    h.isBefore_eq rfl]

/-- **A search comes to the same place in both texts**, given the condition that it stops at. The
recursion is that of the search. -/
theorem findStopFrom_eq (h : Alike a b) (reading : Reading) (stop : Nat → Bool) (depth i : Nat) :
    findStopFrom a reading stop depth i = findStopFrom b reading stop depth i := by
  have hsize := h.size_eq
  rw [findStopFrom_eq_ite, findStopFrom_eq_ite b, hsize, h.inertStop_eq, h.opensAt_eq,
    h.closesAt_eq]
  split
  · -- the search stops at once, or goes on behind a literal or a byte
    split
    · rfl
    · cases hnext : inertStop b i with
      | some next =>
        -- a literal is passed over in one step
        have := lt_of_inertStop hnext
        exact h.findStopFrom_eq reading stop depth next
      | none =>
        dsimp only
        rw [h.findStopFrom_eq reading stop (depth + 1) (i + 1),
          h.findStopFrom_eq reading stop (depth - 1) (i + 1),
          h.findStopFrom_eq reading stop depth (i + 1)]
  · rfl
termination_by a.size - i

/-- The same for a search that starts outside of all brackets. -/
theorem findStop_eq (h : Alike a b) (reading : Reading) (stop : Nat → Bool) (i : Nat) :
    findStop a reading stop i = findStop b reading stop i :=
  h.findStopFrom_eq reading stop 0 i

theorem findClose_eq (h : Alike a b) (reading : Reading) (i : Nat) :
    findClose a reading i = findClose b reading i :=
  h.findStop_eq reading _ i

theorem statementStop_eq (h : Alike a b) (start stop : Nat) :
    statementStop a start stop = statementStop b start stop := by
  rw [statementStop, statementStop, h.isAt_eq rfl, h.trimEnd_eq]

end Alike

end TypeErasure
