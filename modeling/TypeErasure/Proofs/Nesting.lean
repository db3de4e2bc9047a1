import TypeErasure.Proofs.Inert

/-!
# Brackets along a scan

`Bytes.bracketDepths` counts the open brackets of a text from left to right, as a reader does who
takes every string, template and comment for one blank. The head of an arrow is no bracket.

`Nests b i d j e` is the path of a scan that counts along: it comes from offset `i` with `d` open
brackets to offset `j` with `e`, and never closes a bracket that is not open. The searches of the
eraser stay on such a path (`balances_findStop`), so that what they pass over is `Enclosed`: it
closes nothing that it did not open, and leaves nothing open unless it reaches to the end of the
text, but for whitespace.

Main statement: the bracket depths of an enclosed range, counted over its text alone, are never
negative, and the last of them is zero unless only whitespace follows (`Enclosed.depths`). The text
alone may cut a comment that the whole text goes on with, but only within whitespace, which changes
no count (`inertStop_slice`).
-/

namespace TypeErasure

/-! ### Counting brackets -/

namespace Bytes

/-- What the byte at offset `i` adds to the number of open brackets. -/
def bracketAt (b : Bytes) (i : Nat) : Int :=
  if b.satAt i (·.among ['(', '[', '{', '<']) then 1
  else if b.satAt i (·.among [')', ']', '}']) || (b.isAt i '>' && !b.isBefore i '=') then -1
  else 0

/-- The number of open brackets after each byte from offset `i` on, where `depth` are open before.
Strings, templates and comments are passed over whole. -/
def bracketDepths (b : Bytes) (depth : Int) (i : Nat) : List Int :=
  if i < b.size then
    match _h : inertStop b i with
    | some next => b.bracketDepths depth next
    | none => (depth + b.bracketAt i) :: b.bracketDepths (depth + b.bracketAt i) (i + 1)
  else []
termination_by b.size - i
decreasing_by
  · have := lt_of_inertStop _h
    omega
  · omega

/-- Behind the text nothing is counted, since the count reads one byte after the other up to its
end. -/
private theorem bracketDepths_of_size_le {b : Bytes} {i : Nat} (h : b.size ≤ i) (depth : Int) :
    b.bracketDepths depth i = [] := by
  rw [bracketDepths, if_neg (by omega)]

/-- A string, template or comment leaves no trace in the count. The definition asks for the end of
the literal, and there is only one. -/
private theorem bracketDepths_inert {b : Bytes} {i next : Nat} (h : inertStop b i = some next)
    (depth : Int) : b.bracketDepths depth i = b.bracketDepths depth next := by
  have hi : i < b.size := Nat.lt_of_lt_of_le (lt_of_inertStop h) (le_of_inertStop h)
  rw [bracketDepths, if_pos hi]
  split
  · rename_i stop hstop
    obtain rfl := Option.some.inj (h.symm.trans hstop)
    rfl
  · rename_i hnone
    simp [h] at hnone

/-- A byte that opens no literal is counted. This is the other branch of the definition, in the form
that the induction over a path rewrites with. -/
private theorem bracketDepths_byte {b : Bytes} {i : Nat} (hi : i < b.size)
    (h : inertStop b i = none) (depth : Int) :
    b.bracketDepths depth i =
      (depth + b.bracketAt i) :: b.bracketDepths (depth + b.bracketAt i) (i + 1) := by
  rw [bracketDepths, if_pos hi]
  split
  · rename_i hstop
    simp [h] at hstop
  · rfl

end Bytes

/-- What holds of each of the characters `chars` holds of a byte among them. -/
theorem Byte.of_among {c : Byte} {q : Byte → Bool} (chars : List Char) (h : c.among chars = true)
    (hq : chars.all (fun ch => q (ofChar ch)) = true) : q c = true := by
  obtain ⟨ch, hmem, his⟩ := List.any_eq_true.mp h
  exact (apply_of_is his q).trans (List.all_eq_true.mp hq ch hmem)

theorem Bytes.satAt_of_among {b : Bytes} {i : Nat} {q : Byte → Bool} (chars : List Char)
    (h : b.satAt i (·.among chars) = true)
    (hq : chars.all (fun ch => q (Byte.ofChar ch)) = true) : b.satAt i q = true :=
  satAt_mono h fun _ hc => Byte.of_among chars hc hq

/-- What holds of none of the characters `chars` does not hold of a byte among them, which is
`Byte.of_among` for the complement of the class. -/
theorem Bytes.not_satAt_of_among {b : Bytes} {i : Nat} {q : Byte → Bool} (chars : List Char)
    (h : b.satAt i (·.among chars) = true)
    (hq : chars.all (fun ch => !q (Byte.ofChar ch)) = true) : b.satAt i q = false :=
  satAt_eq_false h fun c hc => by simpa using Byte.of_among (q := fun c => !q c) chars hc hq

/-- In a type, an angle bracket closes as the other brackets do, but for the head of an arrow. -/
theorem closesAt_type (b : Bytes) (i : Nat) :
    closesAt b .type i =
      (b.satAt i (·.among [')', ']', '}']) || (b.isAt i '>' && !b.isBefore i '=')) := rfl

/-- What opens a group in a type is one of four characters: the three round, square and curly
openers, and the angle bracket. -/
theorem satAt_of_opensAt {b : Bytes} {i : Nat} (h : opensAt b .type i = true) :
    b.satAt i (·.among ['(', '[', '{', '<']) = true := by
  rw [opensAt, Bool.or_eq_true] at h
  rcases h with h | h
  · exact Bytes.satAt_of_among ['(', '[', '{'] h rfl
  · rw [Bool.and_eq_true] at h
    rw [Bytes.satAt_of_isAt h.2]
    rfl

/-- What closes a group is one of four characters, however angle brackets are read. -/
theorem satAt_of_closesAt {b : Bytes} {reading : Reading} {i : Nat}
    (h : closesAt b reading i = true) : b.satAt i (·.among [')', ']', '}', '>']) = true := by
  rw [closesAt, Bool.or_eq_true] at h
  rcases h with h | h
  · exact Bytes.satAt_of_among [')', ']', '}'] h rfl
  · simp only [Bool.and_eq_true] at h
    rw [Bytes.satAt_of_isAt h.1.2]
    rfl

/-- No byte opens and closes a group at once. The four closers are neither openers nor the angle
bracket that opens. -/
theorem not_opensAt_of_closesAt {b : Bytes} {reading : Reading} {i : Nat}
    (h : closesAt b reading i = true) : opensAt b reading i = false := by
  have hamong := satAt_of_closesAt h
  have hopener : b.satAt i Byte.isOpener = false :=
    Bytes.satAt_eq_false hamong (Byte.excludes_among rfl)
  rw [opensAt, hopener, Bytes.isAt_eq_false hamong rfl, Bool.and_false, Bool.or_false]

namespace Bytes

variable {b : Bytes} {i : Nat}

/-- What the search takes for an opening bracket counts as one. -/
private theorem bracketAt_of_opensAt (h : opensAt b .type i = true) : b.bracketAt i = 1 :=
  if_pos (satAt_of_opensAt h)

/-- What the search takes for a closing bracket counts as one, since it is none of the four openers,
which are asked for first. -/
private theorem bracketAt_of_closesAt (h : closesAt b .type i = true) : b.bracketAt i = -1 := by
  have hnot : b.satAt i (·.among ['(', '[', '{', '<']) = false :=
    satAt_eq_false (satAt_of_closesAt h) (Byte.excludes_among rfl)
  rw [bracketAt, if_neg (by simp [hnot]), ← closesAt_type, if_pos h]

/-- Any other byte does not count. The search and the count list the openers in two different ways,
so that the byte is looked at to see that they are the same four. -/
private theorem bracketAt_of_not (hopen : opensAt b .type i = false)
    (hclose : closesAt b .type i = false) : b.bracketAt i = 0 := by
  -- both classes list the same four characters
  have hnot : b.satAt i (·.among ['(', '[', '{', '<']) = false := by
    rw [opensAt, Bool.or_eq_false_iff] at hopen
    cases hat : b[i]? with
    | none => rw [satAt, hat]; rfl
    | some c =>
      simp only [isAt, satAt, hat, Option.any_some, Byte.isOpener, Byte.among, List.any_cons,
        List.any_nil, Bool.or_false, beq_self_eq_true, Bool.true_and] at hopen ⊢
      simp [hopen]
  rw [bracketAt, if_neg (by simp [hnot]), ← closesAt_type, if_neg (by simp [hclose])]

end Bytes

/-! ### The path of a reader who counts -/

/-- **A scan that counts brackets** comes from offset `i`, where `d` are open, to offset `j`, where
`e` are. It cannot go on at a closing bracket that was never opened. -/
inductive Nests (b : Bytes) : Nat → Nat → Nat → Nat → Prop where
  | refl (i d : Nat) : Nests b i d i d
  | inert {i d next j e : Nat} (h : inertStop b i = some next) (tail : Nests b next d j e) :
      Nests b i d j e
  | opening {i d j e : Nat} (hnone : inertStop b i = none) (h : opensAt b .type i = true)
      (tail : Nests b (i + 1) (d + 1) j e) : Nests b i d j e
  | closing {i d j e : Nat} (hnone : inertStop b i = none) (h : closesAt b .type i = true)
      (tail : Nests b (i + 1) d j e) : Nests b i (d + 1) j e
  | plain {i d j e : Nat} (hi : i < b.size) (hnone : inertStop b i = none)
      (hopen : opensAt b .type i = false) (hclose : closesAt b .type i = false)
      (tail : Nests b (i + 1) d j e) : Nests b i d j e

namespace Nests

variable {b : Bytes} {i d j e k f : Nat}

/-- Two paths of which one starts where the other ends make one path. By induction on the first. -/
theorem trans (h₁ : Nests b i d j e) (h₂ : Nests b j e k f) : Nests b i d k f := by
  induction h₁ with
  | refl => exact h₂
  | inert h _ ih => exact .inert h (ih h₂)
  | opening hnone h _ ih => exact .opening hnone h (ih h₂)
  | closing hnone h _ ih => exact .closing hnone h (ih h₂)
  | plain hi hnone hopen hclose _ ih => exact .plain hi hnone hopen hclose (ih h₂)

/-- Brackets that are open around the path make no difference to it. A step that opens or closes one
adds or takes one above them. -/
theorem lift (h : Nests b i d j e) (n : Nat) : Nests b i (d + n) j (e + n) := by
  induction h with
  | refl => exact .refl _ _
  | inert h _ ih => exact .inert h ih
  | opening hnone h _ ih => exact .opening hnone h (Nat.add_right_comm _ 1 n ▸ ih)
  | closing hnone h _ ih => exact Nat.add_right_comm _ n 1 ▸ .closing hnone h ih
  | plain hi hnone hopen hclose _ ih => exact .plain hi hnone hopen hclose ih

/-- A path only goes forward. -/
theorem le (h : Nests b i d j e) : i ≤ j := by
  induction h with
  | refl => exact Nat.le_refl _
  | inert h _ ih => exact Nat.le_trans (Nat.le_of_lt (lt_of_inertStop h)) ih
  | opening _ _ _ ih => omega
  | closing _ _ _ ih => omega
  | plain _ _ _ _ _ ih => omega

/-- A path that starts within the text ends within it, as each of its steps does. -/
theorem le_size (h : Nests b i d j e) (hi : i ≤ b.size) : j ≤ b.size := by
  induction h with
  | refl => exact hi
  | inert h _ ih => exact ih (le_of_inertStop h)
  | opening _ h _ ih => exact ih (Bytes.lt_size_of_satAt (satAt_of_opensAt h))
  | closing _ h _ ih => exact ih (Bytes.lt_size_of_satAt (satAt_of_closesAt h))
  | plain hlt _ _ _ _ ih => exact ih hlt

end Nests

/-! ### Stretches without brackets -/

/-- The characters that a reader who counts brackets takes notice of. -/
def Byte.isMark (c : Byte) : Bool :=
  c.among ['/', '\'', '"', '`', '(', '[', '{', '<', ')', ']', '}', '>']

/-- A class has no mark in it if none of the twelve characters belongs to it, which is a
computation. -/
theorem Byte.excludes_isMark {p : Byte → Bool}
    (h : ['/', '\'', '"', '`', '(', '[', '{', '<', ')', ']', '}', '>'].all
      (fun ch => !p (ofChar ch)) = true) : Excludes p isMark :=
  excludes_among h

section Flat

variable {b : Bytes} {i j : Nat} {p : Byte → Bool}

/-- A byte that is no mark starts no literal and is no bracket, however angle brackets are read. The
classes that the search asks for hold marks only, and the two angle brackets are marks. -/
theorem plain_of_not_isMark (h : b.satAt i p = true) (hp : Byte.Excludes p Byte.isMark)
    (reading : Reading) :
    inertStop b i = none ∧ opensAt b reading i = false ∧ closesAt b reading i = false := by
  -- the marks are the openers of literals and the brackets, so none of these stands at `i`
  have hmark := Bytes.satAt_eq_false h hp
  have hnot {chars : List Char} (hall : chars.all (fun ch => (Byte.ofChar ch).isMark) = true) :
      b.satAt i (·.among chars) = false := by
    rw [Bool.eq_false_iff]
    intro hat
    rw [Bytes.satAt_of_among chars hat hall] at hmark
    simp at hmark
  have hangle {ch : Char} (hch : (Byte.ofChar ch).isMark = true) : b.isAt i ch = false := by
    rw [Bool.eq_false_iff]
    intro hat
    rw [Bytes.satAt_of_isAt hat, hch] at hmark
    simp at hmark
  refine ⟨inertStop_eq_none (hnot rfl), ?_, ?_⟩
  · have hopener : b.satAt i Byte.isOpener = false := hnot rfl
    rw [opensAt, hopener, hangle rfl, Bool.and_false, Bool.or_false]
  · have hcloser : b.satAt i Byte.isCloser = false := hnot rfl
    rw [closesAt, hcloser, hangle rfl, Bool.and_false, Bool.false_and, Bool.or_false]

/-- The step over one byte that is no mark. -/
theorem nests_succ (h : b.satAt i p = true) (hp : Byte.Excludes p Byte.isMark) (d : Nat) :
    Nests b i d (i + 1) d := by
  obtain ⟨hinert, hopen, hclose⟩ := plain_of_not_isMark h hp .type
  exact .plain (Bytes.lt_size_of_satAt h) hinert hopen hclose (.refl _ _)

theorem nests_isAt {ch : Char} (h : b.isAt i ch = true) (hch : (Byte.ofChar ch).isMark = false)
    (d : Nat) : Nests b i d (i + 1) d :=
  nests_succ (p := (·.is ch)) h (fun _ hc => (Byte.apply_of_is hc Byte.isMark).trans hch) d

/-- **A stretch without marks changes no count.** By induction on its end, with one step over the
last byte of the stretch. -/
theorem nests_of_satAt (hij : i ≤ j) (h : ∀ k, i ≤ k → k < j → b.satAt k p = true)
    (hp : Byte.Excludes p Byte.isMark) (d : Nat) : Nests b i d j d := by
  induction j with
  | zero =>
    obtain rfl : i = 0 := by omega
    exact .refl 0 d
  | succ n ih =>
    by_cases heq : i = n + 1
    · exact heq ▸ .refl i d
    · have hin : i ≤ n := by omega
      exact (ih hin fun k hk hkn => h k hk (by omega)).trans
        (nests_succ (h n hin (Nat.lt_succ_self n)) hp d)

/-- Skipping over a class that has no mark in it changes no count, since all that is skipped over is
of the class. -/
private theorem nests_skipWhile (i : Nat) (hp : Byte.Excludes p Byte.isMark) (d : Nat) :
    Nests b i d (b.skipWhile p i) d :=
  nests_of_satAt (b.le_skipWhile p i) (fun _ hk hlt => Bytes.satAt_of_lt_skipWhile hk hlt) hp d

theorem nests_skipSpace (b : Bytes) (i d : Nat) : Nests b i d (b.skipSpace i) d :=
  nests_skipWhile i (Byte.excludes_isMark rfl) d

theorem nests_skipBlanks (b : Bytes) (i d : Nat) : Nests b i d (b.skipBlanks i) d :=
  nests_skipWhile i (Byte.excludes_isMark rfl) d

/-- A name changes no count. Where no name starts, nothing is passed over. -/
theorem nests_nameStop (b : Bytes) (i d : Nat) : Nests b i d (nameStop b i) d := by
  unfold nameStop
  split
  · exact nests_skipWhile i (Byte.excludes_isMark rfl) d
  · exact .refl i d

/-- A word whose bytes are no marks changes nothing. All its bytes are of one class, and the class
has no mark in it. -/
private theorem nests_of_hasAt {w : String} (h : b.hasAt i w = true)
    (hw : (Bytes.ofString w).toList.all p = true) (hp : Byte.Excludes p Byte.isMark) (d : Nat) :
    Nests b i d (i + (Bytes.ofString w).size) d := by
  refine nests_of_satAt (p := p) (by omega) (fun k hk hlt => ?_) hp d
  have := Bytes.satAt_of_hasAt h (k := k - i) (by omega) hw
  rwa [Nat.add_sub_cancel' hk] at this

/-- A keyword changes no count, since it consists of letters. -/
theorem nests_keyword {w : String} (h : keywordAt b i w = true)
    (hw : (Bytes.ofString w).toList.all Byte.isLetter = true) (d : Nat) :
    Nests b i d (i + (Bytes.ofString w).size) d :=
  nests_of_hasAt (hasAt_of_keywordAt h) hw (Byte.excludes_isMark rfl) d

/-- **Whitespace and comments change no count.** The induction follows the skipping: a stretch of
whitespace is flat, and a comment is one inert step. -/
theorem nests_skipTrivia (b : Bytes) (i d : Nat) : Nests b i d (skipTrivia b i) d := by
  fun_induction skipTrivia b i with
  | case1 i => exact nests_skipSpace b i d
  | case2 i l hl hcomment ih =>
    have hkind : l.kind ≠ .regex := by
      intro hregex
      rw [hregex] at hcomment
      simp [LiteralKind.isComment] at hcomment
    exact (nests_skipSpace b i d).trans (.inert (inertStop_of_literalAt hl hkind) ih)
  | case3 i => exact nests_skipSpace b i d

end Flat

/-! ### Groups -/

section Groups

variable {b : Bytes} {i j : Nat}

/-- The step over an opening bracket, which is never the start of a literal. -/
theorem nests_opensAt (h : opensAt b .type i = true) (d : Nat) : Nests b i d (i + 1) (d + 1) :=
  .opening (inertStop_eq_none (Bytes.satAt_eq_false (satAt_of_opensAt h)
    (Byte.excludes_opensInert rfl))) h (.refl _ _)

theorem nests_closesAt (h : closesAt b .type i = true) (d : Nat) : Nests b i (d + 1) (i + 1) d :=
  .closing (inertStop_eq_none (Bytes.satAt_eq_false (satAt_of_closesAt h)
    (Byte.excludes_opensInert rfl))) h (.refl _ _)

/-- The head of an arrow is no bracket. It is the one closing angle bracket that the reading of
types leaves out, and it opens nothing. -/
theorem nests_arrowHead (h : b.isAt i '>' = true) (hbefore : b.isBefore i '=' = true) (d : Nat) :
    Nests b i d (i + 1) d := by
  have hopen : opensAt b .type i = false := by
    rw [opensAt, Bytes.isAt_eq_satAt, Bytes.satAt_of_isAt h, Bytes.satAt_of_isAt h]
    rfl
  have hclose : closesAt b .type i = false := by
    rw [closesAt_type, Bytes.satAt_of_isAt h, hbefore, Bool.not_true, Bool.and_false]
    rfl
  have hnone : inertStop b i = none :=
    inertStop_eq_none ((Bytes.satAt_of_isAt h Byte.opensInert).trans rfl)
  exact .plain (Bytes.lt_size_of_isAt h) hnone hopen hclose (.refl _ _)

/-- **The path leads from `i` to `j`** without closing a bracket that was open at `i`, and at `j`
all that it opened is closed, unless the text ends there. -/
def Balances (b : Bytes) (i j : Nat) : Prop :=
  ∃ e, Nests b i 0 j e ∧ (e = 0 ∨ j = b.size)

theorem Nests.balances (h : Nests b i 0 j 0) : Balances b i j :=
  ⟨0, h, .inl rfl⟩

/-- Before the end of the text, a balanced path has closed all that it opened. -/
theorem Balances.nests (h : Balances b i j) (hj : j < b.size) : Nests b i 0 j 0 := by
  obtain ⟨e, he, rfl | rfl⟩ := h
  · exact he
  · omega

/-- A path that opens nothing may come before a balanced one. -/
theorem Nests.trans_balances {k : Nat} (h : Nests b i 0 j 0) (h' : Balances b j k) :
    Balances b i k := by
  obtain ⟨e, he, hend⟩ := h'
  exact ⟨e, h.trans he, hend⟩

/-- **A search counts its brackets**: where it stops before the end of the text, none is open. The
induction follows the search, whose steps are those of the path. -/
theorem nests_findStopFrom {stop : Nat → Bool} {d : Nat} (hi : i ≤ b.size) :
    ∃ e, Nests b i d (findStopFrom b .type stop d i) e ∧
      (e = 0 ∨ findStopFrom b .type stop d i = b.size) := by
  fun_induction findStopFrom b .type stop d i with
  | case1 d i _ hstop =>
    -- the search stops outside of all groups
    exact ⟨d, .refl i d, .inl hstop.1⟩
  | case2 d i _ _ next hnext ih =>
    obtain ⟨e, he, hend⟩ := ih (le_of_inertStop hnext)
    exact ⟨e, .inert hnext he, hend⟩
  | case3 d i hlt _ hnone hopen ih =>
    obtain ⟨e, he, hend⟩ := ih hlt
    exact ⟨e, .opening hnone hopen he, hend⟩
  | case4 i =>
    -- a closing bracket that nothing opened
    exact ⟨0, .refl i 0, .inl rfl⟩
  | case5 d i hlt _ hnone _ hclose hd ih =>
    obtain ⟨e, he, hend⟩ := ih hlt
    refine ⟨e, ?_, hend⟩
    have := Nests.closing hnone hclose he
    rwa [Nat.sub_add_cancel (Nat.pos_of_ne_zero hd)] at this
  | case6 d i hlt _ hnone hopen hclose ih =>
    obtain ⟨e, he, hend⟩ := ih hlt
    refine ⟨e, .plain hlt hnone ?_ ?_ he, hend⟩
    · exact Bool.eq_false_iff.mpr hopen
    · exact Bool.eq_false_iff.mpr hclose
  | case7 d i hlt =>
    obtain rfl : i = b.size := by omega
    exact ⟨d, .refl _ d, .inr rfl⟩

theorem balances_findStop (stop : Nat → Bool) (hi : i ≤ b.size) :
    Balances b i (findStop b .type stop i) :=
  nests_findStopFrom hi

/-- **A group is passed over whole**, from its opening bracket to behind the bracket that the search
finds. The path is that of the search inside, lifted by the bracket that is open around it, between
the two brackets. -/
theorem nests_group (hopen : opensAt b .type i = true)
    (hclose : findClose b .type (i + 1) < b.size) (d : Nat) :
    Nests b i d (findClose b .type (i + 1) + 1) d := by
  have hi := Bytes.lt_size_of_satAt (satAt_of_opensAt hopen)
  -- inside of the group, `d + 1` brackets are open
  have hbody := ((balances_findStop (fun _ => false) hi).nests hclose).lift (d + 1)
  rw [Nat.zero_add] at hbody
  -- without a condition to stop at, the search can only have come to a closing bracket
  rcases findStopFrom_spec hclose with hstop | hat
  · simp at hstop
  · exact ((nests_opensAt hopen d).trans hbody).trans (nests_closesAt hat d)

/-- A group that never closes runs to the end of the text. The path is the one of `nests_group`
without its last step. -/
theorem nests_open_group (hopen : opensAt b .type i = true)
    (hclose : ¬ findClose b .type (i + 1) < b.size) (d : Nat) : ∃ e, Nests b i d b.size e := by
  have hi := Bytes.lt_size_of_satAt (satAt_of_opensAt hopen)
  obtain ⟨e, he, -⟩ := balances_findStop (fun _ => false) hi
  have heq : findStop b .type (fun _ => false) (i + 1) = b.size :=
    Nat.le_antisymm (findStop_le _ _ _ _) (Nat.le_of_not_lt hclose)
  rw [heq] at he
  have hbody := he.lift (d + 1)
  rw [Nat.zero_add] at hbody
  exact ⟨_, (nests_opensAt hopen d).trans hbody⟩

end Groups

/-! ### The text of a range alone -/

section Slice

variable {b : Bytes} {i j m next : Nat}

/-- A byte of a slice is the byte of the text that it was cut from. -/
private theorem Bytes.satAt_slice {p : Byte → Bool} (hm : m < (b.slice i j).size) :
    (b.slice i j).satAt m p = b.satAt (i + m) p :=
  satAt_congr (getElem?_slice hm) p

/-- What holds of a byte of a slice holds of the byte of the text. -/
private theorem Bytes.satAt_of_satAt_slice {p : Byte → Bool} (h : (b.slice i j).satAt m p = true) :
    b.satAt (i + m) p = true :=
  (satAt_slice (lt_size_of_satAt h)).symm.trans h

/-- A slice opens no literal where the text opens none. Each way in which the slice may open one
shows in the same one or two bytes of the text. -/
private theorem inertStop_slice_eq_none (h : inertStop b (i + m) = none) :
    inertStop (b.slice i j) m = none := by
  rw [Option.eq_none_iff_forall_ne_some] at h ⊢
  intro stop hstop
  cases inertStop_eq_some_iff.mp hstop with
  | line hfst hsnd =>
    exact h _ (inertStop_eq_some_iff.mpr (.line (Bytes.satAt_of_satAt_slice hfst)
      (Bytes.satAt_of_satAt_slice (m := m + 1) hsnd)))
  | block hfst hsnd =>
    exact h _ (inertStop_eq_some_iff.mpr (.block (Bytes.satAt_of_satAt_slice hfst)
      (Bytes.satAt_of_satAt_slice (m := m + 1) hsnd)))
  | quoted hc hquote =>
    rw [Bytes.getElem?_slice (Array.getElem?_eq_some_iff.mp hc).1] at hc
    exact h _ (inertStop_eq_some_iff.mpr (.quoted hc hquote))

/-- The end of a delimited literal in a slice: where it ends in the text, or where the slice does.
Here `close` is the search for its closing delimiter. A delimiter within the slice closes the
literal in both texts, so that both searches agree unless the text's delimiter lies behind the
slice. -/
private theorem closeStop_slice {close : Bytes → Nat → Option Nat}
    (hbound : ∀ {b : Bytes} {j stop : Nat}, close b j = some stop → j < stop ∧ stop ≤ b.size)
    (hclose : ∀ {b b' : Bytes} {j m stop : Nat}, close b j = some stop →
      (∀ k, j + k < stop → b[j + k]? = b'[m + k]?) → close b' m = some (m + (stop - j)))
    (hj : j ≤ b.size) (h : (close b (i + m)).getD b.size = next) :
    (close (b.slice i j) m).getD (b.slice i j).size = min next j - i := by
  have hsize : (b.slice i j).size = j - i := Bytes.size_slice hj
  cases ht : close (b.slice i j) m with
  | some stop =>
    have hstop := hbound ht
    -- the literal is closed within the slice, and the text has the same bytes there
    have hwhole : close b (i + m) = some (i + m + (stop - m)) := hclose ht fun k hk => by
      rw [Bytes.getElem?_slice (by omega), Nat.add_assoc]
    rw [hwhole, Option.getD_some] at h
    rw [Option.getD_some]
    omega
  | none =>
    rw [Option.getD_none, hsize]
    suffices hle : j ≤ next by rw [Nat.min_eq_right hle]
    apply Nat.le_of_not_lt
    intro hlt
    cases hb : close b (i + m) with
    | none =>
      rw [hb, Option.getD_none] at h
      omega
    | some stop =>
      -- a delimiter before the end of the slice closes the literal in the slice too
      rw [hb, Option.getD_some] at h
      subst h
      have hpart : close (b.slice i j) m = some (m + (stop - (i + m))) := hclose hb fun k hk => by
        rw [Bytes.getElem?_slice (by omega), Nat.add_assoc]
      simp [ht] at hpart

/-- **A literal that the end of a slice cuts within whitespace ends with the slice**, and any other
is the same in the slice. A cut within the two opening bytes of a comment is ruled out, because its
second byte is no whitespace. From there on each kind ends as its search for a closing delimiter
does (`closeStop_slice`). -/
theorem inertStop_slice (h : inertStop b (i + m) = some next) (hm : i + m < j) (hj : j ≤ b.size)
    (hspace : ∀ k, j ≤ k → k < next → b.satAt k Byte.isSpace = true) :
    inertStop (b.slice i j) m = some (min next j - i) := by
  have hsize : (b.slice i j).size = j - i := Bytes.size_slice hj
  have hat {k : Nat} (hk : i + k < j) (p : Byte → Bool) :
      (b.slice i j).satAt k p = b.satAt (i + k) p := Bytes.satAt_slice (by omega)
  -- the second byte of a comment is no whitespace, so it is not cut off
  have hsecond (hslash : b.isAt (i + m) '/' = true) : i + (m + 1) < j := by
    have hcomment := comment_of_inertStop h hslash
    apply Nat.lt_of_not_le
    intro hle
    have hblank := hspace (i + m + 1) (by omega) (by omega)
    rw [Bytes.satAt_eq_false hcomment.2 (Byte.excludes_isSpace rfl)] at hblank
    simp at hblank
  rw [inertStop_eq_some_iff]
  cases inertStop_eq_some_iff.mp h with
  | line hfst hsnd =>
    have hlt := hsecond hfst
    -- a line comment that is cut ends with the slice, any other at the same line break
    have hstop : (b.slice i j).skipWhile (fun c => !c.is '\n') (m + 2) =
        min (b.skipWhile (fun c => !c.is '\n') (i + m + 2)) j - i := by
      have hle := b.le_skipWhile (fun c => !c.is '\n') (i + m + 2)
      refine Bytes.skipWhile_eq (by omega) (fun k hk hkn => ?_) ?_
      · rw [hat (by omega)]
        exact Bytes.satAt_of_lt_skipWhile (i := i + m + 2) (by omega) (by omega)
      · by_cases hcut : b.skipWhile (fun c => !c.is '\n') (i + m + 2) < j
        · rw [Nat.min_eq_left (Nat.le_of_lt hcut), hat (by omega), Nat.add_sub_cancel' (by omega)]
          exact b.satAt_skipWhile _ _
        · exact Bytes.satAt_eq_false_of_size_le (by omega)
    rw [← hstop]
    exact .line ((hat hm _).trans hfst) ((hat hlt _).trans hsnd)
  | block hfst hsnd =>
    have hlt := hsecond hfst
    have hstop := closeStop_slice (i := i) (m := m + 2)
      (fun h => ⟨Nat.lt_of_lt_of_le (by omega) (bounds_of_blockClose h).1,
        (bounds_of_blockClose h).2⟩) blockClose_congr hj rfl
    rw [Nat.add_assoc, ← hstop]
    exact .block ((hat hm _).trans hfst) ((hat hlt _).trans hsnd)
  | @quoted c hc hquote =>
    have hstop := closeStop_slice (i := i) (m := m + 1)
      (fun (h : quoteClose _ c _ = some _) => bounds_of_quoteClose h) quoteClose_congr hj rfl
    rw [Nat.add_assoc, ← hstop]
    exact .quoted ((Bytes.getElem?_slice (by omega)).trans hc) hquote

end Slice

/-! ### Enclosed ranges -/

/-- **The bytes from `i` to `j` close no bracket that they do not open**, and leave none open. If
some bracket stays open, only whitespace follows in the text. -/
structure Enclosed (b : Bytes) (i j : Nat) : Prop where
  head : b.isAt i '>' = false
  path : ∃ w, Balances b i w ∧ j ≤ w ∧ ∀ k, j ≤ k → k < w → b.satAt k Byte.isSpace = true

/-- What a balanced path passes over is enclosed. Nothing is left off at its end. -/
theorem Balances.enclosed {b : Bytes} {i j : Nat} (h : Balances b i j)
    (hhead : b.isAt i '>' = false) : Enclosed b i j :=
  ⟨hhead, j, h, Nat.le_refl j, fun k _ _ => by omega⟩

theorem Balances.enclosed_trimEnd {b : Bytes} {i j : Nat} (h : Balances b i j)
    (hhead : b.isAt i '>' = false) (start : Nat) : Enclosed b i (b.trimEnd start j) :=
  ⟨hhead, j, h, b.trimEnd_le start j, fun _ hk hlt => Bytes.isSpace_of_trimEnd_le hk hlt⟩

/-- A statement with its semicolon is enclosed: the semicolon is one more plain step of the path. A
statement without one is trimmed. -/
theorem Balances.enclosed_statementStop {b : Bytes} {i j : Nat} (h : Balances b i j)
    (hhead : b.isAt i '>' = false) (start : Nat) : Enclosed b i (statementStop b start j) := by
  unfold statementStop
  split
  · rename_i hsemi
    exact ((h.nests (Bytes.lt_size_of_isAt hsemi)).trans (nests_isAt hsemi rfl 0)).balances.enclosed
      hhead
  · exact h.enclosed_trimEnd hhead start

/-- The first byte of a range has nothing before it in the text of the range alone, which matters
only for the head of an arrow. -/
private theorem Bytes.bracketAt_slice {b : Bytes} {i j m : Nat} (hhead : b.isAt i '>' = false)
    (hm : m < (b.slice i j).size) : (b.slice i j).bracketAt m = b.bracketAt (i + m) := by
  have hangle : ((b.slice i j).isAt m '>' && !(b.slice i j).isBefore m '=') =
      (b.isAt (i + m) '>' && !b.isBefore (i + m) '=') := by
    -- only the first byte of the slice has lost the byte before it
    cases m with
    | zero => rw [isAt_eq_satAt, satAt_slice hm, ← isAt_eq_satAt, Nat.add_zero, hhead]; rfl
    | succ n =>
      have hbefore : (b.slice i j).isBefore (n + 1) '=' = b.isBefore (i + (n + 1)) '=' := by
        rw [isBefore, isBefore, isAt_eq_satAt, isAt_eq_satAt, Nat.add_sub_cancel,
          satAt_slice (by omega), ← Nat.add_assoc, Nat.add_sub_cancel]
        simp
      rw [isAt_eq_satAt, satAt_slice hm, hbefore]
      rfl
  unfold bracketAt
  rw [satAt_slice hm, satAt_slice hm, hangle]

/-- Ink before `w` stands before the whitespace that ends there. -/
private theorem lt_of_ink {b : Bytes} {j w p : Nat} {q : Byte → Bool}
    (hspace : ∀ k, j ≤ k → k < w → b.satAt k Byte.isSpace = true) (hpw : p < w)
    (hp : b.satAt p q = true) (hq : Byte.Excludes Byte.isSpace q) : p < j := by
  apply Nat.lt_of_not_le
  intro hjp
  rw [Bytes.satAt_eq_false (hspace p hjp hpw) hq] at hp
  simp at hp

/-- The depths along a path, counted in the slice that ends with it or within the whitespace before
its end. By induction on the path. Within the slice its steps are those of the count; behind the
slice there is only whitespace, so that the steps there open and close nothing. -/
private theorem Nests.depths_slice {b : Bytes} {i j p d w e : Nat} (h : Nests b p d w e)
    (hip : i ≤ p) (hj : j ≤ b.size) (hjw : j ≤ w) (hhead : b.isAt i '>' = false)
    (hspace : ∀ k, j ≤ k → k < w → b.satAt k Byte.isSpace = true) :
    (∀ n ∈ (b.slice i j).bracketDepths d (p - i), 0 ≤ n) ∧
      ((b.slice i j).bracketDepths d (p - i)).getLastD d = e := by
  have hsize : (b.slice i j).size = j - i := Bytes.size_slice hj
  have hend {p : Nat} (hp : j ≤ p) (d : Int) : (b.slice i j).bracketDepths d (p - i) = [] :=
    Bytes.bracketDepths_of_size_le (by omega) d
  -- one byte that opens no literal, after which `d'` brackets are open
  have hbyte {p d d' : Nat} (hip : i ≤ p) (hpj : p < j) (hnone : inertStop b p = none)
      (hd : (d : Int) + b.bracketAt p = d')
      (ih : (∀ n ∈ (b.slice i j).bracketDepths d' (p + 1 - i), 0 ≤ n) ∧
        ((b.slice i j).bracketDepths d' (p + 1 - i)).getLastD d' = e) :
      (∀ n ∈ (b.slice i j).bracketDepths d (p - i), 0 ≤ n) ∧
        ((b.slice i j).bracketDepths d (p - i)).getLastD d = e := by
    obtain ⟨m, rfl⟩ : ∃ m, p = i + m := ⟨p - i, by omega⟩
    rw [Nat.add_sub_cancel_left,
      Bytes.bracketDepths_byte (by omega) (inertStop_slice_eq_none hnone),
      Bytes.bracketAt_slice hhead (by omega), hd]
    rw [show i + m + 1 - i = m + 1 by omega] at ih
    refine ⟨fun n hn => ?_, ?_⟩
    · rcases List.mem_cons.mp hn with rfl | hn
      · exact Int.natCast_nonneg d'
      · exact ih.1 n hn
    · rw [List.getLastD_cons]
      exact ih.2
  -- a step of the path within the slice is a step of the count, and a step behind it is whitespace
  induction h with
  | refl p d =>
    rw [hend hjw]
    exact ⟨fun n hn => by simp at hn, rfl⟩
  | @inert p d next w e hstop tail ih =>
    have hlt := lt_of_inertStop hstop
    have hle := tail.le
    -- a literal starts with ink, so its start lies within the slice
    have hpj : p < j := lt_of_ink hspace (by omega) (inertStop_eq_some_iff.mp hstop).opensInert
      (Byte.excludes_opensInert rfl)
    obtain ⟨m, rfl⟩ : ∃ m, p = i + m := ⟨p - i, by omega⟩
    have hcut := inertStop_slice hstop hpj hj fun k hk hkn => hspace k hk (by omega)
    rw [Nat.add_sub_cancel_left, Bytes.bracketDepths_inert hcut]
    have hrest := ih (by omega) hjw hspace hbyte
    by_cases hnext : next ≤ j
    · rw [Nat.min_eq_left hnext]
      exact hrest
    · -- the literal is cut: nothing is left of the slice, and the rest of the path opens nothing
      rw [hend (by omega)] at hrest
      rw [Nat.min_eq_right (by omega), hend (Nat.le_refl j)]
      exact hrest
  | @opening p d w e hnone hopen tail ih =>
    have hle := tail.le
    have hpj : p < j := lt_of_ink hspace (by omega) (satAt_of_opensAt hopen)
      (Byte.excludes_among rfl)
    exact hbyte hip hpj hnone (by rw [Bytes.bracketAt_of_opensAt hopen]; rfl)
      (ih (by omega) hjw hspace hbyte)
  | @closing p d w e hnone hclose tail ih =>
    have hle := tail.le
    have hpj : p < j := lt_of_ink hspace (by omega) (satAt_of_closesAt hclose)
      (Byte.excludes_among rfl)
    exact hbyte hip hpj hnone (by rw [Bytes.bracketAt_of_closesAt hclose]; omega)
      (ih (by omega) hjw hspace hbyte)
  | @plain p d w e hi hnone hopen hclose tail ih =>
    have hrest := ih (by omega) hjw hspace hbyte
    by_cases hpj : p < j
    · exact hbyte hip hpj hnone (by rw [Bytes.bracketAt_of_not hopen hclose, Int.add_zero]) hrest
    · rw [hend (by omega)] at hrest ⊢
      exact hrest

/-- **The bracket depths of an enclosed range**, over its text alone, are never negative, and the
last one is zero unless only whitespace follows. This is `Nests.depths_slice` for the path that the
range is enclosed by. -/
theorem Enclosed.depths {b : Bytes} {i j : Nat} (h : Enclosed b i j) (hj : j ≤ b.size) :
    (∀ n ∈ (b.slice i j).bracketDepths 0 0, 0 ≤ n) ∧
      (((b.slice i j).bracketDepths 0 0).getLastD 0 = 0 ∨
        ∀ k, j ≤ k → k < b.size → b.satAt k Byte.isSpace = true) := by
  -- the path may go on behind the range, but only over whitespace
  obtain ⟨w, ⟨e, hnests, hend⟩, hjw, hspace⟩ := h.path
  have hdepths := hnests.depths_slice (Nat.le_refl i) hj hjw h.head hspace
  rw [Nat.sub_self] at hdepths
  refine ⟨hdepths.1, ?_⟩
  rcases hend with rfl | rfl
  · exact .inl hdepths.2
  · exact .inr hspace

end TypeErasure
