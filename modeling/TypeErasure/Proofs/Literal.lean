import TypeErasure.Delimiter

/-!
# Inert literals

Strings, templates and comments, the literals that `inertStop` steps over. `InertAt` gives their
ends by kind, and every fact about them is one case for each. Unlike a regular expression, an inert
literal depends on nothing to the left of it (`inertStop_append_right`), and on nothing to the right
of it unless it is a line comment or lacks its closing delimiter (`inertStop_congr`).

The classes that matter are given by lists of characters, so that facts about them are decided by
trying those: a class that holds none of the characters excludes the list (`Byte.excludes_among`).
-/

namespace TypeErasure

/-! ### Byte classes -/

namespace Byte

/-- A byte that can open a string, a template or a comment. -/
def opensInert (c : Byte) : Bool :=
  c.among ['/', '\'', '"', '`']

/-- The byte that encodes an ASCII character. -/
def ofChar (ch : Char) : Byte :=
  UInt8.ofNat ch.toNat

/-- The character that a byte encodes decides all its classes: the byte is the one that encodes the
character, and a class is a function of the byte. -/
theorem apply_of_is {c : Byte} {ch : Char} (h : c.is ch = true) (q : Byte → Bool) :
    q c = q (ofChar ch) := by
  rw [is, beq_iff_eq] at h
  rw [ofChar, ← h, UInt8.ofNat_toNat]

/-- No byte is in both classes. -/
def Excludes (p q : Byte → Bool) : Prop :=
  ∀ c, p c = true → q c = false

/-- **A class excludes the characters that it does not hold.** A byte of both classes would encode
one of the characters, and that character was tried. -/
theorem excludes_among {p : Byte → Bool} {chars : List Char}
    (h : chars.all (fun ch => !p (ofChar ch)) = true) : Excludes p (·.among chars) := by
  intro c hp
  show chars.any c.is = false
  rw [List.any_eq_false]
  intro ch hch his
  have hnot := List.all_eq_true.mp h ch hch
  rw [← apply_of_is his p, hp] at hnot
  simp at hnot

/-- A class without slash, quotes and backtick opens no inert literal. The hypothesis is closed and
left to evaluation. -/
theorem excludes_opensInert {p : Byte → Bool}
    (h : ['/', '\'', '"', '`'].all (fun ch => !p (ofChar ch)) = true) : Excludes p opensInert :=
  excludes_among h

/-- A class without the five whitespace characters holds no whitespace. The hypothesis is closed and
left to evaluation. -/
theorem excludes_isSpace {p : Byte → Bool}
    (h : [' ', '\t', '\n', '\x0c', '\r'].all (fun ch => !p (ofChar ch)) = true) :
    Excludes p isSpace :=
  excludes_among h

end Byte

/-- The nearest earlier offset that satisfies a condition is followed by none that does. By
induction on the bound; `lastBelow_lt` says the rest, that the offset lies below the bound. -/
theorem lastBelow_spec {p : Nat → Bool} {i k : Nat} (h : lastBelow p i = some k) :
    p k = true ∧ ∀ j, k < j → j < i → p j = false := by
  induction i with
  | zero => simp [lastBelow] at h
  | succ n ih =>
    rw [lastBelow] at h
    split at h
    · rename_i hn
      obtain rfl := Option.some.inj h
      exact ⟨hn, fun j hkj hj => by omega⟩
    · rename_i hn
      obtain ⟨hk, hnone⟩ := ih h
      refine ⟨hk, fun j hkj hj => ?_⟩
      by_cases heq : j = n
      · rw [heq, Bool.eq_false_iff]
        exact hn
      · exact hnone j hkj (by omega)

namespace Bytes

/-- A character at an offset is a class of one character, so that lemmas on classes apply to it. -/
theorem isAt_eq_satAt (b : Bytes) (i : Nat) (ch : Char) : b.isAt i ch = b.satAt i (·.is ch) := rfl

theorem satAt_of_getElem? {b : Bytes} {i : Nat} {c : Byte} (h : b[i]? = some c) (p : Byte → Bool) :
    b.satAt i p = p c := by
  rw [satAt, h, Option.any_some]

theorem satAt_mono {b : Bytes} {i : Nat} {p q : Byte → Bool} (h : b.satAt i p = true)
    (hpq : ∀ c, p c = true → q c = true) : b.satAt i q = true := by
  rw [satAt, Option.any_eq_true] at h ⊢
  obtain ⟨c, hc, hp⟩ := h
  exact ⟨c, hc, hpq c hp⟩

/-- A byte of one class is not of another, if the classes exclude each other. -/
theorem satAt_eq_false {b : Bytes} {i : Nat} {p q : Byte → Bool} (h : b.satAt i p = true)
    (hpq : Byte.Excludes p q) : b.satAt i q = false := by
  rw [satAt, Option.any_eq_true] at h
  obtain ⟨c, hc, hp⟩ := h
  rw [satAt_of_getElem? hc, hpq c hp]

/-- The character at an offset decides all classes of its byte. -/
theorem satAt_of_isAt {b : Bytes} {i : Nat} {ch : Char} (h : b.isAt i ch = true)
    (q : Byte → Bool) : b.satAt i q = q (Byte.ofChar ch) := by
  rw [isAt, Option.any_eq_true] at h
  obtain ⟨c, hc, his⟩ := h
  rw [satAt_of_getElem? hc]
  exact Byte.apply_of_is his q

/-- A byte of a class is no character outside of it. Unlike `satAt_eq_false` this needs a single
evaluation of the class. -/
theorem isAt_eq_false {b : Bytes} {i : Nat} {ch : Char} {p : Byte → Bool} (h : b.satAt i p = true)
    (hch : p (Byte.ofChar ch) = false) : b.isAt i ch = false := by
  rw [Bool.eq_false_iff]
  intro his
  rw [satAt_of_isAt his, hch] at h
  simp at h

/-- Within the text a test and its negation differ; beyond the end both fail. -/
theorem satAt_not {b : Bytes} {i : Nat} {p : Byte → Bool} (hi : i < b.size) :
    b.satAt i (fun c => !p c) = !b.satAt i p := by
  rw [satAt, satAt, Array.getElem?_eq_getElem hi, Option.any_some, Option.any_some]

theorem satAt_eq_false_of_size_le {b : Bytes} {i : Nat} {p : Byte → Bool} (h : b.size ≤ i) :
    b.satAt i p = false := by
  rw [satAt, Array.getElem?_eq_none h, Option.any_none]

/-- Two places that hold the same byte, or both none, pass the same tests. -/
theorem satAt_congr {b b' : Bytes} {i m : Nat} (h : b[i]? = b'[m]?) (p : Byte → Bool) :
    b.satAt i p = b'.satAt m p := by
  rw [satAt, satAt, h]

/-- Two places that hold the same byte hold the same character. -/
theorem isAt_congr {b b' : Bytes} {i m : Nat} (h : b[i]? = b'[m]?) (ch : Char) :
    b.isAt i ch = b'.isAt m ch :=
  satAt_congr h _

/-- If two places hold the same byte and one lies within its text, the other does too. -/
theorem lt_size_congr {b b' : Bytes} {i m : Nat} (h : b[i]? = b'[m]?) (hi : i < b.size) :
    m < b'.size := by
  rw [Array.getElem?_eq_getElem hi] at h
  exact (Array.getElem?_eq_some_iff.mp h.symm).1

/-- The bytes of the second of two texts, counted from the end of the first. -/
theorem getElem?_append_add (x y : Bytes) (k : Nat) : (x ++ y)[x.size + k]? = y[k]? := by
  rw [Array.getElem?_append_right (Nat.le_add_right _ _), Nat.add_sub_cancel_left]

/-! ### Where a run ends -/

/-- A run of bytes ends at the end of the text or at a byte outside of the class. The induction
follows the run. -/
theorem satAt_skipWhile (b : Bytes) (p : Byte → Bool) (i : Nat) :
    b.satAt (b.skipWhile p i) p = false := by
  fun_induction b.skipWhile p i with
  | case1 _ _ _ ih => exact ih
  | case2 i hi hp => simpa [satAt, Array.getElem?_eq_getElem hi] using hp
  | case3 i hi => exact satAt_eq_false_of_size_le (by omega)

/-- All bytes of a run are of its class. The induction follows the run; the first byte has been
tested, and the others belong to the rest of the run. -/
theorem satAt_of_lt_skipWhile {b : Bytes} {p : Byte → Bool} {i k : Nat} (hik : i ≤ k)
    (hk : k < b.skipWhile p i) : b.satAt k p = true := by
  fun_induction b.skipWhile p i with
  | case1 i hi hp ih =>
    by_cases heq : k = i
    · subst heq
      simpa [satAt, Array.getElem?_eq_getElem hi] using hp
    · exact ih (by omega) hk
  | case2 => omega
  | case3 => omega

/-- A run of bytes is known from where it ends. Together with `satAt_skipWhile` and
`satAt_of_lt_skipWhile` this characterises runs, so that later proofs do not unfold them. -/
theorem skipWhile_eq {b : Bytes} {p : Byte → Bool} {i j : Nat} (hij : i ≤ j)
    (hrun : ∀ k, i ≤ k → k < j → b.satAt k p = true) (hend : b.satAt j p = false) :
    b.skipWhile p i = j := by
  -- the run can end neither before `j`, where the class still holds, nor behind it
  rcases Nat.lt_trichotomy (b.skipWhile p i) j with hlt | heq | hgt
  · have hin := hrun _ (b.le_skipWhile p i) hlt
    rw [satAt_skipWhile] at hin
    simp at hin
  · exact heq
  · rw [satAt_of_lt_skipWhile hij hgt] at hend
    simp at hend

/-- What trimming takes away is whitespace. By induction on the end: a step back is made only over
whitespace. -/
theorem isSpace_of_trimEnd_le {b : Bytes} {start stop k : Nat} (hk : b.trimEnd start stop ≤ k)
    (hstop : k < stop) : b.satAt k Byte.isSpace = true := by
  induction stop with
  | zero => omega
  | succ n ih =>
    rw [trimEnd] at hk
    split at hk
    · rename_i hspace
      simp only [Bool.and_eq_true] at hspace
      by_cases heq : k = n
      · rw [heq]
        exact hspace.2
      · exact ih hk (by omega)
    · omega

/-- What trimming leaves does not end in whitespace, unless nothing is left. -/
theorem not_isSpace_before_trimEnd {b : Bytes} {start stop : Nat}
    (h : start < b.trimEnd start stop) :
    b.satAt (b.trimEnd start stop - 1) Byte.isSpace = false := by
  induction stop with
  | zero => simp [trimEnd] at h
  | succ n ih =>
    rw [trimEnd] at h ⊢
    split at h
    · rename_i hspace
      rw [if_pos hspace]
      exact ih h
    · rename_i hspace
      rw [if_neg hspace]
      simpa [h] using hspace

/-- Trimming stops at the latest behind the last byte that is no whitespace. -/
theorem lt_trimEnd_of_not_isSpace {b : Bytes} (start : Nat) {stop k : Nat} (hk : k < stop)
    (hink : b.satAt k Byte.isSpace = false) : k < b.trimEnd start stop := by
  apply Nat.lt_of_not_le
  intro hle
  rw [isSpace_of_trimEnd_le hle hk] at hink
  simp at hink

/-- Behind the last ink before an offset there is only whitespace. This is `lastBelow_spec` for the
class of ink; within the text, what is no ink is whitespace. -/
theorem lastInk_spec {b : Bytes} {i p : Nat} (h : b.lastInk i = some p) (hi : i ≤ b.size) :
    b.satAt p (fun c => !c.isSpace) = true ∧
      ∀ k, p < k → k < i → b.satAt k Byte.isSpace = true := by
  rw [lastInk, lastBefore] at h
  obtain ⟨hp, hnone⟩ := lastBelow_spec h
  refine ⟨hp, fun k hpk hki => ?_⟩
  have := hnone k hpk hki
  rwa [satAt_not (by omega), Bool.not_eq_false'] at this

/-! ### Words of fixed spelling -/

/-- The bytes of a word that stands in a text are found there one by one. -/
theorem getElem?_of_hasAt {b : Bytes} {i k : Nat} {w : String} (h : b.hasAt i w = true)
    (hk : k < (ofString w).size) : b[i + k]? = (ofString w)[k]? := by
  have heq : b.slice i (i + (ofString w).size) = ofString w := eq_of_beq h
  rw [← heq, slice, Array.getElem?_extract]
  -- the slice is as long as the word, so the end of the text did not cut it short
  have hsize : (b.slice i (i + (ofString w).size)).size = (ofString w).size := by rw [heq]
  rw [slice, Array.size_extract] at hsize
  rw [if_pos (by omega)]

/-- A word that stands in a text ends within it. An empty word would stand anywhere, so the word has
to have a byte. -/
theorem le_size_of_hasAt {b : Bytes} {i : Nat} {w : String} (h : b.hasAt i w = true)
    (hw : 0 < (ofString w).size) : i + (ofString w).size ≤ b.size := by
  have heq : b.slice i (i + (ofString w).size) = ofString w := eq_of_beq h
  have hsize : (b.slice i (i + (ofString w).size)).size = (ofString w).size := by rw [heq]
  rw [slice, Array.size_extract] at hsize
  omega

/-- What holds of all bytes of a word holds where the word stands. -/
theorem satAt_of_hasAt {b : Bytes} {i k : Nat} {w : String} {p : Byte → Bool}
    (h : b.hasAt i w = true) (hk : k < (ofString w).size)
    (hp : (ofString w).toList.all p = true) :
    b.satAt (i + k) p = true := by
  rw [satAt, getElem?_of_hasAt h hk, Array.getElem?_eq_getElem hk, Option.any_some]
  exact List.all_eq_true.mp hp _ (Array.getElem_mem_toList hk)

end Bytes

/-! ### Inert literals by their first bytes -/

namespace Literal

variable (kind : LiteralKind) (b : Bytes) (i : Nat) (close : Option Nat)

/-- A literal starts at its opening delimiter, closed or not. -/
theorem start_closedBy : (closedBy kind b i close).span.start = i := by
  cases close <;> rfl

/-- A literal is of the kind that it was opened as, closed or not. -/
theorem kind_closedBy : (closedBy kind b i close).kind = kind := by
  cases close <;> rfl

/-- A literal that is not closed ends with the text. -/
private theorem stop_closedBy : (closedBy kind b i close).span.stop = close.getD b.size := by
  cases close <;> rfl

end Literal

/-- The end of the inert literal at an offset, read off its first bytes. The definition goes through
`literalAt` and filters the result; here the filter has been carried out, one case for each first
byte. No other lemma has to unfold `literalAt`. -/
theorem inertStop_eq (b : Bytes) (i : Nat) :
    inertStop b i =
      match b[i]? with
      | none => none
      | some c =>
        if c.is '/' then
          if b.isAt (i + 1) '/' then some (b.skipWhile (fun c => !c.is '\n') (i + 2))
          else if b.isAt (i + 1) '*' then some ((blockClose b (i + 2)).getD b.size)
          else none
        else if c.isQuote || c.is '`' then some ((quoteClose b c (i + 1)).getD b.size)
        else none := by
  unfold inertStop literalAt
  cases b[i]? with
  | none => rfl
  | some c =>
    dsimp only
    by_cases hslash : c.is '/' = true
    · rw [if_pos hslash, if_pos hslash]
      by_cases hline : b.isAt (i + 1) '/' = true
      · rw [if_pos hline, if_pos hline]
        rfl
      · rw [if_neg hline, if_neg hline]
        by_cases hblock : b.isAt (i + 1) '*' = true
        · rw [if_pos hblock, if_pos hblock]
          simp [Option.filter, Literal.kind_closedBy, Literal.stop_closedBy]
        · rw [if_neg hblock, if_neg hblock]
          -- what remains is a regular expression, which is not inert
          cases regexStop b i <;> rfl
    · rw [if_neg hslash, if_neg hslash]
      by_cases hquote : c.isQuote = true
      · simp [hquote, Option.filter, Literal.kind_closedBy, Literal.stop_closedBy]
      · by_cases htick : c.is '`' = true
        · simp [hquote, htick, Option.filter, Literal.kind_closedBy, Literal.stop_closedBy]
        · simp [hquote, htick]

/-- **The inert literal at offset `i` ends at the given offset.** One case for each kind. -/
inductive InertAt (b : Bytes) (i : Nat) : Nat → Prop where
  | line (hfst : b.isAt i '/' = true) (hsnd : b.isAt (i + 1) '/' = true) :
      InertAt b i (b.skipWhile (fun c => !c.is '\n') (i + 2))
  | block (hfst : b.isAt i '/' = true) (hsnd : b.isAt (i + 1) '*' = true) :
      InertAt b i ((blockClose b (i + 2)).getD b.size)
  | quoted {c : Byte} (hc : b[i]? = some c) (hquote : (c.isQuote || c.is '`') = true) :
      InertAt b i ((quoteClose b c (i + 1)).getD b.size)

/-- The inert literal at an offset ends where `InertAt` says. From left to right the tests of
`inertStop_eq` are taken apart; from right to left each case makes its tests succeed and the earlier
ones fail. -/
theorem inertStop_eq_some_iff {b : Bytes} {i stop : Nat} :
    inertStop b i = some stop ↔ InertAt b i stop := by
  rw [inertStop_eq]
  constructor
  · intro h
    cases hc : b[i]? with
    | none => simp [hc] at h
    | some c =>
      simp only [hc] at h
      split at h
      · rename_i hslash
        have hfst : b.isAt i '/' = true := (Bytes.satAt_of_getElem? hc (·.is '/')).trans hslash
        split at h
        · rename_i hsnd
          obtain rfl := Option.some.inj h
          exact .line hfst hsnd
        · split at h
          · rename_i hsnd
            obtain rfl := Option.some.inj h
            exact .block hfst hsnd
          · simp at h
      · split at h
        · rename_i hquote
          obtain rfl := Option.some.inj h
          exact .quoted hc hquote
        · simp at h
  · intro h
    cases h with
    | line hfst hsnd =>
      obtain ⟨c, hc, hslash⟩ := (Option.any_eq_true _ _).mp hfst
      simp [hc, hslash, hsnd]
    | block hfst hsnd =>
      obtain ⟨c, hc, hslash⟩ := (Option.any_eq_true _ _).mp hfst
      have hnot : b.isAt (i + 1) '/' = false := Bytes.satAt_of_isAt hsnd (·.is '/')
      simp [hc, hslash, hsnd, hnot]
    | @quoted c hc hquote =>
      -- a quote is no slash, so the test for comments fails
      have hnot : c.is '/' = false := by
        rw [Bool.eq_false_iff]
        intro hslash
        rw [Byte.apply_of_is hslash fun c => c.isQuote || c.is '`'] at hquote
        exact absurd hquote (by decide)
      simp only [hc, hnot, hquote, if_true, Bool.false_eq_true, if_false]

/-- Only a slash, a quote or a backtick opens an inert literal. One case for each kind. -/
theorem InertAt.opensInert {b : Bytes} {i stop : Nat} (h : InertAt b i stop) :
    b.satAt i Byte.opensInert = true := by
  cases h with
  | line hfst _ => exact Bytes.satAt_of_isAt hfst Byte.opensInert
  | block hfst _ => exact Bytes.satAt_of_isAt hfst Byte.opensInert
  | quoted hc hquote =>
    rw [Bytes.satAt_of_getElem? hc]
    simp only [Byte.isQuote, Byte.among, List.any_cons, List.any_nil, Bool.or_false,
      Bool.or_eq_true] at hquote
    simp only [Byte.opensInert, Byte.among, List.any_cons, List.any_nil, Bool.or_false,
      Bool.or_eq_true]
    exact .inr (or_assoc.mp hquote)

/-- A byte that opens no inert literal is stepped over by itself. -/
theorem inertStop_eq_none {b : Bytes} {i : Nat} (h : b.satAt i Byte.opensInert = false) :
    inertStop b i = none := by
  rw [Option.eq_none_iff_forall_ne_some]
  intro stop hstop
  rw [(inertStop_eq_some_iff.mp hstop).opensInert] at h
  simp at h

/-- Apart from slashes, the first byte decides whether an inert literal starts. A slash alone does
not, since it takes a second byte to make it a comment. -/
theorem opensInert_of_inertStop_eq_none {b : Bytes} {i : Nat} (h : inertStop b i = none)
    (hslash : b.isAt i '/' = false) : b.satAt i Byte.opensInert = false := by
  rw [Bool.eq_false_iff]
  intro hopens
  obtain ⟨c, hc, hopens⟩ := (Option.any_eq_true _ _).mp hopens
  have hquote : (c.isQuote || c.is '`') = true := by
    rw [Bytes.isAt_eq_satAt, Bytes.satAt_of_getElem? hc] at hslash
    simpa [Byte.opensInert, Byte.isQuote, Byte.among, hslash, or_assoc] using hopens
  rw [inertStop_eq_some_iff.mpr (.quoted hc hquote)] at h
  simp at h

/-- A regular expression is stepped over byte by byte. -/
theorem inertStop_of_regex {b : Bytes} {i : Nat} {l : Literal} (h : literalAt b i = some l)
    (hkind : l.kind = .regex) : inertStop b i = none := by
  rw [inertStop, h, Option.filter_some, if_neg (by simp [hkind])]
  rfl

/-- A literal that is no regular expression is inert. -/
theorem inertStop_of_literalAt {b : Bytes} {i : Nat} {l : Literal} (h : literalAt b i = some l)
    (hl : l.kind ≠ .regex) : inertStop b i = some l.span.stop := by
  rw [inertStop, h, Option.filter_some, if_pos (by simpa using hl), Option.map_some]

/-- A literal that starts with a quote is a string. Only the kind has to be excluded: the literal
would have to start with a slash to be a regular expression. -/
theorem inertStop_of_isQuote {b : Bytes} {i : Nat} {l : Literal} (h : literalAt b i = some l)
    (hquote : b.satAt i Byte.isQuote = true) : inertStop b i = some l.span.stop := by
  apply inertStop_of_literalAt h
  intro hregex
  -- only a slash starts a regular expression
  have hslash : b.isAt i '/' = false := Bytes.isAt_eq_false hquote rfl
  have hi := Bytes.lt_size_of_satAt hquote
  rw [Bytes.isAt, Array.getElem?_eq_getElem hi, Option.any_some] at hslash
  rw [Bytes.satAt, Array.getElem?_eq_getElem hi, Option.any_some] at hquote
  simp only [literalAt, Array.getElem?_eq_getElem hi, hslash, hquote, Bool.false_eq_true, if_false,
    if_true, Option.some.injEq] at h
  rw [← h] at hregex
  cases hclose : quoteClose b b[i] (i + 1) <;> simp [hclose, Literal.closedBy] at hregex

/-- Where there is no literal at all there is no inert one. -/
theorem inertStop_of_literalAt_eq_none {b : Bytes} {i : Nat} (h : literalAt b i = none) :
    inertStop b i = none := by
  rw [inertStop, h, Option.filter_none, Option.map_none]

/-! ### The end of an inert literal -/

/-- A closing quote is the last byte of its literal. The induction follows the search for the
quote. -/
theorem getElem?_of_quoteClose {b : Bytes} {quote : Byte} {j stop : Nat}
    (h : quoteClose b quote j = some stop) : b[stop - 1]? = some quote := by
  fun_induction quoteClose b quote j with
  | case1 j _ _ ih => exact ih h
  | case2 j hj _ hq =>
    obtain rfl := Option.some.inj h
    rw [Nat.add_sub_cancel, Array.getElem?_eq_getElem hj, eq_of_beq hq]
  | case3 j _ _ _ ih => exact ih h
  | case4 => simp at h

/-- A block comment that is closed ends with a slash. -/
theorem isAt_of_blockClose {b : Bytes} {j stop : Nat} (h : blockClose b j = some stop) :
    b.isAt (stop - 1) '/' = true := by
  obtain ⟨k, -, -, hk⟩ := exists_of_firstIn_eq_some h
  split at hk
  · rename_i hclose
    obtain rfl := Option.some.inj hk
    exact (Bool.and_eq_true_iff.mp hclose).2
  · simp at hk

/-- A line comment ends with the text or at a line break. -/
theorem lineComment_stop {b : Bytes} {i : Nat} (h : i ≤ b.size) :
    b.skipWhile (fun c => !c.is '\n') i = b.size ∨
      b.isAt (b.skipWhile (fun c => !c.is '\n') i) '\n' = true := by
  have hspec := b.satAt_skipWhile (fun c => !c.is '\n') i
  -- a run that ends before the text does is ended by a byte outside of the class, the line break
  rcases Nat.lt_or_eq_of_le (Bytes.skipWhile_le_size (p := fun c => !c.is '\n') h) with hlt | heq
  · right
    rw [Bytes.satAt_not hlt, Bool.not_eq_false'] at hspec
    exact hspec
  · exact .inl heq

/-- A comment holds its two opening bytes, of which the second tells its kind. One case for each
kind; a quoted literal would start with a quote. -/
theorem comment_of_inertStop {b : Bytes} {i stop : Nat} (h : inertStop b i = some stop)
    (hslash : b.isAt i '/' = true) :
    i + 2 ≤ stop ∧ b.satAt (i + 1) (·.among ['/', '*']) = true := by
  cases inertStop_eq_some_iff.mp h with
  | line _ hsnd => exact ⟨b.le_skipWhile _ (i + 2), Bytes.satAt_of_isAt hsnd _⟩
  | block _ hsnd =>
    refine ⟨?_, Bytes.satAt_of_isAt hsnd _⟩
    cases hclose : blockClose b (i + 2) with
    | none => exact Bytes.lt_size_of_isAt hsnd
    | some s => exact Nat.le_trans (Nat.le_add_right _ _) (bounds_of_blockClose hclose).1
  | quoted hc hquote =>
    -- a slash is no quote
    rw [Bytes.isAt_eq_satAt, Bytes.satAt_of_getElem? hc] at hslash
    rw [Byte.apply_of_is hslash fun c => c.isQuote || c.is '`'] at hquote
    exact absurd hquote (by decide)

/-- **An inert literal that ends with no delimiter is ended by its line or by the text.** One case
for each kind: a literal that has its closing delimiter ends with a slash, a quote or a backtick,
and the class holds none of these. -/
theorem inertStop_of_last {b : Bytes} {i stop : Nat} {p : Byte → Bool}
    (h : inertStop b i = some stop) (hlast : b.satAt (stop - 1) p = true)
    (hp : Byte.Excludes p Byte.opensInert) : stop = b.size ∨ b.isAt stop '\n' = true := by
  have hnot := Bytes.satAt_eq_false hlast hp
  cases inertStop_eq_some_iff.mp h with
  | line _ hsnd => exact lineComment_stop (Bytes.lt_size_of_isAt hsnd)
  | block _ _ =>
    cases hclose : blockClose b (i + 2) with
    | none => exact .inl rfl
    | some stop =>
      -- a block comment that is closed ends with a slash
      rw [hclose, Option.getD_some, Bytes.satAt_of_isAt (isAt_of_blockClose hclose)] at hnot
      exact absurd hnot (by decide)
  | @quoted c hc hquote =>
    cases hclose : quoteClose b c (i + 1) with
    | none => exact .inl rfl
    | some stop =>
      -- a string that is closed ends with its quote
      have hopen := (InertAt.quoted hc hquote).opensInert
      rw [Bytes.satAt_of_getElem? hc] at hopen
      rw [hclose, Option.getD_some, Bytes.satAt_of_getElem? (getElem?_of_quoteClose hclose),
        hopen] at hnot
      simp at hnot

/-- In particular, an inert literal that ends in whitespace is ended by its line or by the text.
This is where a trimmed end can come to lie within a literal. -/
theorem inertStop_of_isSpace {b : Bytes} {i stop : Nat} (h : inertStop b i = some stop)
    (hspace : b.satAt (stop - 1) Byte.isSpace = true) :
    stop = b.size ∨ b.isAt stop '\n' = true :=
  inertStop_of_last h hspace (Byte.excludes_opensInert rfl)

/-! ### Literals and their surroundings

Two texts agree on a literal if they hold the same bytes from `i` and from `m` on, up to the end of
the literal in one of them. -/

/-- One step of the search for a closing quote, with the byte looked up rather than indexed. In this
form the step can be rewritten with what is known about the byte in another text. -/
theorem quoteClose_eq (b : Bytes) (quote : Byte) (j : Nat) :
    quoteClose b quote j =
      match b[j]? with
      | none => none
      | some c =>
        if c.is '\\' then quoteClose b quote (j + 2)
        else if c == quote then some (j + 1)
        else quoteClose b quote (j + 1) := by
  rw [quoteClose]
  split
  · rename_i hj
    rw [Array.getElem?_eq_getElem hj]
  · rename_i hj
    rw [Array.getElem?_eq_none (by omega)]

/-- A closing quote is found in every text that holds the bytes up to it, at the same distance. The
induction follows the search in the first text, with the place in the second left free. -/
theorem quoteClose_congr {b b' : Bytes} {quote : Byte} {j m stop : Nat}
    (h : quoteClose b quote j = some stop) (hagree : ∀ k, j + k < stop → b[j + k]? = b'[m + k]?) :
    quoteClose b' quote m = some (m + (stop - j)) := by
  have hbounds := bounds_of_quoteClose h
  fun_induction quoteClose b quote j generalizing m with
  | case1 j hj hescape ih =>
    -- an escaped byte is passed over with its backslash
    have hhead := hagree 0 (by omega)
    rw [Nat.add_zero, Nat.add_zero, Array.getElem?_eq_getElem hj] at hhead
    have hnext := bounds_of_quoteClose h
    rw [quoteClose_eq, ← hhead]
    dsimp only
    rw [if_pos hescape, ih (m := m + 2) h _ hnext]
    · congr 1
      omega
    · intro k hk
      rw [Nat.add_assoc, Nat.add_assoc]
      exact hagree (2 + k) (by omega)
  | case2 j hj hescape hquote =>
    have hhead := hagree 0 (by omega)
    rw [Nat.add_zero, Nat.add_zero, Array.getElem?_eq_getElem hj] at hhead
    obtain rfl := Option.some.inj h
    rw [quoteClose_eq, ← hhead]
    dsimp only
    rw [if_neg hescape, if_pos hquote, Nat.add_sub_cancel_left]
  | case3 j hj hescape hquote ih =>
    have hhead := hagree 0 (by omega)
    rw [Nat.add_zero, Nat.add_zero, Array.getElem?_eq_getElem hj] at hhead
    have hnext := bounds_of_quoteClose h
    rw [quoteClose_eq, ← hhead]
    dsimp only
    rw [if_neg hescape, if_neg hquote, ih (m := m + 1) h _ hnext]
    · congr 1
      omega
    · intro k hk
      rw [Nat.add_assoc, Nat.add_assoc]
      exact hagree (1 + k) (by omega)
  | case4 => simp at h

/-- An answer of a search is that of the first offset that has one. The induction follows the
search, and each direction loses or gains the lower end of the range. -/
theorem firstIn_eq_some_iff {α : Type} {f : Nat → Option α} {lo hi : Nat} {a : α} :
    firstIn f lo hi = some a ↔
      ∃ k, lo ≤ k ∧ k < hi ∧ f k = some a ∧ ∀ j, lo ≤ j → j < k → f j = none := by
  fun_induction firstIn f lo hi with
  | case1 lo hlo x hx =>
    constructor
    · intro h
      exact ⟨lo, Nat.le_refl _, hlo, hx.trans h, fun j _ _ => by omega⟩
    · rintro ⟨k, hk, -, ha, hfirst⟩
      -- were there an earlier offset with an answer, `lo` would have none
      obtain rfl : lo = k := by
        apply Nat.le_antisymm hk
        apply Nat.le_of_not_lt
        intro hlt
        rw [hfirst lo (Nat.le_refl _) hlt] at hx
        simp at hx
      rw [← hx, ha]
  | case2 lo hlo hnone ih =>
    rw [ih]
    constructor
    · rintro ⟨k, hk, hhi, ha, hfirst⟩
      refine ⟨k, by omega, hhi, ha, fun j hj hjk => ?_⟩
      by_cases heq : j = lo
      · rw [heq, hnone]
      · exact hfirst j (by omega) hjk
    · rintro ⟨k, hk, hhi, ha, hfirst⟩
      have hne : lo ≠ k := by
        rintro rfl
        rw [hnone] at ha
        simp at ha
      exact ⟨k, by omega, hhi, ha, fun j hj hjk => hfirst j (by omega) hjk⟩
  | case3 lo hlo =>
    constructor
    · intro h
      simp at h
    · rintro ⟨k, hk, hhi, -⟩
      omega

/-- The end of a block comment is its first closing delimiter. It stands at or behind the start of
the search, and no earlier place there holds the two bytes. -/
theorem blockClose_eq_some_iff {b : Bytes} {j stop : Nat} :
    blockClose b j = some stop ↔
      j + 2 ≤ stop ∧ (b.isAt (stop - 2) '*' && b.isAt (stop - 1) '/') = true ∧
        ∀ k, j ≤ k → k + 2 < stop → (b.isAt k '*' && b.isAt (k + 1) '/') = false := by
  rw [blockClose, firstIn_eq_some_iff]
  constructor
  · -- the first place that the search accepts is two bytes before the end
    rintro ⟨k, hk, -, hstop, hfirst⟩
    split at hstop
    · rename_i hclose
      obtain rfl := Option.some.inj hstop
      refine ⟨by omega, hclose, fun i hi hik => ?_⟩
      simpa using hfirst i hi (by omega)
    · simp at hstop
  · -- and the place two bytes before the end is the first one
    rintro ⟨hle, hclose, hfirst⟩
    have hsize := Bytes.lt_size_of_isAt (Bool.and_eq_true_iff.mp hclose).2
    refine ⟨stop - 2, by omega, by omega, ?_, fun i hi hik => ?_⟩
    · rw [show stop - 2 + 1 = stop - 1 by omega, if_pos hclose, Nat.sub_add_cancel (by omega)]
    · simpa using hfirst i hi (by omega)

/-- The end of a block comment is found in every text that holds the bytes up to it, at the same
distance. Both sides are characterised by `blockClose_eq_some_iff`, and each byte is carried over by
its distance. -/
theorem blockClose_congr {b b' : Bytes} {j m stop : Nat} (h : blockClose b j = some stop)
    (hagree : ∀ k, j + k < stop → b[j + k]? = b'[m + k]?) :
    blockClose b' m = some (m + (stop - j)) := by
  rw [blockClose_eq_some_iff] at h ⊢
  obtain ⟨hle, hclose, hfirst⟩ := h
  -- the bytes of the comment, by their distance from its start
  have hat (i : Nat) (ch : Char) (hi : j ≤ i) (hstop : i < stop) :
      b.isAt i ch = b'.isAt (m + (i - j)) ch := by
    have := hagree (i - j) (by omega)
    rw [Nat.add_sub_cancel' hi] at this
    exact Bytes.isAt_congr this ch
  refine ⟨by omega, ?_, fun k hk hstop => ?_⟩
  · rw [hat _ _ (by omega) (by omega), hat _ _ (by omega) (by omega)] at hclose
    rw [← hclose]
    congr 2 <;> omega
  · have := hfirst (j + (k - m)) (by omega) (by omega)
    rw [hat _ _ (by omega) (by omega), hat _ _ (by omega) (by omega)] at this
    rw [← this]
    congr 2 <;> omega

/-- The end of a line comment, in a text that holds its bytes. A line comment has no delimiter of
its own, so the line break behind it, or the end of the text, has to be carried over as well. -/
private theorem lineStop_congr {b b' : Bytes} {j m stop : Nat} (hj : j ≤ b.size)
    (h : b.skipWhile (fun c => !c.is '\n') j = stop)
    (hagree : ∀ k, j + k < stop → b[j + k]? = b'[m + k]?)
    (hline : b.isAt stop '\n' = true → b'.isAt (m + (stop - j)) '\n' = true)
    (hsize : stop = b.size → b'.size = m + (stop - j)) :
    b'.skipWhile (fun c => !c.is '\n') m = m + (stop - j) := by
  have hle : j ≤ stop := h ▸ b.le_skipWhile _ j
  apply Bytes.skipWhile_eq (Nat.le_add_right _ _)
  · intro k hk hkstop
    have := hagree (k - m) (by omega)
    rw [Nat.add_sub_cancel' hk] at this
    rw [← Bytes.satAt_congr this]
    exact Bytes.satAt_of_lt_skipWhile (i := j) (Nat.le_add_right _ _) (by omega)
  · -- the line is ended by the text or by a line break, and either is the same in `b'`
    rcases h ▸ lineComment_stop hj with hend | hend
    · exact Bytes.satAt_eq_false_of_size_le (Nat.le_of_eq (hsize hend))
    · have hbreak := hline hend
      rw [Bytes.satAt_not (Bytes.lt_size_of_isAt hbreak), ← Bytes.isAt_eq_satAt, hbreak]
      rfl

/-- The end of a delimited literal, in a text that holds its bytes. Here `close` is the search for
its closing delimiter. If the delimiter is missing in one text it is missing in the other, for
otherwise it would be found in the first by the same lemma. -/
private theorem closeStop_congr {close : Bytes → Nat → Option Nat}
    (hbound : ∀ {b : Bytes} {j stop : Nat}, close b j = some stop → stop ≤ b.size)
    (hclose : ∀ {b b' : Bytes} {j m stop : Nat}, close b j = some stop →
      (∀ k, j + k < stop → b[j + k]? = b'[m + k]?) → close b' m = some (m + (stop - j)))
    {b b' : Bytes} {j m stop : Nat} (h : (close b j).getD b.size = stop)
    (hagree : ∀ k, j + k < stop → b[j + k]? = b'[m + k]?)
    (hsize : stop = b.size → b'.size = m + (stop - j)) :
    (close b' m).getD b'.size = m + (stop - j) := by
  cases hstop : close b j with
  | some s =>
    rw [hstop, Option.getD_some] at h
    subst h
    rw [hclose hstop hagree, Option.getD_some]
  | none =>
    rw [hstop, Option.getD_none] at h
    cases hstop' : close b' m with
    | none => rw [Option.getD_none, hsize h.symm]
    | some s =>
      -- a closing delimiter in `b'` would close the literal in `b` as well
      have hs := hbound hstop'
      rw [hsize h.symm] at hs
      have := hclose hstop' (m := j) fun k hk => (hagree k (by omega)).symm
      rw [hstop] at this
      simp at this

/-- **An inert literal is the same in every text that holds its bytes**, as long as a line comment
stays ended by its line and what lacks its closing delimiter stays ended by the text. Each kind goes
by its own lemma, behind an opening delimiter of one or two bytes. -/
theorem inertStop_congr {b b' : Bytes} {i m stop : Nat} (h : inertStop b i = some stop)
    (hagree : ∀ k, i + k < stop → b[i + k]? = b'[m + k]?)
    (hline : b.isAt stop '\n' = true → b'.isAt (m + (stop - i)) '\n' = true)
    (hsize : stop = b.size → b'.size = m + (stop - i)) :
    inertStop b' m = some (m + (stop - i)) := by
  have hlt := lt_of_inertStop h
  -- the bytes behind the opening delimiter, which has `n` bytes
  have htail {n k : Nat} (hk : i + n + k < stop) : b[i + n + k]? = b'[m + n + k]? := by
    rw [Nat.add_assoc, Nat.add_assoc]
    exact hagree (n + k) (by omega)
  have hend {n : Nat} (hn : i + n ≤ stop) : m + (stop - i) = m + n + (stop - (i + n)) := by omega
  have hopen {k : Nat} (hk : i + k < stop) (ch : Char) : b.isAt (i + k) ch = b'.isAt (m + k) ch :=
    Bytes.isAt_congr (hagree k hk) ch
  rw [inertStop_eq_some_iff]
  cases inertStop_eq_some_iff.mp h with
  | line hfst hsnd =>
    have htwo := (comment_of_inertStop h hfst).1
    have hsecond : i + 2 ≤ b.size := Bytes.lt_size_of_isAt hsnd
    rw [hend htwo] at hline hsize ⊢
    rw [← lineStop_congr hsecond rfl (fun _ => htail) hline hsize]
    exact .line ((hopen (k := 0) hlt '/').symm.trans hfst)
      ((hopen (k := 1) htwo '/').symm.trans hsnd)
  | block hfst hsnd =>
    have htwo := (comment_of_inertStop h hfst).1
    rw [hend htwo] at hsize ⊢
    rw [← closeStop_congr (fun h => (bounds_of_blockClose h).2) blockClose_congr rfl
      (fun _ => htail) hsize]
    exact .block ((hopen (k := 0) hlt '/').symm.trans hfst)
      ((hopen (k := 1) htwo '*').symm.trans hsnd)
  | quoted hc hquote =>
    rw [hend (n := 1) hlt] at hsize ⊢
    rw [← closeStop_congr (fun h => (bounds_of_quoteClose h).2) quoteClose_congr rfl
      (fun _ => htail) hsize]
    exact .quoted ((hagree 0 hlt).symm.trans hc) hquote

/-- What opens no inert literal is known from two bytes. A literal in the second text would be one
in the first, since its kind is told by these two bytes. -/
theorem inertStop_eq_none_congr {b b' : Bytes} {i m : Nat} (h : inertStop b i = none)
    (hfst : b[i]? = b'[m]?) (hsnd : b[i + 1]? = b'[m + 1]?) : inertStop b' m = none := by
  rw [Option.eq_none_iff_forall_ne_some] at h ⊢
  intro stop hstop
  cases inertStop_eq_some_iff.mp hstop with
  | line h₁ h₂ =>
    rw [← Bytes.isAt_congr hfst] at h₁
    rw [← Bytes.isAt_congr hsnd] at h₂
    exact h _ (inertStop_eq_some_iff.mpr (.line h₁ h₂))
  | block h₁ h₂ =>
    rw [← Bytes.isAt_congr hfst] at h₁
    rw [← Bytes.isAt_congr hsnd] at h₂
    exact h _ (inertStop_eq_some_iff.mpr (.block h₁ h₂))
  | quoted hc hquote => exact h _ (inertStop_eq_some_iff.mpr (.quoted (hfst.trans hc) hquote))

/-- **An inert literal does not depend on what stands before it.** The two lemmas above apply, as
the bytes of the second text are all there and its end is the end of the whole. -/
theorem inertStop_append_right (x y : Bytes) (i : Nat) :
    inertStop (x ++ y) (x.size + i) = (inertStop y i).map (x.size + ·) := by
  cases h : inertStop y i with
  | none =>
    refine inertStop_eq_none_congr h ?_ ?_
    · rw [Bytes.getElem?_append_add]
    · rw [Nat.add_assoc, Bytes.getElem?_append_add]
  | some stop =>
    have hlt := lt_of_inertStop h
    -- the bytes of `y` stand in the whole text, shifted by the size of `x`
    have hat (k : Nat) : y[i + k]? = (x ++ y)[x.size + i + k]? := by
      rw [Nat.add_assoc, Bytes.getElem?_append_add]
    rw [Option.map_some, inertStop_congr h (fun k _ => hat k) (m := x.size + i)]
    · congr 1
      omega
    · intro hbreak
      have := hat (stop - i)
      rw [Nat.add_sub_cancel' (by omega)] at this
      rw [← Bytes.isAt_congr this]
      exact hbreak
    · intro hend
      rw [Array.size_append]
      omega

end TypeErasure
