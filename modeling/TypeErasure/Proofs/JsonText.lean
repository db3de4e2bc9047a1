import TypeErasure.Proofs.JsonGrammar

/-!
# Reading JSON texts

What the reader does on the texts of the grammar.

A number is the one value that does not show where it ends: the reader goes on for as long as it
finds bytes of a number. A text is therefore read up to its end only if no such byte follows it
(`Follows`), which within lists and objects is always so. The lists and objects around a value are
the stack that `skipValue` is called with, so that skipping the value leads to `skipRest` on the
same stack, and skipping the elements of a list or object leads to the stack without it
(`Written.skips`).

A string that spells a text is read as this text (`readString_of_spells`), and every string of the
grammar can be skipped (`StringText.readString_append`).
-/

namespace TypeErasure.Json

open Byte (ofChar)

/-! ### Whitespace and words -/

/-- The whitespace of the grammar is what the reader takes for whitespace: it is four characters,
and the reader knows each of them. -/
theorem White.isWhite {w : List Byte} (hw : White w) : ∀ c ∈ w, isWhite c = true := by
  have hall : ([' ', '\t', '\n', '\r'].map ofChar).all Json.isWhite = true := by decide
  exact fun c hc => List.all_eq_true.mp hall c (hw c hc)

theorem skipWhite_append {w : List Byte} (hw : White w) (s : List Byte) :
    skipWhite (w ++ s) = skipWhite s :=
  List.dropWhile_append_of_pos hw.isWhite

theorem skipWhite_cons {c : Byte} (hc : isWhite c = false) (s : List Byte) :
    skipWhite (c :: s) = c :: s :=
  List.dropWhile_cons_of_neg (by simp [hc])

theorem skipWhite_of_white {w : List Byte} (hw : White w) : skipWhite w = [] := by
  rw [← List.append_nil w, skipWhite_append hw]
  rfl

/-- Skipping whitespace twice is skipping it once. By induction on the text. -/
theorem skipWhite_skipWhite (s : List Byte) : skipWhite (skipWhite s) = skipWhite s := by
  induction s with
  | nil => rfl
  | cons c s ih =>
    cases hc : isWhite c with
    | true =>
      have hstep : skipWhite (c :: s) = skipWhite s := List.dropWhile_cons_of_pos hc
      rw [hstep, ih]
    | false => rw [skipWhite_cons hc, skipWhite_cons hc]

/-- A word is read over if it stands there. By induction on the word; its characters have to be such
that a byte spells them. -/
theorem expect_append {word : List Char} (h : word.all (fun ch => (ofChar ch).is ch) = true)
    (rest : List Byte) : expect word (word.map ofChar ++ rest) = .ok rest := by
  induction word with
  | nil => rfl
  | cons ch word ih =>
    rw [List.all_cons, Bool.and_eq_true] at h
    rw [List.map_cons, List.cons_append, expect, if_pos h.1, ih h.2]

/-! ### Numbers -/

theorem digits_singleton {c : Byte} (hc : c.isDigit = true) : Digits [c] := by
  simp [Digits, hc]

/-- **Digits are read up to a byte that is none.** What the reader takes and what it leaves are
computed for the rest alone first, where nothing is taken. -/
private theorem readDigits_append {d rest : List Byte} (hd : Digits d)
    (hrest : ∀ c ∈ rest.head?, c.isDigit = false) (atEnd : ReadFault) :
    readDigits atEnd (d ++ rest) = .ok (d, rest) := by
  obtain ⟨hne, hd⟩ := hd
  -- nothing of the rest is a digit
  have htake : rest.takeWhile Byte.isDigit = [] := by
    cases rest with
    | nil => rfl
    | cons c rest => simp [hrest c rfl]
  have hdrop : rest.dropWhile Byte.isDigit = rest := by
    cases rest with
    | nil => rfl
    | cons c rest => simp [hrest c rfl]
  have htake' : (d ++ rest).takeWhile Byte.isDigit = d := by
    rw [List.takeWhile_append_of_pos hd, htake, List.append_nil]
  have hdrop' : (d ++ rest).dropWhile Byte.isDigit = rest := by
    rw [List.dropWhile_append_of_pos hd, hdrop]
  cases d with
  | nil => exact absurd rfl hne
  | cons c d =>
    rw [List.cons_append] at htake' hdrop' ⊢
    rw [readDigits, if_pos (hd c (List.mem_cons_self ..)), htake', hdrop']

/-- The whole part of a number is read up to a byte that is no digit. A zero stands alone, and no
other number starts with one. -/
private theorem Whole.readWhole_append {w rest : List Byte} (h : Whole w)
    (hrest : ∀ c ∈ rest.head?, c.isDigit = false) (atEnd : ReadFault) :
    readWhole atEnd (w ++ rest) = .ok (w, rest) := by
  cases h with
  | zero =>
    -- a zero stands alone
    have hdigits : Digits [ofChar '0'] := digits_singleton rfl
    rw [readWhole, readDigits_append hdigits hrest]
    rfl
  | @digits c d hc hzero hd =>
    -- any other number starts with another digit
    have hdigits : Digits (c :: d) := ⟨by simp, by simpa [hc] using hd⟩
    rw [readWhole, readDigits_append hdigits hrest]
    simp [hzero]

/-- A fraction starts with a dot, so no digit comes next whether there is one or not. -/
private theorem Fraction.head_append {f rest : List Byte} (h : Fraction f)
    (hrest : ∀ c ∈ rest.head?, c.isDigit = false) :
    ∀ c ∈ (f ++ rest).head?, c.isDigit = false := by
  cases h with
  | none => exact hrest
  | some hd =>
    intro c hc
    obtain rfl := Option.some.inj hc
    rfl

/-- A fraction is read up to a byte that is no digit. Where there is none, the byte must not be a
dot. -/
private theorem Fraction.readFraction_append {f rest : List Byte} (h : Fraction f)
    (hrest : ∀ c ∈ rest.head?, c.isDigit = false ∧ c.is '.' = false) (atEnd : ReadFault) :
    ∃ d, readFraction atEnd (f ++ rest) = .ok (d, rest) := by
  cases h with
  | none =>
    -- without a fraction
    refine ⟨[], ?_⟩
    cases rest with
    | nil => rfl
    | cons c rest => simp [readFraction, (hrest c rfl).2]
  | @some d hd =>
    -- with one, its digits are read
    refine ⟨d, ?_⟩
    rw [List.cons_append, readFraction, if_pos (by decide)]
    exact readDigits_append hd (fun c hc => (hrest c hc).1) atEnd

/-- An exponent starts with its mark, which is neither a digit nor a dot. -/
private theorem Exponent.head_append {e rest : List Byte} (h : Exponent e) (hrest : Follows rest) :
    ∀ c ∈ (e ++ rest).head?, c.isDigit = false ∧ c.is '.' = false := by
  cases h with
  | none =>
    intro c hc
    obtain ⟨hdigit, hmark⟩ := hrest c hc
    exact ⟨hdigit, by simpa using List.any_eq_false.mp hmark '.' (by simp)⟩
  | some hmark =>
    intro c hc
    obtain rfl := Option.some.inj hc
    rcases hmark with rfl | rfl <;> exact ⟨rfl, rfl⟩

/-- An exponent is read up to a byte that is no digit. Where there is none, the byte must not be its
mark; where there is one, a sign may come before its digits. -/
private theorem Exponent.readExponent_append {e rest : List Byte} (h : Exponent e)
    (hrest : Follows rest)
    (atEnd : ReadFault) : ∃ n, readExponent atEnd (e ++ rest) = .ok (n, rest) := by
  cases h with
  | none =>
    -- without an exponent
    refine ⟨0, ?_⟩
    cases rest with
    | nil => rfl
    | cons c rest =>
      have hc : ¬ c.among ['e', 'E'] = true := by
        have hnone := List.any_eq_false.mp (hrest c rfl).2
        have he := hnone 'e' (by simp)
        have hE := hnone 'E' (by simp)
        simp [Byte.among, he, hE]
      rw [List.nil_append, readExponent, if_neg hc]
  | @some mark sign d hmark hsign hd =>
    have hmark : (ofChar mark).among ['e', 'E'] = true := by
      rcases hmark with rfl | rfl <;> rfl
    -- without a sign the first byte is a digit, which is no sign
    have hdigits : (if (sign ++ (d ++ rest)).head?.any (·.among ['+', '-'])
        then (sign ++ (d ++ rest)).tail else sign ++ (d ++ rest)) = d ++ rest := by
      rcases hsign with rfl | rfl | rfl
      · obtain ⟨hne, hall⟩ := hd
        cases d with
        | nil => exact absurd rfl hne
        | cons c d =>
          have hc : c.among ['+', '-'] = false :=
            Byte.excludes_among (by decide) c (hall c (List.mem_cons_self ..))
          simp [hc]
      · rfl
      · rfl
    have hread := readDigits_append hd (fun c hc => (hrest c hc).1) atEnd
    rw [List.cons_append, List.append_assoc, readExponent, if_pos hmark]
    dsimp only
    rw [hdigits, hread]
    exact ⟨_, rfl⟩

/-- **A number is read up to its end if no byte of a number follows it.** Its three parts are read
one by one, and what follows each of them does not go on with it. -/
theorem readNumber_append {w f e rest : List Byte} (hw : Whole w) (hf : Fraction f)
    (he : Exponent e) (hrest : Follows rest) (atEnd : ReadFault) :
    ∃ d, readNumber atEnd (w ++ (f ++ (e ++ rest))) = .ok (d, rest) := by
  have hhead := he.head_append hrest
  have hdigit := hf.head_append fun c hc => (hhead c hc).1
  obtain ⟨d, hfraction⟩ := hf.readFraction_append hhead atEnd
  obtain ⟨n, hexponent⟩ := he.readExponent_append hrest atEnd
  rw [readNumber, hw.readWhole_append hdigit atEnd]
  dsimp only
  rw [hfraction]
  dsimp only
  rw [hexponent]
  exact ⟨_, rfl⟩

/-! ### Strings -/

/-- The reader knows each of the short escapes of the grammar, and none of them is the one for a
code. The table is gone through. -/
private theorem shortEscape?_of_mem {ch ch' : Char} (h : (ch, ch') ∈ shortEscapes) :
    shortEscape? (ofChar ch) = some (ofChar ch') ∧ (ofChar ch).is 'u' = false := by
  have hall : shortEscapes.all (fun p => decide (shortEscape? (ofChar p.1) = some (ofChar p.2) ∧
      (ofChar p.1).is 'u' = false)) = true := by decide
  exact of_decide_eq_true (List.all_eq_true.mp hall _ h)

/-- The reader knows each hexadecimal digit of the grammar. -/
private theorem hexValue?_of_mem {ch : Char} {k : Nat} (h : (ch, k) ∈ hexDigits) :
    hexValue? (ofChar ch) = some k := by
  have hall : hexDigits.all (fun p => decide (hexValue? (ofChar p.1) = some p.2)) = true := by
    decide
  exact of_decide_eq_true (List.all_eq_true.mp hall _ h)

/-- Four hexadecimal digits are read as the number that they stand for. -/
private theorem HexCode.readHex4_append {digits : List Byte} {n : Nat} (h : HexCode digits n)
    (rest : List Byte) : readHex4 (digits ++ rest) = .ok (n, rest) := by
  cases h with
  | digits ha hb hc hd =>
    simp [readHex4, hexValue?_of_mem ha, hexValue?_of_mem hb, hexValue?_of_mem hc,
      hexValue?_of_mem hd]

/-- The second half of a pair is read as an escape of its own, and has to be a second half. -/
private theorem HexCode.readLowSurrogate_append {digits : List Byte} {n : Nat}
    (h : HexCode digits n) (high : Nat) (rest : List Byte) :
    readLowSurrogate high (ofChar '\\' :: ofChar 'u' :: (digits ++ rest)) =
      if isLowSurrogate n then .ok ((high - 0xd800) * 1024 + (n - 0xdc00) + 0x10000, rest)
      else .error .malformed := by
  rw [readLowSurrogate, h.readHex4_append]
  rfl

private theorem readString_quote (strict : Bool) (s : List Byte) :
    readString strict (ofChar '"' :: s) = .ok ([], s) := by
  rw [readString, if_pos (by decide)]

/-- A plain byte is taken as it is: it is no quote, no backslash and no control character. -/
private theorem Plain.readString_cons {c : Byte} (h : Plain c) (strict : Bool) (s : List Byte) :
    readString strict (c :: s) = (readString strict s).map fun p => (c :: p.1, p.2) := by
  have hcontrol : ¬ c.toNat < 32 := Nat.not_lt.mpr h.notControl
  rw [readString, if_neg (by simp [h.notQuote]), if_neg (by simp [h.notBackslash]),
    if_neg hcontrol]
  cases readString strict s <;> rfl

/-- A backslash starts an escape, which is read first. The definition goes by the same cases, with a
proof that the rest gets shorter. -/
private theorem readString_escape (strict : Bool) (s : List Byte) :
    readString strict (ofChar '\\' :: s) =
      (readEscape strict s).bind fun p =>
        (readString strict p.2).map fun q => (p.1 ++ q.1, q.2) := by
  rw [readString, if_neg (by decide), if_pos (by decide)]
  split
  · rename_i e he
    rw [he]
    rfl
  · rename_i t rest he
    rw [he]
    simp only [Except.bind]
    cases readString strict rest <;> rfl

/-- A short escape stands for its character. -/
private theorem readString_short {ch ch' : Char} (h : (ch, ch') ∈ shortEscapes) (strict : Bool)
    (s : List Byte) :
    readString strict (ofChar '\\' :: ofChar ch :: s) =
      (readString strict s).map fun p => (ofChar ch' :: p.1, p.2) := by
  obtain ⟨hshort, hu⟩ := shortEscape?_of_mem h
  rw [readString_escape, readEscape, if_neg (by simp [hu]), hshort]
  rfl

/-- An escaped code stands for the bytes of its character. -/
private theorem readString_code (strict : Bool) (s : List Byte) :
    readString strict (ofChar '\\' :: ofChar 'u' :: s) =
      (readCodePoint strict s).bind fun p =>
        (readString strict p.2).map fun q =>
          (String.utf8EncodeChar (Char.ofNat p.1) ++ q.1, q.2) := by
  rw [readString_escape, readEscape, if_pos (by decide)]
  cases readCodePoint strict s <;> rfl

/-- The same with the digits of the code read. A strict reader refuses the second half of a pair
here, and asks for it behind a first half. -/
theorem HexCode.readString_append {digits : List Byte} {n : Nat} (h : HexCode digits n)
    (strict : Bool) (s : List Byte) :
    readString strict (ofChar '\\' :: ofChar 'u' :: (digits ++ s)) =
      (if strict && isLowSurrogate n then .error .malformed
        else if strict && isHighSurrogate n then readLowSurrogate n s
        else .ok (n, s) : Except ReadFault (Nat × List Byte)).bind fun p =>
      (readString strict p.2).map fun q =>
        (String.utf8EncodeChar (Char.ofNat p.1) ++ q.1, q.2) := by
  rw [readString_code, readCodePoint, h.readHex4_append]

private theorem isLowSurrogate_of_high {n : Nat} (h : 0xd800 ≤ n ∧ n < 0xdc00) :
    isLowSurrogate n = false ∧ isHighSurrogate n = true := by
  simp only [isHighSurrogate, isLowSurrogate, Bool.and_eq_true, decide_eq_true_eq,
    Bool.and_eq_false_imp, decide_eq_false_iff_not]
  omega

private theorem isLowSurrogate_of_low {n : Nat} (h : 0xdc00 ≤ n ∧ n < 0xe000) :
    isLowSurrogate n = true := by
  simp only [isLowSurrogate, Bool.and_eq_true, decide_eq_true_eq]
  omega

/-- All codes outside of the two ranges are characters. -/
private theorem not_isSurrogate {n : Nat} (h : n < 0xd800 ∨ 0xe000 ≤ n) :
    isLowSurrogate n = false ∧ isHighSurrogate n = false := by
  simp only [isHighSurrogate, isLowSurrogate, Bool.and_eq_false_imp, decide_eq_true_eq,
    decide_eq_false_iff_not]
  omega

/-- **A string of the grammar is skipped up to its end.** By induction on the string. A reader that
is not strict takes every code for a character. -/
theorem StringText.readString_append {s : List Byte} (h : StringText s) (rest : List Byte) :
    ∃ t, readString false (s ++ ofChar '"' :: rest) = .ok (t, rest) := by
  induction h with
  | nil => exact ⟨[], readString_quote false rest⟩
  | plain hc hs ih =>
    obtain ⟨t, ht⟩ := ih
    rw [List.cons_append, hc.readString_cons, ht]
    exact ⟨_, rfl⟩
  | short hch hs ih =>
    obtain ⟨t, ht⟩ := ih
    rw [List.cons_append, List.cons_append, readString_short hch, ht]
    exact ⟨_, rfl⟩
  | code hn hs ih =>
    obtain ⟨t, ht⟩ := ih
    rw [List.cons_append, List.cons_append, List.append_assoc, hn.readString_append]
    simp only [Bool.false_and, Bool.false_eq_true, if_false, Except.bind, ht]
    exact ⟨_, rfl⟩

/-- **A string is read as the text it spells.** By induction on the string. Beside the single codes
there are pairs, which are read in two steps. -/
theorem readString_of_spells {s t : List Byte} (h : Spells s t) (rest : List Byte) :
    readString true (s ++ ofChar '"' :: rest) = .ok (t, rest) := by
  induction h with
  | nil => exact readString_quote true rest
  | plain hc hs ih =>
    rw [List.cons_append, hc.readString_cons, ih]
    rfl
  | short hch hs ih =>
    rw [List.cons_append, List.cons_append, readString_short hch, ih]
    rfl
  | code hn hsurrogate hs ih =>
    -- a code alone is no half of a pair
    obtain ⟨hlow, hhigh⟩ := not_isSurrogate hsurrogate
    rw [List.cons_append, List.cons_append, List.append_assoc, hn.readString_append, hhigh, hlow]
    simp [Except.map, Except.bind, ih]
  | pair hn hn' hhigh hlow hs ih =>
    -- the first code asks for a second one
    obtain ⟨hfirst, hhigh⟩ := isLowSurrogate_of_high hhigh
    simp only [List.cons_append, List.append_assoc]
    rw [hn.readString_append, hn'.readLowSurrogate_append, hhigh, hfirst,
      isLowSurrogate_of_low hlow]
    simp [Except.map, Except.bind, ih]

/-! ### Values -/

/-- The second bracket of a list or object is the one that closes it. -/
private theorem Frame.brackets_snd (frame : Frame) : frame.brackets.2 = frame.closer := by
  cases frame <;> rfl

/-- A byte that can come first in a value. -/
def opensValue (c : Byte) : Bool :=
  c.among ['n', 't', 'f', '"', '-', '[', '{'] || c.isDigit

private theorem isWhite_of_opensValue {c : Byte} (h : opensValue c = true) : isWhite c = false :=
  Byte.excludes_among (p := opensValue) (by decide) c h

/-- **A value starts with a byte that tells what it is.** One case for each kind of value. -/
theorem Written.first {v : List Byte} (h : Written .value v) :
    ∃ c t, v = c :: t ∧ opensValue c = true := by
  cases h with
  | word h =>
    -- a word starts with its first letter
    simp only [List.mem_cons, List.not_mem_nil, or_false] at h
    rcases h with rfl | rfl | rfl <;> exact ⟨_, _, rfl, by decide⟩
  | string hs => exact ⟨_, _, rfl, by decide⟩
  | number hsign hw hf he =>
    -- a number starts with its minus or with a digit
    rcases hsign with rfl | rfl
    · cases hw with
      | zero => exact ⟨_, _, rfl, by decide⟩
      | digits hc hzero hd => exact ⟨_, _, rfl, by rw [opensValue, hc, Bool.or_true]⟩
    · exact ⟨_, _, rfl, by decide⟩
  | empty frame hw => exact ⟨_, _, rfl, by cases frame <;> decide⟩
  | @group frame s hs => exact ⟨_, _, rfl, by cases frame <;> decide⟩

/-! ### What follows a value -/

/-- No byte of a number follows if the next one is none. -/
private theorem follows_cons {c : Byte} (hdigit : c.isDigit = false)
    (hmark : c.among ['.', 'e', 'E'] = false) (s : List Byte) : Follows (c :: s) := by
  intro d hd
  obtain rfl := Option.some.inj hd
  exact ⟨hdigit, hmark⟩

/-- Whitespace may come before what follows, since it is no part of a number. -/
private theorem follows_white_append {w s : List Byte} (hw : White w) (hs : Follows s) :
    Follows (w ++ s) := by
  cases w with
  | nil => exact hs
  | cons c w =>
    have hc := hw.isWhite c (List.mem_cons_self ..)
    have hdigit : c.isDigit = false := by
      rw [Bool.eq_false_iff]
      intro hdigit
      have hwhite : isWhite c = false :=
        Byte.excludes_among (p := Byte.isDigit) (by decide) c hdigit
      rw [hwhite] at hc
      cases hc
    exact follows_cons hdigit (Byte.excludes_among (p := isWhite) (by decide) c hc) (w ++ s)

/-- Behind the last value of a list or object comes its closing bracket. -/
theorem follows_closer {w : List Byte} (hw : White w) (frame : Frame) (s : List Byte) :
    Follows (w ++ ofChar frame.closer :: s) :=
  follows_white_append hw (by cases frame <;> exact follows_cons rfl rfl s)

theorem follows_comma {w : List Byte} (hw : White w) (s : List Byte) :
    Follows (w ++ ofChar ',' :: s) :=
  follows_white_append hw (follows_cons rfl rfl s)

/-! ### Skipping -/

/-- A key is read as the string that it is, and then its colon. Here `x` is what follows the string,
and `w` the whitespace behind the colon. -/
theorem KeyText.readKey_append {key l : List Byte} (hl : KeyText key l) (rest : List Byte) :
    ∃ x, (∀ strict, readKey strict (l ++ rest) = readString strict (key ++ ofChar '"' :: x)) ∧
      ∃ w, White w ∧ readColon x = .ok (w ++ rest) := by
  cases hl with
  | @quoted w w' w'' hw hw' hw'' =>
    refine ⟨w' ++ ofChar ':' :: (w'' ++ rest), fun strict => ?_, w'', hw'', ?_⟩
    · simp only [List.append_assoc, List.cons_append]
      rw [readKey, skipWhite_append hw, skipWhite_cons (by decide)]
      exact if_pos (by decide)
    · rw [readColon, skipWhite_append hw', skipWhite_cons (by decide)]
      exact if_pos (by decide)

/-- Behind whitespace, a key starts with its quote. -/
theorem KeyText.skipWhite_append {key l : List Byte} (hl : KeyText key l) (s : List Byte) :
    ∃ rest, skipWhite (l ++ s) = ofChar '"' :: rest := by
  cases hl with
  | quoted hw hw' hw'' =>
    simp only [List.append_assoc, List.cons_append]
    rw [Json.skipWhite_append hw, skipWhite_cons (by decide)]
    exact ⟨_, rfl⟩

/-- Skips the elements of a list or object from the first of those that are left on, and then the
rest of the lists and objects of `stack` that it stands in. -/
def skipElements (frame : Frame) (stack : List Frame) (s : List Byte) :
    Except ReadFault (List Byte) :=
  match frame with
  | .list => skipValue (.list :: stack) s
  | .object =>
    match skipKey s with
    | .error e => .error e
    | .ok rest => skipValue (.object :: stack) rest

private theorem skipValue_skipWhite (stack : List Frame) (s : List Byte) :
    skipValue stack (skipWhite s) = skipValue stack s := by
  rw [skipValue, skipValue, skipWhite_skipWhite]

theorem skipValue_white_append {w : List Byte} (hw : White w) (stack : List Frame)
    (s : List Byte) : skipValue stack (w ++ s) = skipValue stack s := by
  rw [← skipValue_skipWhite, skipWhite_append hw, skipValue_skipWhite]

private theorem skipKey_skipWhite (s : List Byte) : skipKey (skipWhite s) = skipKey s := by
  rw [skipKey, skipKey, readKey, readKey, skipWhite_skipWhite]

private theorem skipElements_skipWhite (frame : Frame) (stack : List Frame) (s : List Byte) :
    skipElements frame stack (skipWhite s) = skipElements frame stack s := by
  cases frame with
  | list => exact skipValue_skipWhite _ s
  | object => rw [skipElements, skipElements, skipKey_skipWhite]

/-- **What stands before an element is skipped first**: whitespace in a list, and a key with its
colon in an object. Then the value is skipped with its list or object on the stack. -/
private theorem Lead.skipElements_append {frame : Frame} {l : List Byte} (h : Lead frame l)
    (stack : List Frame) (s : List Byte) :
    skipElements frame stack (l ++ s) = skipValue (frame :: stack) s := by
  cases h with
  | list hw => exact skipValue_white_append hw _ s
  | @object key l hkey hl =>
    obtain ⟨x, hread, w, hw, hcolon⟩ := hl.readKey_append s
    obtain ⟨t, ht⟩ := hkey.readString_append x
    have hskip : skipKey (l ++ s) = .ok (w ++ s) := by
      rw [skipKey, hread, ht]
      exact hcolon
    rw [skipElements, hskip]
    exact skipValue_white_append hw _ s

/-- A value that is neither list nor object is skipped by itself, and what follows is skipped with
the same stack. -/
private theorem skipValue_scalar {c : Byte} {s rest : List Byte} (hc : opensValue c = true)
    (hbracket : c.among ['[', '{'] = false) (hs : skipScalar c s = .ok rest)
    (stack : List Frame) : skipValue stack (c :: s) = skipRest stack rest := by
  have hlist : ¬ c.is '[' = true := List.any_eq_false.mp hbracket '[' (by simp)
  have hobject : ¬ c.is '{' = true := List.any_eq_false.mp hbracket '{' (by simp)
  rw [skipValue, skipWhite_cons (isWhite_of_opensValue hc)]
  dsimp only
  rw [if_neg hlist, if_neg hobject, hs]

/-- An empty list or object is closed right after it was opened. -/
private theorem skipValue_empty {frame : Frame} {s rest : List Byte}
    (hs : skipWhite s = ofChar frame.closer :: rest) (stack : List Frame) :
    skipValue stack (ofChar frame.brackets.1 :: s) = skipRest stack rest := by
  cases frame with
  | list =>
    rw [skipValue, skipWhite_cons (by decide)]
    dsimp only
    rw [if_pos (by decide), hs]
    rfl
  | object =>
    rw [skipValue, skipWhite_cons (by decide)]
    dsimp only
    rw [if_neg (by decide), if_pos (by decide), hs]
    rfl

/-- Any other goes on with its elements. The byte behind the bracket is not the one that closes
it. -/
private theorem skipValue_group {frame : Frame} {c : Byte} {s rest : List Byte}
    (hs : skipWhite s = c :: rest) (hc : c.is frame.closer = false) (stack : List Frame) :
    skipValue stack (ofChar frame.brackets.1 :: s) = skipElements frame stack s := by
  have hc : ¬ c.is frame.closer = true := by
    rw [hc]
    exact Bool.false_ne_true
  rw [← skipElements_skipWhite]
  cases frame with
  | list =>
    rw [skipValue, skipWhite_cons (by decide)]
    dsimp only
    rw [if_pos (by decide), hs]
    exact if_neg hc
  | object =>
    rw [skipValue, skipWhite_cons (by decide)]
    dsimp only
    rw [if_neg (by decide), if_pos (by decide), hs]
    refine (if_neg hc).trans ?_
    rw [skipElements]
    cases skipKey (c :: rest) <;> rfl

/-- A closing bracket takes its list or object off the stack. -/
private theorem skipRest_closer {w : List Byte} (hw : White w) (frame : Frame) (stack : List Frame)
    (s : List Byte) :
    skipRest (frame :: stack) (w ++ ofChar frame.closer :: s) = skipRest stack s := by
  rw [skipRest, skipWhite_append hw, skipWhite_cons (by cases frame <;> decide)]
  dsimp only
  rw [if_neg (by cases frame <;> decide), if_pos (by cases frame <;> decide)]

/-- A comma leads on to the next element. -/
private theorem skipRest_comma {w : List Byte} (hw : White w) (frame : Frame) (stack : List Frame)
    (s : List Byte) :
    skipRest (frame :: stack) (w ++ ofChar ',' :: s) = skipElements frame stack s := by
  rw [skipRest, skipWhite_append hw, skipWhite_cons (by decide)]
  dsimp only
  rw [if_pos (by decide)]
  cases frame with
  | list => rfl
  | object =>
    rw [skipElements]
    cases skipKey s <;> rfl

/-- What skipping a text leads to. -/
def Part.Skips : Part → List Byte → Prop
  | .value, v => ∀ stack rest, Follows rest → skipValue stack (v ++ rest) = skipRest stack rest
  | .elements frame, s => ∀ stack rest,
    skipElements frame stack (s ++ ofChar frame.closer :: rest) = skipRest stack rest

/-- An element does not start with the closing bracket of its list or object. -/
theorem Lead.skipWhite_append {frame : Frame} {l v : List Byte} (hl : Lead frame l)
    (hv : Written .value v) (s : List Byte) :
    ∃ c rest, skipWhite (l ++ (v ++ s)) = c :: rest ∧ c.is frame.closer = false := by
  cases hl with
  | list hw =>
    obtain ⟨c, t, rfl, hc⟩ := hv.first
    have hcloser : c.among [']'] = false :=
      Byte.excludes_among (p := opensValue) (by decide) c hc
    refine ⟨c, t ++ s, ?_, by simpa [Byte.among, Frame.closer] using hcloser⟩
    rw [Json.skipWhite_append hw, List.cons_append, skipWhite_cons (isWhite_of_opensValue hc)]
  | object hkey hl =>
    obtain ⟨rest, hrest⟩ := hl.skipWhite_append (v ++ s)
    exact ⟨_, rest, hrest, by decide⟩

/-- So neither do the elements. -/
theorem Written.skipWhite_append {frame : Frame} {s : List Byte} (h : Written (.elements frame) s)
    (x : List Byte) : ∃ c rest, skipWhite (s ++ x) = c :: rest ∧ c.is frame.closer = false := by
  cases h with
  | last hl hv hw =>
    simp only [List.append_assoc]
    exact hl.skipWhite_append hv _
  | more hl hv hw hs =>
    simp only [List.append_assoc]
    exact hl.skipWhite_append hv _

/-- A number is skipped up to a byte that is none, with or without a minus. Without one, its first
byte is a digit, which tells it from all other values. -/
private theorem skipValue_number {sign w f e rest : List Byte}
    (hsign : sign = [] ∨ sign = [ofChar '-']) (hw : Whole w) (hf : Fraction f) (he : Exponent e)
    (hrest : Follows rest) (stack : List Frame) :
    skipValue stack (sign ++ (w ++ (f ++ e)) ++ rest) = skipRest stack rest := by
  obtain ⟨d, hd⟩ := readNumber_append hw hf he hrest .malformed
  simp only [List.append_assoc]
  rcases hsign with rfl | rfl
  · have hfirst : ∃ c t, w ++ (f ++ (e ++ rest)) = c :: t ∧ c.isDigit = true := by
      cases hw with
      | zero => exact ⟨_, _, rfl, by decide⟩
      | digits hc hzero hall => exact ⟨_, _, rfl, hc⟩
    obtain ⟨c, t, hct, hc⟩ := hfirst
    rw [hct] at hd
    -- a digit starts no other value
    have hother : c.among ['n', 't', 'f', '"', '-', '[', '{'] = false :=
      Byte.excludes_among (p := Byte.isDigit) (by decide) c hc
    simp only [Byte.among, List.any_cons, List.any_nil, Bool.or_false,
      Bool.or_eq_false_iff] at hother
    obtain ⟨hn, ht, hf, hquote, hminus, hlist, hobject⟩ := hother
    rw [List.nil_append, hct]
    have hbracket : c.among ['[', '{'] = false := by simp [Byte.among, hlist, hobject]
    refine skipValue_scalar (by simp [opensValue, hc]) hbracket ?_ stack
    simp [skipScalar, hn, ht, hf, hquote, hminus, hc, hd, Except.map]
  · -- a minus comes before the number
    refine skipValue_scalar (by decide) (by decide) ?_ stack
    show (readNumber .malformed (w ++ (f ++ (e ++ rest)))).map (·.2) = .ok rest
    rw [hd]
    rfl

/-- **Texts are skipped up to their ends.** The induction is on the text: the elements of a list or
object are skipped with the stack that has it on top, whatever is below. -/
theorem Written.skips {p : Part} {s : List Byte} (h : Written p s) : p.Skips s := by
  induction h with
  | @word word h =>
    intro stack rest _
    simp only [List.mem_cons, List.not_mem_nil, or_false] at h
    rcases h with rfl | rfl | rfl
    · refine skipValue_scalar (by decide) (by decide) ?_ stack
      exact @expect_append ['u', 'l', 'l'] (by decide) rest
    · refine skipValue_scalar (by decide) (by decide) ?_ stack
      exact @expect_append ['r', 'u', 'e'] (by decide) rest
    · refine skipValue_scalar (by decide) (by decide) ?_ stack
      exact @expect_append ['a', 'l', 's', 'e'] (by decide) rest
  | @string s hs =>
    intro stack rest _
    obtain ⟨t, ht⟩ := hs.readString_append rest
    rw [List.cons_append, List.append_assoc, List.singleton_append]
    refine skipValue_scalar (by decide) (by decide) ?_ stack
    show (readString false (s ++ ofChar '"' :: rest)).map (·.2) = .ok rest
    rw [ht]
    rfl
  | number hsign hw hf he =>
    intro stack rest hrest
    exact skipValue_number hsign hw hf he hrest stack
  | @empty frame w hw =>
    intro stack rest _
    rw [List.cons_append, List.append_assoc, List.singleton_append, frame.brackets_snd]
    refine skipValue_empty ?_ stack
    rw [Json.skipWhite_append hw, skipWhite_cons (by cases frame <;> decide)]
  | @group frame s hs ih =>
    intro stack rest _
    rw [List.cons_append, List.append_assoc, List.singleton_append, frame.brackets_snd]
    -- the first element does not start with the closing bracket, so the group is not empty
    obtain ⟨c, t, hct, hc⟩ := hs.skipWhite_append (ofChar frame.closer :: rest)
    rw [skipValue_group hct hc, ih stack rest]
  | @last frame l v w hl hv hw ih =>
    -- the last element is followed by the closing bracket
    intro stack rest
    simp only [List.append_assoc]
    rw [hl.skipElements_append, ih _ _ (follows_closer hw frame rest), skipRest_closer hw]
  | @more frame l v w s hl hv hw hs ihv ihs =>
    -- any other is followed by a comma
    intro stack rest
    simp only [List.append_assoc, List.cons_append]
    rw [hl.skipElements_append, ihv _ _ (follows_comma hw _), skipRest_comma hw, ihs stack rest]

end TypeErasure.Json
