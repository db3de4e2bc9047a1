import TypeErasure.Bytes
import TypeErasure.Decimal

/-!
# Reading JSON

Functions that read a part of a JSON text off the front of a byte list and return what is left. A
text can fail in three ways, told apart by `ReadFault`, and is read strictly from left to right, so
that the first fault decides.

A value can be read for what it is, or skipped. Skipping is more lenient about the halves of
surrogate pairs and looks at numbers only as far as their form goes; where the text ends within a
number, skipping calls the number malformed.

Main statements: what is left is shorter than what was read from (`length_lt_of_readString`,
`length_lt_of_readNumber`, `length_lt_of_skipValue`).
-/

namespace TypeErasure

/-- How a JSON text fails. -/
inductive ReadFault where
  /-- The text ends too early. -/
  | ended
  /-- The text is not JSON. -/
  | malformed
  /-- The text is JSON, but not of the form that is asked for. -/
  | mismatched
  deriving DecidableEq, Repr

namespace Json

/-! ### Whitespace and words -/

/-- Whitespace of JSON. -/
def isWhite (c : Byte) : Bool :=
  c.among [' ', '\t', '\n', '\r']

/-- The text without the whitespace at its front. -/
def skipWhite (s : List Byte) : List Byte :=
  s.dropWhile isWhite

/-- Skipping whitespace leaves no more than there was. -/
theorem length_skipWhite_le (s : List Byte) : (skipWhite s).length ≤ s.length :=
  (List.dropWhile_suffix _).length_le

/-- Reads the bytes of a word. -/
def expect : List Char → List Byte → Except ReadFault (List Byte)
  | [], s => .ok s
  | _ :: _, [] => .error .ended
  | ch :: word, c :: s => if c.is ch then expect word s else .error .malformed

/-- Behind a word there is no more than there was before it. -/
theorem length_le_of_expect {word : List Char} {s rest : List Byte}
    (h : expect word s = .ok rest) : rest.length ≤ s.length := by
  fun_induction expect word s with
  | case1 s => simp_all
  | case2 => simp at h
  | case3 ch word c s _ ih =>
    have := ih h
    simp only [List.length_cons]
    omega
  | case4 => simp at h

/-! ### Numbers -/

/-- Reads one or more digits. `atEnd` is the fault of a text that ends before the first. -/
def readDigits (atEnd : ReadFault) (s : List Byte) :
    Except ReadFault (List Byte × List Byte) :=
  match s with
  | [] => .error atEnd
  | c :: _ =>
    if c.isDigit then .ok (s.takeWhile Byte.isDigit, s.dropWhile Byte.isDigit)
    else .error .malformed

/-- Digits take at least one byte off the text: the first byte has been tested. -/
private theorem length_lt_of_readDigits {atEnd : ReadFault} {s digits rest : List Byte}
    (h : readDigits atEnd s = .ok (digits, rest)) : rest.length < s.length := by
  unfold readDigits at h
  split at h
  · simp at h
  · split at h
    · rename_i c tail hc
      simp only [Except.ok.injEq, Prod.mk.injEq, List.dropWhile_cons, hc, if_true] at h
      obtain ⟨-, rfl⟩ := h
      exact Nat.lt_succ_of_le (List.dropWhile_suffix _).length_le
    · simp at h

/-- Reads the digits before the point. A zero stands alone. -/
def readWhole (atEnd : ReadFault) (s : List Byte) : Except ReadFault (List Byte × List Byte) :=
  match readDigits atEnd s with
  | .error e => .error e
  | .ok (digits, rest) =>
    if digits.head?.any (·.is '0') && digits.length != 1 then .error .malformed
    else .ok (digits, rest)

/-- Reads a point and the digits behind it, if there is a point. -/
def readFraction (atEnd : ReadFault) : List Byte → Except ReadFault (List Byte × List Byte)
  | [] => .ok ([], [])
  | c :: s => if c.is '.' then readDigits atEnd s else .ok ([], c :: s)

/-- Reads the exponent, if there is one. -/
def readExponent (atEnd : ReadFault) : List Byte → Except ReadFault (Int × List Byte)
  | [] => .ok (0, [])
  | c :: s =>
    if c.among ['e', 'E'] then
      let negative := s.head?.any (·.is '-')
      let digits := if s.head?.any (·.among ['+', '-']) then s.tail else s
      match readDigits atEnd digits with
      | .error e => .error e
      | .ok (digits, rest) =>
        let n : Int := digitsValue digits
        .ok (if negative then -n else n, rest)
    else .ok (0, c :: s)

/-- Reads a number behind its sign. `atEnd` is the fault of a text that ends within it. -/
def readNumber (atEnd : ReadFault) (s : List Byte) : Except ReadFault (Decimal × List Byte) :=
  match readWhole atEnd s with
  | .error e => .error e
  | .ok (whole, s) =>
    match readFraction atEnd s with
    | .error e => .error e
    | .ok (fraction, s) =>
      match readExponent atEnd s with
      | .error e => .error e
      | .ok (exponent, s) =>
        .ok (.ofDigits whole fraction exponent, s)

/-- The digits before the point take at least one byte off the text. -/
private theorem length_lt_of_readWhole {atEnd : ReadFault} {s digits rest : List Byte}
    (h : readWhole atEnd s = .ok (digits, rest)) : rest.length < s.length := by
  unfold readWhole at h
  split at h
  · simp at h
  · rename_i hd
    split at h
    · simp at h
    · simp only [Except.ok.injEq, Prod.mk.injEq] at h
      obtain ⟨-, rfl⟩ := h
      exact length_lt_of_readDigits hd

/-- A fraction may be missing, and otherwise takes its point and its digits off the text. -/
private theorem length_le_of_readFraction {atEnd : ReadFault} {s digits rest : List Byte}
    (h : readFraction atEnd s = .ok (digits, rest)) : rest.length ≤ s.length := by
  unfold readFraction at h
  split at h
  · simp only [Except.ok.injEq, Prod.mk.injEq] at h
    obtain ⟨-, rfl⟩ := h
    exact Nat.le_refl _
  · split at h
    · have := length_lt_of_readDigits h
      simp only [List.length_cons]
      omega
    · simp only [Except.ok.injEq, Prod.mk.injEq] at h
      obtain ⟨-, rfl⟩ := h
      exact Nat.le_refl _

/-- An exponent may be missing, and otherwise takes its letter, its sign and its digits off the
text. -/
private theorem length_le_of_readExponent {atEnd : ReadFault} {s rest : List Byte} {n : Int}
    (h : readExponent atEnd s = .ok (n, rest)) : rest.length ≤ s.length := by
  unfold readExponent at h
  split at h
  · -- the text is over
    simp only [Except.ok.injEq, Prod.mk.injEq] at h
    obtain ⟨-, rfl⟩ := h
    exact Nat.le_refl _
  · split at h
    · dsimp only at h
      split at h
      · simp at h
      · rename_i hd
        simp only [Except.ok.injEq, Prod.mk.injEq] at h
        obtain ⟨-, rfl⟩ := h
        have := length_lt_of_readDigits hd
        -- with a sign or without, what is left is shorter
        split at this
        · simp only [List.length_tail] at this
          simp only [List.length_cons]
          omega
        · simp only [List.length_cons]
          omega
    · -- there is no exponent
      simp only [Except.ok.injEq, Prod.mk.injEq] at h
      obtain ⟨-, rfl⟩ := h
      exact Nat.le_refl _

/-- A number takes at least one byte off the text, since its whole part does and the other two parts
give nothing back. -/
theorem length_lt_of_readNumber {atEnd : ReadFault} {s rest : List Byte} {d : Decimal}
    (h : readNumber atEnd s = .ok (d, rest)) : rest.length < s.length := by
  unfold readNumber at h
  split at h
  · simp at h
  · rename_i hw
    split at h
    · simp at h
    · rename_i hf
      split at h
      · simp at h
      · rename_i he
        simp only [Except.ok.injEq, Prod.mk.injEq] at h
        obtain ⟨-, rfl⟩ := h
        have := length_lt_of_readWhole hw
        have := length_le_of_readFraction hf
        have := length_le_of_readExponent he
        omega

/-! ### Strings -/

/-- The value of a hexadecimal digit. -/
def hexValue? (c : Byte) : Option Nat :=
  if c.isDigit then some (c.toNat - 48)
  else if c.between 'a' 'f' then some (c.toNat - 87)
  else if c.between 'A' 'F' then some (c.toNat - 55)
  else none

/-- Reads four hexadecimal digits. A text of fewer than four bytes ends too early, whatever these
bytes are. -/
def readHex4 : List Byte → Except ReadFault (Nat × List Byte)
  | a :: b :: c :: d :: rest =>
    match hexValue? a, hexValue? b, hexValue? c, hexValue? d with
    | some a, some b, some c, some d => .ok (((a * 16 + b) * 16 + c) * 16 + d, rest)
    | _, _, _, _ => .error .malformed
  | _ => .error .ended

/-- Four digits take four bytes off the text. -/
private theorem length_of_readHex4 {s rest : List Byte} {n : Nat} (h : readHex4 s = .ok (n, rest)) :
    rest.length + 4 = s.length := by
  unfold readHex4 at h
  split at h
  · split at h
    · simp only [Except.ok.injEq, Prod.mk.injEq] at h
      obtain ⟨-, rfl⟩ := h
      simp
    · simp at h
  · simp at h

/-- The first half of a surrogate pair. -/
def isHighSurrogate (n : Nat) : Bool :=
  0xd800 ≤ n && n < 0xdc00

/-- The second half of a surrogate pair. -/
def isLowSurrogate (n : Nat) : Bool :=
  0xdc00 ≤ n && n < 0xe000

/-- Reads the second half of a surrogate pair and gives the character of the pair. -/
def readLowSurrogate (high : Nat) : List Byte → Except ReadFault (Nat × List Byte)
  | [] => .error .ended
  | [c] => if c.is '\\' then .error .ended else .error .malformed
  | c :: u :: rest =>
    if c.is '\\' && u.is 'u' then
      match readHex4 rest with
      | .error e => .error e
      | .ok (low, rest) =>
        if isLowSurrogate low then .ok ((high - 0xd800) * 1024 + (low - 0xdc00) + 0x10000, rest)
        else .error .malformed
    else .error .malformed

/-- Reads a character given by its number. Halves of surrogate pairs have to form pairs if `strict`
holds, and each stands for itself otherwise. -/
def readCodePoint (strict : Bool) (s : List Byte) : Except ReadFault (Nat × List Byte) :=
  match readHex4 s with
  | .error e => .error e
  | .ok (n, rest) =>
    if strict && isLowSurrogate n then .error .malformed
    else if strict && isHighSurrogate n then readLowSurrogate n rest
    else .ok (n, rest)

/-- A character given by its number takes the digits of one or of two halves off the text. -/
private theorem length_le_of_readCodePoint {strict : Bool} {s rest : List Byte} {n : Nat}
    (h : readCodePoint strict s = .ok (n, rest)) : rest.length ≤ s.length := by
  unfold readCodePoint at h
  split at h
  · simp at h
  · rename_i hx
    have hlen := length_of_readHex4 hx
    split at h
    · simp at h
    · split at h
      · -- the second half of a pair follows
        unfold readLowSurrogate at h
        split at h
        · simp at h
        · split at h <;> simp at h
        · split at h
          · split at h
            · simp at h
            · rename_i hy
              have := length_of_readHex4 hy
              split at h
              · simp only [Except.ok.injEq, Prod.mk.injEq] at h
                obtain ⟨-, rfl⟩ := h
                simp only [List.length_cons] at hlen
                omega
              · simp at h
          · simp at h
      · -- one code alone
        simp only [Except.ok.injEq, Prod.mk.injEq] at h
        obtain ⟨-, rfl⟩ := h
        omega

/-- The byte that a letter behind a backslash stands for. -/
def shortEscape? (c : Byte) : Option Byte :=
  if c.among ['"', '\\', '/'] then some c
  else if c.is 'b' then some 8
  else if c.is 'f' then some 12
  else if c.is 'n' then some 10
  else if c.is 'r' then some 13
  else if c.is 't' then some 9
  else none

/-- Reads what stands behind a backslash. -/
def readEscape (strict : Bool) : List Byte → Except ReadFault (List Byte × List Byte)
  | [] => .error .ended
  | c :: s =>
    if c.is 'u' then
      match readCodePoint strict s with
      | .error e => .error e
      | .ok (n, rest) => .ok (String.utf8EncodeChar (Char.ofNat n), rest)
    else match shortEscape? c with
      | some c => .ok ([c], s)
      | none => .error .malformed

/-- An escape takes at least the byte behind the backslash off the text. -/
private theorem length_lt_of_readEscape {strict : Bool} {s t rest : List Byte}
    (h : readEscape strict s = .ok (t, rest)) : rest.length < s.length := by
  unfold readEscape at h
  split at h
  · simp at h
  · split at h
    · split at h
      · simp at h
      · rename_i hc
        simp only [Except.ok.injEq, Prod.mk.injEq] at h
        obtain ⟨-, rfl⟩ := h
        exact Nat.lt_succ_of_le (length_le_of_readCodePoint hc)
    · split at h
      · simp only [Except.ok.injEq, Prod.mk.injEq] at h
        obtain ⟨-, rfl⟩ := h
        simp
      · simp at h

/-- Reads a string behind its opening quote, and its closing quote. -/
def readString (strict : Bool) (s : List Byte) : Except ReadFault (List Byte × List Byte) :=
  match s with
  | [] => .error .ended
  | c :: s =>
    if c.is '"' then .ok ([], s)
    else if c.is '\\' then
      match _h : readEscape strict s with
      | .error e => .error e
      | .ok (t, rest) =>
        match readString strict rest with
        | .error e => .error e
        | .ok (more, rest) => .ok (t ++ more, rest)
    else if c.toNat < 32 then .error .malformed
    else
      match readString strict s with
      | .error e => .error e
      | .ok (more, rest) => .ok (c :: more, rest)
termination_by s.length
decreasing_by
  · have := length_lt_of_readEscape _h
    simp only [List.length_cons]
    omega
  · simp

/-- A string takes at least its closing quote off the text. The induction follows the reading of the
string, and each of its steps leaves less than it found. -/
theorem length_lt_of_readString {strict : Bool} {s t rest : List Byte}
    (h : readString strict s = .ok (t, rest)) : rest.length < s.length := by
  fun_induction readString strict s generalizing t rest with
  | case1 => simp at h
  | case2 c s =>
    -- the closing quote
    simp only [Except.ok.injEq, Prod.mk.injEq] at h
    obtain ⟨-, rfl⟩ := h
    simp
  | case3 => simp at h
  | case4 => simp at h
  | case5 c s _ _ t' rest' hesc more rest'' hmore ih =>
    -- an escape, and then the rest of the string
    simp only [Except.ok.injEq, Prod.mk.injEq] at h
    obtain ⟨-, rfl⟩ := h
    have := length_lt_of_readEscape hesc
    have := ih hmore
    simp only [List.length_cons]
    omega
  | case6 => simp at h
  | case7 => simp at h
  | case8 c s _ _ _ more rest' hmore ih =>
    -- any other byte
    simp only [Except.ok.injEq, Prod.mk.injEq] at h
    obtain ⟨-, rfl⟩ := h
    have := ih hmore
    simp only [List.length_cons]
    omega

/-! ### Skipping values -/

/-- A list or object that is being skipped. -/
inductive Frame where
  | list
  | object
  deriving DecidableEq, Repr

/-- The bracket that closes a list or object. -/
def Frame.closer : Frame → Char
  | list => ']'
  | object => '}'

/-- Skips a value that holds no other value, of which `c` is the first byte. -/
def skipScalar (c : Byte) (s : List Byte) : Except ReadFault (List Byte) :=
  if c.is 'n' then expect ['u', 'l', 'l'] s
  else if c.is 't' then expect ['r', 'u', 'e'] s
  else if c.is 'f' then expect ['a', 'l', 's', 'e'] s
  else if c.is '"' then (readString false s).map (·.2)
  else if c.is '-' then (readNumber .malformed s).map (·.2)
  else if c.isDigit then (readNumber .malformed (c :: s)).map (·.2)
  else .error .malformed

/-- A scalar takes at least its first byte off the text. The forms are gone through one by one; a
number without a sign is read again from its first byte on, which is why the bound is stated for the
text with that byte. -/
private theorem length_lt_of_skipScalar {c : Byte} {s rest : List Byte}
    (h : skipScalar c s = .ok rest) : rest.length < (c :: s).length := by
  -- what is dropped is only the value that was read
  have hmap {α : Type} {x : Except ReadFault (α × List Byte)} (h : x.map (·.2) = .ok rest) :
      ∃ a, x = .ok (a, rest) := by
    cases x with
    | error e => simp [Except.map] at h
    | ok p => exact ⟨p.1, by simpa [Except.map, Prod.ext_iff] using h⟩
  simp only [List.length_cons]
  unfold skipScalar at h
  split at h
  · -- `null`, `true` and `false`
    have := length_le_of_expect h
    omega
  · split at h
    · have := length_le_of_expect h
      omega
    · split at h
      · have := length_le_of_expect h
        omega
      · split at h
        · -- a string
          obtain ⟨_, h⟩ := hmap h
          have := length_lt_of_readString h
          omega
        · split at h
          · -- a number with a sign and one without
            obtain ⟨_, h⟩ := hmap h
            have := length_lt_of_readNumber h
            omega
          · split at h
            · obtain ⟨_, h⟩ := hmap h
              simpa using length_lt_of_readNumber h
            · simp at h

/-- Reads the key of a member with its quotes. -/
def readKey (strict : Bool) (s : List Byte) : Except ReadFault (List Byte × List Byte) :=
  match skipWhite s with
  | [] => .error .ended
  | c :: s => if c.is '"' then readString strict s else .error .malformed

/-- Reads the colon between a key and its value. -/
def readColon (s : List Byte) : Except ReadFault (List Byte) :=
  match skipWhite s with
  | [] => .error .ended
  | c :: s => if c.is ':' then .ok s else .error .malformed

/-- A key takes at least its opening quote off the text. -/
theorem length_lt_of_readKey {strict : Bool} {s key rest : List Byte}
    (h : readKey strict s = .ok (key, rest)) : rest.length < s.length := by
  have hw := length_skipWhite_le s
  unfold readKey at h
  split at h
  · simp at h
  · rename_i hs
    rw [hs, List.length_cons] at hw
    split at h
    · have := length_lt_of_readString h
      omega
    · simp at h

/-- A colon takes itself off the text. -/
theorem length_lt_of_readColon {s rest : List Byte} (h : readColon s = .ok rest) :
    rest.length < s.length := by
  have hw := length_skipWhite_le s
  unfold readColon at h
  split at h
  · simp at h
  · rename_i hs
    rw [hs, List.length_cons] at hw
    split at h
    · obtain rfl := Except.ok.inj h
      omega
    · simp at h

/-- Skips the key of a member and the colon behind it. -/
def skipKey (s : List Byte) : Except ReadFault (List Byte) :=
  match readKey false s with
  | .error e => .error e
  | .ok (_, rest) => readColon rest

/-- A key and its colon take at least a byte off the text. -/
private theorem length_lt_of_skipKey {s rest : List Byte} (h : skipKey s = .ok rest) :
    rest.length < s.length := by
  unfold skipKey at h
  split at h
  · simp at h
  · rename_i hk
    have := length_lt_of_readKey hk
    have := length_lt_of_readColon h
    omega

mutual

/-- Skips a value, and then the rest of the lists and objects of `stack` that it stands in. -/
def skipValue (stack : List Frame) (s : List Byte) : Except ReadFault (List Byte) :=
  match _hs : skipWhite s with
  | [] => .error .ended
  | c :: s' =>
    if c.is '[' then
      match _ht : skipWhite s' with
      | [] => .error .ended
      | d :: rest =>
        if d.is ']' then skipRest stack rest else skipValue (.list :: stack) (d :: rest)
    else if c.is '{' then
      match _ht : skipWhite s' with
      | [] => .error .ended
      | d :: rest =>
        if d.is '}' then skipRest stack rest
        else match _hk : skipKey (d :: rest) with
          | .error e => .error e
          | .ok rest => skipValue (.object :: stack) rest
    else
      match _hk : skipScalar c s' with
      | .error e => .error e
      | .ok rest => skipRest stack rest
termination_by s.length
decreasing_by
  all_goals
    have hs := length_skipWhite_le s
    rw [_hs] at hs
    simp only [List.length_cons] at hs ⊢
  · have ht := length_skipWhite_le s'
    rw [_ht, List.length_cons] at ht
    omega
  · have ht := length_skipWhite_le s'
    rw [_ht, List.length_cons] at ht
    omega
  · have ht := length_skipWhite_le s'
    rw [_ht, List.length_cons] at ht
    omega
  · have ht := length_skipWhite_le s'
    rw [_ht, List.length_cons] at ht
    have := length_lt_of_skipKey _hk
    simp only [List.length_cons] at this
    omega
  · have := length_lt_of_skipScalar _hk
    simp only [List.length_cons] at this
    omega

/-- Skips the rest of the lists and objects of `stack`, of which the innermost comes first and has
just been given a value. -/
def skipRest (stack : List Frame) (s : List Byte) : Except ReadFault (List Byte) :=
  match stack with
  | [] => .ok s
  | frame :: outer =>
    match _hs : skipWhite s with
    | [] => .error .ended
    | c :: s' =>
      if c.is ',' then
        match frame with
        | .list => skipValue (.list :: outer) s'
        | .object =>
          match _hk : skipKey s' with
          | .error e => .error e
          | .ok rest => skipValue (.object :: outer) rest
      else if c.is frame.closer then skipRest outer s'
      else .error .malformed
termination_by s.length
decreasing_by
  all_goals
    have hs := length_skipWhite_le s
    rw [_hs] at hs
    simp only [List.length_cons] at hs
  · omega
  · have := length_lt_of_skipKey _hk
    omega
  · omega

end

/-- What is left behind a value is shorter than what it was read from, and what is left behind the
rest of the open lists and objects is not longer. The two functions call each other with ever
shorter texts, so both halves are proved at once, by induction on a bound of the length. -/
private theorem length_skip (n : Nat) : ∀ (stack : List Frame) (s : List Byte), s.length ≤ n →
    (∀ rest, skipValue stack s = .ok rest → rest.length < s.length) ∧
      ∀ rest, skipRest stack s = .ok rest → rest.length ≤ s.length := by
  induction n with
  | zero =>
    intro stack s hn
    obtain rfl := List.eq_nil_of_length_eq_zero (Nat.le_zero.mp hn)
    constructor
    · intro rest h
      simp [skipValue, skipWhite] at h
    · intro rest h
      rw [skipRest.eq_def] at h
      split at h
      · obtain rfl := Except.ok.inj h
        exact Nat.le_refl _
      · simp [skipWhite] at h
  | succ n ih =>
    intro stack s hn
    have hw := length_skipWhite_le s
    constructor
    · intro rest h
      rw [skipValue] at h
      split at h
      · simp at h
      · rename_i c s' hs
        rw [hs, List.length_cons] at hw
        have hw' := length_skipWhite_le s'
        split at h
        · split at h
          · simp at h
          · rename_i d t ht
            rw [ht, List.length_cons] at hw'
            -- the list is empty, or its first value follows
            split at h
            · have := (ih _ t (by omega)).2 _ h
              omega
            · have := (ih _ (d :: t) (by simp only [List.length_cons]; omega)).1 _ h
              simp only [List.length_cons] at this
              omega
        · split at h
          · split at h
            · simp at h
            · rename_i d t ht
              rw [ht, List.length_cons] at hw'
              -- the object is empty, or its first key follows
              split at h
              · have := (ih _ t (by omega)).2 _ h
                omega
              · split at h
                · simp at h
                · rename_i t' hk
                  have hk := length_lt_of_skipKey hk
                  simp only [List.length_cons] at hk
                  have := (ih _ t' (by omega)).1 _ h
                  omega
          · split at h
            · simp at h
            · rename_i t hk
              have hk := length_lt_of_skipScalar hk
              simp only [List.length_cons] at hk
              have := (ih _ t (by omega)).2 _ h
              omega
    · intro rest h
      rw [skipRest.eq_def] at h
      split at h
      · obtain rfl := Except.ok.inj h
        exact Nat.le_refl _
      · split at h
        · simp at h
        · rename_i c s' hs
          rw [hs, List.length_cons] at hw
          split at h
          · -- a list goes on with a value, an object with a key
            split at h
            · have := (ih _ s' (by omega)).1 _ h
              omega
            · split at h
              · simp at h
              · rename_i t hk
                have hk := length_lt_of_skipKey hk
                have := (ih _ t (by omega)).1 _ h
                omega
          · split at h
            · have := (ih _ s' (by omega)).2 _ h
              omega
            · simp at h

theorem length_lt_of_skipValue {stack : List Frame} {s rest : List Byte}
    (h : skipValue stack s = .ok rest) : rest.length < s.length :=
  (length_skip s.length stack s (Nat.le_refl _)).1 rest h

end Json

end TypeErasure
