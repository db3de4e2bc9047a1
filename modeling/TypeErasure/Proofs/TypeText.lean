import TypeErasure.Proofs.AliasHead
import TypeErasure.Proofs.Placed

/-!
# Type texts

`Bytes.closedFrom` checks that a text closes what it opens: strings, templates and brackets. Such a
text is passed over by a search for the end of a type that counts brackets, whatever stands around
it, as long as the search has no reason to stop outside of the groups of the text
(`Bytes.TypeAt.findStopFrom_eq`).

A `TypeText` is a text with these properties that can be written as a type. Which signs may not
stand outside of its groups depends on where the type is to be written, and is a parameter.
-/

namespace TypeErasure

/-- From offset `i` on, where `depth` groups are open, the text closes every string, template and
bracket that it opens, and nothing else; outside of all groups no place is barred. The head of an
arrow is no bracket, and brackets need not have the same shape. -/
def Bytes.closedFrom (t : Bytes) (bar : Nat → Bool) (depth i : Nat) : Bool :=
  match _hi : t[i]? with
  | none => depth == 0
  | some c =>
    if depth == 0 && bar i then false
    else if c.among ['\'', '"', '`'] then
      match _hq : quoteClose t c (i + 1) with
      | none => false
      | some next => t.closedFrom bar depth next
    else if c.among ['(', '[', '{', '<'] then t.closedFrom bar (depth + 1) (i + 1)
    else if c.among [')', ']', '}'] || (c.is '>' && !t.isBefore i '=') then
      depth != 0 && t.closedFrom bar (depth - 1) (i + 1)
    else t.closedFrom bar depth (i + 1)
termination_by t.size - i
decreasing_by
  all_goals
    have := (Array.getElem?_eq_some_iff.mp _hi).1
    try have := (bounds_of_quoteClose _hq).1
    omega

section Closed

variable {t : Bytes} {bar : Nat → Bool} {depth k n : Nat} {c : Byte}

/-- One step of the check over a byte that is no quote. -/
theorem Bytes.closedFrom_eq_ite (hc : t[k]? = some c) (hquote : c.among ['\'', '"', '`'] = false) :
    t.closedFrom bar depth k =
      if depth == 0 && bar k then false
      else if c.among ['(', '[', '{', '<'] then t.closedFrom bar (depth + 1) (k + 1)
      else if c.among [')', ']', '}'] || (c.is '>' && !t.isBefore k '=') then
        depth != 0 && t.closedFrom bar (depth - 1) (k + 1)
      else t.closedFrom bar depth (k + 1) := by
  rw [closedFrom]
  split
  · simp_all
  · rename_i d hd
    obtain rfl : c = d := Option.some.inj (hc.symm.trans hd)
    simp [hquote]

/-- Outside of all groups no place is barred. -/
theorem Bytes.not_bar_of_closedFrom (h : t.closedFrom bar 0 k = true) (hk : k < t.size) :
    bar k = false := by
  rw [closedFrom] at h
  split at h
  · rename_i hnone
    rw [Array.getElem?_eq_getElem hk] at hnone
    simp at hnone
  · cases hbar : bar k with
    | false => rfl
    | true => simp [hbar] at h

/-- Whitespace neither opens nor closes anything. By induction on how much of it there is. -/
theorem Bytes.closedFrom_of_space (h : t.closedFrom bar depth k = true) (hkn : k ≤ n)
    (hspace : ∀ m, k ≤ m → m < n → t.satAt m Byte.isSpace = true) :
    t.closedFrom bar depth n = true := by
  induction n with
  | zero => rwa [Nat.le_zero.mp hkn] at h
  | succ n ih =>
    rcases Nat.lt_or_eq_of_le hkn with hlt | rfl
    · -- one more byte of whitespace is one more step, which changes no depth
      have hsat := hspace n (by omega) (by omega)
      have hn := ih (by omega) fun m hm hmn => hspace m hm (by omega)
      obtain ⟨c, hc, hc'⟩ : ∃ c, t[n]? = some c ∧ c.isSpace = true := by
        simpa [Bytes.satAt, Option.any_eq_true] using hsat
      have hopen : c.among ['(', '[', '{', '<'] = false := Byte.excludes_among rfl c hc'
      have hclose : c.among [')', ']', '}'] = false := Byte.excludes_among rfl c hc'
      have hangle : c.is '>' = false := by
        have hnone : c.among ['>'] = false := Byte.excludes_among rfl c hc'
        simpa [Byte.among] using hnone
      rw [closedFrom_eq_ite hc (Byte.excludes_among rfl c hc'), hopen, hclose, hangle] at hn
      cases hbar : depth == 0 && bar n with
      | true => simp [hbar] at hn
      | false => simpa [hbar] using hn
    · exact h

end Closed

/-! ### Type texts in their place -/

/-- The text `t` stands at offset `i`, where its brackets mean the same as in `t` alone. -/
structure Bytes.TypeAt (b : Bytes) (i : Nat) (t : Bytes) : Prop where
  holds : b.Holds i t
  noSlash : ∀ k, t.isAt k '/' = false
  apart : b.isBefore i '=' = false

namespace Bytes.TypeAt

variable {b t : Bytes} {i k : Nat} {c : Byte}

/-- What stands before a byte of the text is the same in its place and in the text alone. -/
theorem isBefore_eq (h : b.TypeAt i t) (hk : k < t.size) :
    b.isBefore (i + k) '=' = t.isBefore k '=' := by
  rcases Nat.eq_zero_or_pos k with rfl | hpos
  · -- what stands before the text is no `=`
    exact h.apart
  · have hat : b.isAt (i + (k - 1)) '=' = t.isAt (k - 1) '=' := h.holds.satAt (by omega) _
    rw [isBefore, isBefore, show i + k - 1 = i + (k - 1) by omega, hat,
      decide_eq_true (show 0 < k by omega), decide_eq_true (show 0 < i + k by omega)]

private theorem getElem?_eq (h : b.TypeAt i t) (hc : t[k]? = some c) : b[i + k]? = some c :=
  (h.holds k (Array.getElem?_eq_some_iff.mp hc).1).trans hc

theorem opensAt_eq (h : b.TypeAt i t) (hc : t[k]? = some c) :
    opensAt b .type (i + k) = c.among ['(', '[', '{', '<'] := by
  have hat := h.getElem?_eq hc
  rw [opensAt, satAt_of_getElem? hat, isAt, hat]
  simp [Byte.isOpener, Byte.among, Bool.or_assoc]

/-- Closing brackets are known by their byte and by the one before it, which may make a `>` part of
an arrow. -/
theorem closesAt_eq (h : b.TypeAt i t) (hc : t[k]? = some c) :
    closesAt b .type (i + k) =
      (c.among [')', ']', '}'] || (c.is '>' && !t.isBefore k '=')) := by
  have hat := h.getElem?_eq hc
  rw [closesAt, satAt_of_getElem? hat, isAt, hat,
    h.isBefore_eq (Array.getElem?_eq_some_iff.mp hc).1]
  rfl

/-- A string or template of the text ends in the text: the search for its closing quote reads the
same bytes in both places (`quoteClose_congr`). -/
private theorem inertStop_of_quote (h : b.TypeAt i t) (hc : t[k]? = some c)
    (hquote : c.among ['\'', '"', '`'] = true) {next : Nat}
    (hclose : quoteClose t c (k + 1) = some next) : inertStop b (i + k) = some (i + next) := by
  have hbounds := bounds_of_quoteClose hclose
  -- the bytes up to the closing quote are those of the text
  have hat : quoteClose b c (i + k + 1) = some (i + k + 1 + (next - (k + 1))) :=
    quoteClose_congr hclose fun m hm => by
      rw [show i + k + 1 + m = i + (k + 1 + m) by omega, h.holds _ (by omega)]
  have hslash : c.is '/' = false := by
    simpa [isAt, hc] using h.noSlash k
  have hany : (c.isQuote || c.is '`') = true := by
    simpa [Byte.isQuote, Byte.among, Bool.or_assoc] using hquote
  rw [inertStop_eq, h.getElem?_eq hc]
  simp only [hslash, Bool.false_eq_true, if_false, hany, if_true, hat]
  rw [show i + k + 1 + (next - (k + 1)) = i + next by omega]
  rfl

/-- Other bytes of the text start no literal, as none of them is a slash. -/
theorem inertStop_eq_none (h : b.TypeAt i t) (hc : t[k]? = some c)
    (hquote : c.among ['\'', '"', '`'] = false) : inertStop b (i + k) = none := by
  have hslash : c.is '/' = false := by
    simpa [isAt, hc] using h.noSlash k
  refine TypeErasure.inertStop_eq_none ?_
  rw [satAt_of_getElem? (h.getElem?_eq hc), Byte.opensInert]
  simp only [Byte.among, List.any_cons, List.any_nil, Bool.or_false] at hquote ⊢
  rw [hslash, hquote]
  rfl

/-- One step of a search over a byte at which it does not stop. These are the cases of
`closedFrom`. -/
private theorem findStopFrom_step (h : b.TypeAt i t) (hc : t[k]? = some c) {stop : Nat → Bool}
    {depth : Nat} (hgo : ¬ (depth = 0 ∧ stop (i + k) = true))
    (hquote : c.among ['\'', '"', '`'] = false) :
    findStopFrom b .type stop depth (i + k) =
      if c.among ['(', '[', '{', '<'] then findStopFrom b .type stop (depth + 1) (i + (k + 1))
      else if c.among [')', ']', '}'] || (c.is '>' && !t.isBefore k '=') then
        if depth = 0 then i + k else findStopFrom b .type stop (depth - 1) (i + (k + 1))
      else findStopFrom b .type stop depth (i + (k + 1)) := by
  have hsize := (Array.getElem?_eq_some_iff.mp (h.getElem?_eq hc)).1
  rw [findStopFrom_eq_ite, if_pos hsize, if_neg hgo, h.inertStop_eq_none hc hquote,
    h.opensAt_eq hc, h.closesAt_eq hc]
  rfl

/-- A search passes over a string or template of the text. -/
private theorem findStopFrom_quote (h : b.TypeAt i t) (hc : t[k]? = some c) {stop : Nat → Bool}
    {depth : Nat} (hgo : ¬ (depth = 0 ∧ stop (i + k) = true))
    (hquote : c.among ['\'', '"', '`'] = true) {next : Nat}
    (hnext : quoteClose t c (k + 1) = some next) :
    findStopFrom b .type stop depth (i + k) = findStopFrom b .type stop depth (i + next) := by
  have hsize := (Array.getElem?_eq_some_iff.mp (h.getElem?_eq hc)).1
  rw [findStopFrom_eq_ite, if_pos hsize, if_neg hgo, h.inertStop_of_quote hc hquote hnext]

/-- **A search passes over a text that closes what it opens**, if it has no reason to stop outside
of the groups of the text. The induction follows the check of the text, which counts its groups as
the search does. -/
theorem findStopFrom_eq (h : b.TypeAt i t) {bar stop : Nat → Bool}
    (hstop : ∀ k, k < t.size → bar k = false → stop (i + k) = false) {depth k : Nat}
    (hclosed : t.closedFrom bar depth k = true) (hk : k ≤ t.size) :
    findStopFrom b .type stop depth (i + k) = findStopFrom b .type stop 0 (i + t.size) := by
  -- outside of the groups the search has no reason to stop
  have hgo {depth k : Nat} {c : Byte} (hc : t[k]? = some c)
      (hbar : ¬ (depth == 0 && bar k) = true) : ¬ (depth = 0 ∧ stop (i + k) = true) := by
    rintro ⟨rfl, hat⟩
    rw [hstop k (Array.getElem?_eq_some_iff.mp hc).1 (by simpa using hbar)] at hat
    simp at hat
  -- both sides read the text in the same steps, and the end of the text is at depth zero
  fun_induction t.closedFrom bar depth k with
  | case1 depth k hc =>
    have hsize : k = t.size := by
      have := Array.getElem?_eq_none_iff.mp hc
      omega
    rw [hsize, beq_iff_eq.mp hclosed]
  | case2 => simp at hclosed
  | case3 => simp at hclosed
  | case4 depth k c hc hbar hquote next hnext ih =>
    -- a string or template
    rw [h.findStopFrom_quote hc (hgo hc hbar) hquote hnext]
    exact ih hclosed (bounds_of_quoteClose hnext).2
  | case5 depth k c hc hbar hquote hopen ih =>
    -- a bracket opens a group
    rw [h.findStopFrom_step hc (hgo hc hbar) (eq_false_of_ne_true hquote), if_pos hopen]
    exact ih hclosed (Array.getElem?_eq_some_iff.mp hc).1
  | case6 depth k c hc hbar hquote hopen hclose ih =>
    -- a bracket closes a group, and there is one that is open
    rw [Bool.and_eq_true, bne_iff_ne] at hclosed
    rw [h.findStopFrom_step hc (hgo hc hbar) (eq_false_of_ne_true hquote), if_neg hopen,
      if_pos hclose, if_neg hclosed.1]
    exact ih hclosed.2 (Array.getElem?_eq_some_iff.mp hc).1
  | case7 depth k c hc hbar hquote hopen hclose ih =>
    rw [h.findStopFrom_step hc (hgo hc hbar) (eq_false_of_ne_true hquote), if_neg hopen,
      if_neg hclose]
    exact ih hclosed (Array.getElem?_eq_some_iff.mp hc).1

/-- The search for the end of a group that a text has opened comes to its closing bracket. The
induction follows the check of the text, at a depth that is by one more than that of the search. -/
theorem exists_findClose (h : b.TypeAt i t) {bar : Nat → Bool} {depth k : Nat}
    (hclosed : t.closedFrom bar (depth + 1) k = true) :
    ∃ close, k ≤ close ∧ close < t.size ∧
      findStopFrom b .type (fun _ => false) depth (i + k) = i + close ∧
        t.closedFrom bar 0 (close + 1) = true := by
  have hgo (depth : Nat) : ¬ (depth = 0 ∧ false = true) := fun hat => by simp at hat
  -- the search was started inside the group, so it counts one bracket less than the text
  generalize hd : depth + 1 = d at hclosed
  fun_induction t.closedFrom bar d k generalizing depth with
  | case1 d k hc =>
    -- the text cannot end within the group
    rw [← hd] at hclosed
    simp at hclosed
  | case2 => simp at hclosed
  | case3 => simp at hclosed
  | case4 d k c hc hbar hquote next hnext ih =>
    rw [h.findStopFrom_quote hc (hgo depth) hquote hnext]
    obtain ⟨close, hle, hrest⟩ := ih hd hclosed
    have := (bounds_of_quoteClose hnext).1
    exact ⟨close, by omega, hrest⟩
  | case5 d k c hc hbar hquote hopen ih =>
    rw [h.findStopFrom_step hc (hgo depth) (eq_false_of_ne_true hquote), if_pos hopen]
    obtain ⟨close, hle, hrest⟩ := ih (congrArg (· + 1) hd) hclosed
    exact ⟨close, by omega, hrest⟩
  | case6 d k c hc hbar hquote hopen hclose ih =>
    rw [Bool.and_eq_true] at hclosed
    rw [h.findStopFrom_step hc (hgo depth) (eq_false_of_ne_true hquote), if_neg hopen,
      if_pos hclose]
    cases depth with
    | zero =>
      -- this bracket closes the group itself
      rw [if_pos rfl]
      rw [← hd] at hclosed
      exact ⟨k, Nat.le_refl k, (Array.getElem?_eq_some_iff.mp hc).1, rfl, hclosed.2⟩
    | succ inner =>
      -- it closes a group within
      rw [if_neg (by omega), Nat.add_sub_cancel]
      obtain ⟨close, hle, hrest⟩ := @ih inner (by omega) hclosed.2
      exact ⟨close, by omega, hrest⟩
  | case7 d k c hc hbar hquote hopen hclose ih =>
    rw [h.findStopFrom_step hc (hgo depth) (eq_false_of_ne_true hquote), if_neg hopen,
      if_neg hclose]
    obtain ⟨close, hle, hrest⟩ := ih hd hclosed
    exact ⟨close, by omega, hrest⟩

end Bytes.TypeAt

/-! ### Type texts -/

/-- One of `signs` stands at offset `k`, or a `=` that does not start an arrow. -/
def Bytes.bars (t : Bytes) (signs : List Char) (k : Nat) : Bool :=
  t.satAt k (·.among signs) || (t.isAt k '=' && !t.isAt (k + 1) '>')

/-- **The text of a type.** It is not empty and neither starts nor ends with whitespace, it holds no
slash, it closes what it opens, and outside of its groups it holds none of `signs` and no
assignment. -/
structure TypeText (signs : List Char) where
  bytes : Bytes
  head : bytes.satAt 0 (fun c => !c.isSpace) = true
  last : bytes.satAt (bytes.size - 1) (fun c => !c.isSpace) = true
  noSlash : bytes.toList.all (fun c => !c.is '/') = true
  closed : bytes.closedFrom (bytes.bars signs) 0 0 = true

namespace TypeText

variable {signs : List Char} {b : Bytes} {i : Nat}

/-- A type text is not empty. -/
theorem size_pos (T : TypeText signs) : 0 < T.bytes.size :=
  Bytes.lt_size_of_satAt T.head

/-- It does not start with whitespace. -/
theorem not_isSpace_head (T : TypeText signs) (h : b.Holds i T.bytes) :
    b.satAt i Byte.isSpace = false := by
  have hink := h.satAt_head T.head
  rwa [Bytes.satAt_not (Bytes.lt_size_of_satAt hink), Bool.not_eq_true'] at hink

/-- It does not end with whitespace. -/
theorem not_isSpace_last (T : TypeText signs) (h : b.Holds i T.bytes) :
    b.satAt (i + T.bytes.size - 1) Byte.isSpace = false := by
  have hpos := T.size_pos
  have hink := T.last
  rw [Bytes.satAt_not (by omega), Bool.not_eq_true'] at hink
  rw [show i + T.bytes.size - 1 = i + (T.bytes.size - 1) by omega, h.satAt (by omega), hink]

theorem not_isAt_slash (T : TypeText signs) (k : Nat) : T.bytes.isAt k '/' = false :=
  Bytes.not_isAt_of_all T.noSlash k

/-- A type text in its place, if no `=` stands before it. -/
theorem typeAt (T : TypeText signs) (h : b.Holds i T.bytes) (hapart : b.isBefore i '=' = false) :
    b.TypeAt i T.bytes :=
  ⟨h, T.not_isAt_slash, hapart⟩

/-- The type as an annotation, with its colon. -/
def ascription (T : TypeText signs) : Bytes :=
  Bytes.ofString ": " ++ T.bytes

theorem size_ascription (T : TypeText signs) : T.ascription.size = 2 + T.bytes.size := by
  rw [ascription, Array.size_append]
  rfl

theorem ascription_noSlash (T : TypeText signs) (k : Nat) : T.ascription.isAt k '/' = false := by
  refine Bytes.not_isAt_of_all ?_ k
  rw [ascription, Array.toList_append, List.all_append, T.noSlash]
  rfl

/-- The parts of an annotation in their place. -/
theorem ascription_cases {T : TypeText signs} (h : b.Holds i T.ascription) :
    b.isAt i ':' = true ∧ b.isAt (i + 1) ' ' = true ∧ b.Holds (i + 1 + 1) T.bytes := by
  obtain ⟨hcolon, htype⟩ := Bytes.holds_append.mp h
  exact ⟨hcolon.isAt_head rfl, hcolon.isAt_of rfl, htype⟩

/-- An annotation ends with ink. -/
theorem ascription_last {T : TypeText signs} (h : b.Holds i T.ascription) :
    b.satAt (i + T.ascription.size - 1) Byte.isSpace = false := by
  rw [T.size_ascription, show i + (2 + T.bytes.size) = i + 1 + 1 + T.bytes.size by omega]
  exact T.not_isSpace_last (ascription_cases h).2.2

/-- An assignment in place of a type text is one of the text alone: where the text bars none, there
is no `=`, or one that goes on as an arrow. -/
theorem not_isAssign (T : TypeText signs) (h : b.Holds i T.bytes) {k : Nat} (hk : k < T.bytes.size)
    (hbar : T.bytes.bars signs k = false) : isAssign b (i + k) = false := by
  rw [Bytes.bars, Bool.or_eq_false_iff, Bool.and_eq_false_iff] at hbar
  obtain ⟨-, heq | harrow⟩ := hbar
  · have hat : b.isAt (i + k) '=' = T.bytes.isAt k '=' := h.satAt hk _
    rw [isAssign, hat, heq, Bool.false_and]
  · -- the sign goes on as an arrow
    have harrow : b.isAt (i + k + 1) '>' = true := h.isAt_of (by simpa using harrow)
    have hnext : b.satAt (i + k + 1) (·.among ['=', '>']) = true := by
      rw [Bytes.satAt_of_isAt harrow]
      rfl
    rw [isAssign, isCompoundEq, hnext]
    simp

/-- A sign that the text bars does not stand outside of its groups. -/
theorem not_among (T : TypeText signs) (h : b.Holds i T.bytes) {k : Nat} (hk : k < T.bytes.size)
    (hbar : T.bytes.bars signs k = false) : b.satAt (i + k) (·.among signs) = false := by
  rw [Bytes.bars, Bool.or_eq_false_iff] at hbar
  exact (h.satAt hk _).trans hbar.1

theorem not_isAt (T : TypeText signs) (h : b.Holds i T.bytes) {k : Nat} (hk : k < T.bytes.size)
    (hbar : T.bytes.bars signs k = false) (ch : Char) (hch : ch ∈ signs) :
    b.isAt (i + k) ch = false :=
  Bytes.satAt_eq_false_of_imp (T.not_among h hk hbar) fun _ hc => List.any_eq_true.mpr ⟨ch, hch, hc⟩

end TypeText

/-! ### The end of a type -/

section Stop

variable {b : Bytes} {i : Nat} {stop : Nat → Bool}

/-- A search outside of all groups stops where it is told to. -/
theorem findStopFrom_of_stop (hi : i < b.size) (h : stop i = true) (reading : Reading) :
    findStopFrom b reading stop 0 i = i := by
  rw [findStopFrom_eq_ite, if_pos hi, if_pos ⟨rfl, h⟩]

/-- A bracket that was not opened ends every search. -/
theorem findStopFrom_of_isCloser (h : b.satAt i Byte.isCloser = true) :
    findStopFrom b .type stop 0 i = i := by
  have hclose : closesAt b .type i = true := by rw [closesAt, h, Bool.true_or]
  have hinert : inertStop b i = none :=
    inertStop_eq_none (Bytes.satAt_eq_false h (Byte.excludes_opensInert rfl))
  rw [findStopFrom_eq_ite, if_pos (Bytes.lt_size_of_satAt h), hinert,
    not_opensAt_of_closesAt hclose, if_pos hclose]
  simp

/-- A search goes on over a byte that is no bracket and starts no literal, unless it is told to
stop there. -/
theorem findStopFrom_of_plain {reading : Reading} {p : Byte → Bool} (h : b.satAt i p = true)
    (hp : Byte.Excludes p Byte.isMark) (hgo : stop i = false) :
    findStopFrom b reading stop 0 i = findStopFrom b reading stop 0 (i + 1) := by
  obtain ⟨hinert, hopen, hclose⟩ := plain_of_not_isMark h hp reading
  rw [findStopFrom_eq_ite, if_pos (Bytes.lt_size_of_satAt h), hgo, hinert, hopen, hclose]
  simp

theorem findStopFrom_of_isBlank (h : b.isAt i ' ' = true) (hgo : stop i = false) :
    findStopFrom b .type stop 0 i = findStopFrom b .type stop 0 (i + 1) :=
  findStopFrom_of_plain (p := (·.is ' ')) h (Byte.excludes_isMark rfl) hgo

/-- **The search for the end of a type finds it**, from the blank in front of it on, if there is a
reason to stop at its end and none within it. The search goes over the blank, then over the type
(`Bytes.TypeAt.findStopFrom_eq`). -/
theorem TypeText.findStop_eq {signs : List Char} (T : TypeText signs) (hblank : b.isAt i ' ' = true)
    (h : b.Holds (i + 1) T.bytes) (hgo : stop i = false)
    (hstop : ∀ k, k < T.bytes.size → T.bytes.bars signs k = false → stop (i + 1 + k) = false)
    (hend : findStopFrom b .type stop 0 (i + 1 + T.bytes.size) = i + 1 + T.bytes.size) :
    findStop b .type stop i = i + 1 + T.bytes.size := by
  -- the byte before the type is a blank
  have hapart : b.isBefore (i + 1) '=' = false := by
    rw [Bytes.isBefore, Nat.add_sub_cancel, Bytes.isAt_eq_satAt, Bytes.satAt_of_isAt hblank]
    rfl
  calc findStop b .type stop i
      = findStopFrom b .type stop 0 (i + 1 + 0) := findStopFrom_of_isBlank hblank hgo
    _ = findStopFrom b .type stop 0 (i + 1 + T.bytes.size) :=
        (T.typeAt h hapart).findStopFrom_eq hstop T.closed (Nat.zero_le _)
    _ = i + 1 + T.bytes.size := hend

end Stop

end TypeErasure
