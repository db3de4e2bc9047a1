import TypeErasure.Proofs.Nesting

/-!
# Where a text is cut

A patch cuts its text into segments. `Seam b i` says that the text may be cut at offset `i` without
splitting a character: one of the two bytes that meet there is an ASCII character, or nothing is cut
off. Every place that a search of the eraser comes to is a seam, since it stops at an ASCII
character, behind one, or at the end of the text.

`Cuts b i segments j` says of the segments of a patch what holds of their bounds: each is a seam,
and what is commented out is `Enclosed`, so that no bracket of the kept code is lost. This module
has what the constructs share; they are gone through in `TypeErasure.Proofs.Cut.Construct`.
-/

namespace TypeErasure

/-! ### ASCII -/

namespace Byte

/-- A byte that encodes a character by itself. -/
def isAscii (c : Byte) : Bool :=
  c.toNat < 128

/-- All bytes of the class are ASCII characters. -/
def Ascii (p : Byte → Bool) : Prop :=
  ∀ c, p c = true → c.isAscii = true

/-- A class that is given by its characters is ASCII if each of them is, which is a computation. -/
theorem ascii_among {chars : List Char} (h : chars.all (fun ch => (ofChar ch).isAscii) = true) :
    Ascii (·.among chars) :=
  fun _ hc => of_among chars hc h

theorem ascii_is {ch : Char} (h : (ofChar ch).isAscii = true) : Ascii (·.is ch) :=
  fun _ hc => (apply_of_is hc isAscii).trans h

private theorem ascii_isSpace : Ascii isSpace :=
  ascii_among rfl

theorem ascii_isBlank : Ascii isBlank :=
  ascii_among rfl

/-- Letters are ASCII: the two ranges that they are taken from lie below 128. -/
theorem ascii_isLetter : Ascii isLetter := by
  intro c hc
  simp only [isLetter, between, Bool.or_eq_true, Bool.and_eq_true, decide_eq_true_eq,
    Char.reduceToNat] at hc
  simp only [isAscii, decide_eq_true_eq]
  omega

/-- A byte that is no part of a name is an ASCII character. A name may hold any byte from 128 on, so
that a byte which it cannot hold is below. -/
private theorem isAscii_of_not_isNamePart {c : Byte} (h : c.isNamePart = false) :
    c.isAscii = true := by
  simp only [isNamePart, isNameStart, Bool.or_eq_false_iff, decide_eq_false_iff_not] at h
  simp only [isAscii, decide_eq_true_eq]
  omega

end Byte

/-! ### Signs that end a search -/

/-- The condition that ends a search holds only where an ASCII character stands. -/
def StopsAtAscii (b : Bytes) (stop : Nat → Bool) : Prop :=
  ∀ k, stop k = true → b.satAt k Byte.isAscii = true

namespace StopsAtAscii

variable {b : Bytes} {f g : Nat → Bool}

theorem satAt {p : Byte → Bool} (hp : Byte.Ascii p) : StopsAtAscii b (fun k => b.satAt k p) :=
  fun _ h => Bytes.satAt_mono h hp

/-- A search with two conditions. -/
theorem or (hf : StopsAtAscii b f) (hg : StopsAtAscii b g) :
    StopsAtAscii b (fun k => f k || g k) := by
  intro k h
  rcases Bool.or_eq_true_iff.mp h with h | h
  · exact hf k h
  · exact hg k h

/-- A search with a condition and a further one, which need not be about the byte at hand. -/
theorem and_left (hf : StopsAtAscii b f) : StopsAtAscii b (fun k => f k && g k) :=
  fun k h => hf k (Bool.and_eq_true_iff.mp h).1

theorem and_right (hg : StopsAtAscii b g) : StopsAtAscii b (fun k => f k && g k) :=
  fun k h => hg k (Bool.and_eq_true_iff.mp h).2

theorem endsLine (b : Bytes) (start : Nat) : StopsAtAscii b (endsLine b start) :=
  and_left (satAt (Byte.ascii_is rfl))

/-- An assignment is an equals sign that is part of no longer sign. -/
theorem isAssign (b : Bytes) : StopsAtAscii b (isAssign b) :=
  and_left (satAt (Byte.ascii_is rfl))

end StopsAtAscii

/-! ### Regular expressions -/

/-- A regular expression ends with the letters behind its closing slash. All other kinds of literal
are gone through to see that they carry their own kind, which is not this one. -/
theorem regexClose_of_literalAt {b : Bytes} {i : Nat} {l : Literal} (h : literalAt b i = some l)
    (hkind : l.kind = .regex) :
    ∃ close, regexClose b false (i + 1) = some close ∧
      l.span.stop = b.skipWhile Byte.isLetter close := by
  -- the other literals carry their own kind
  have hother {kind : LiteralKind} (hne : kind ≠ .regex) {close : Option Nat}
      (h : some (Literal.closedBy kind b i close) = some l) : False := by
    obtain rfl := Option.some.inj h
    rw [Literal.kind_closedBy] at hkind
    exact hne hkind
  unfold literalAt at h
  split at h
  · simp at h
  · split at h
    · split at h
      · obtain rfl := Option.some.inj h
        simp at hkind
      · split at h
        · exact (hother (by simp) h).elim
        · obtain ⟨stop, hstop, rfl⟩ := Option.map_eq_some_iff.mp h
          unfold regexStop at hstop
          split at hstop
          · simp at hstop
          · split at hstop
            · simp at hstop
            · obtain ⟨close, hclose, rfl⟩ := Option.map_eq_some_iff.mp hstop
              exact ⟨close, hclose, rfl⟩
    · split at h
      · exact (hother (by simp) h).elim
      · split at h
        · exact (hother (by simp) h).elim
        · simp at h

/-- The search for the end of a regular expression stops right behind a slash. The induction follows
the search; of its seven cases one answers, two give up, and the others go on. -/
theorem isAt_of_regexClose {b : Bytes} {inClass : Bool} {j stop : Nat}
    (h : regexClose b inClass j = some stop) : b.isAt (stop - 1) '/' = true := by
  fun_induction regexClose b inClass j with
  | case2 => simp at h
  | case5 inClass j hj _ _ _ _ hslash =>
    obtain rfl := Option.some.inj h
    rw [Nat.add_sub_cancel, Bytes.isAt, Array.getElem?_eq_getElem hj]
    exact (Bool.and_eq_true_iff.mp hslash).1
  | case7 => simp at h
  | case1 _ _ _ _ ih | case3 _ _ _ _ _ _ ih | case4 _ _ _ _ _ _ _ ih
  | case6 _ _ _ _ _ _ _ _ ih => exact ih h

/-! ### Seams -/

/-- **The text can be cut at offset `i`**: an ASCII character stands at it or before it, or it is an
end of the text. -/
def Seam (b : Bytes) (i : Nat) : Prop :=
  i ≤ b.size ∧
    (i = 0 ∨ i = b.size ∨ b.satAt i Byte.isAscii = true ∨ b.satAt (i - 1) Byte.isAscii = true)

namespace Seam

variable {b : Bytes} {i j : Nat} {p : Byte → Bool}

theorem le_size (h : Seam b i) : i ≤ b.size :=
  h.1

theorem size (b : Bytes) : Seam b b.size :=
  ⟨Nat.le_refl _, .inr (.inl rfl)⟩

/-- Before an ASCII character. -/
theorem of_satAt (h : b.satAt i p = true) (hp : Byte.Ascii p) : Seam b i :=
  ⟨Nat.le_of_lt (Bytes.lt_size_of_satAt h), .inr (.inr (.inl (Bytes.satAt_mono h hp)))⟩

/-- Behind an ASCII character. -/
theorem succ_of_satAt (h : b.satAt i p = true) (hp : Byte.Ascii p) : Seam b (i + 1) :=
  ⟨Bytes.lt_size_of_satAt h, .inr (.inr (.inr (Bytes.satAt_mono h hp)))⟩

theorem of_isAt {ch : Char} (h : b.isAt i ch = true) (hch : (Byte.ofChar ch).isAscii = true) :
    Seam b i :=
  of_satAt h (Byte.ascii_is hch)

theorem succ_of_isAt {ch : Char} (h : b.isAt i ch = true)
    (hch : (Byte.ofChar ch).isAscii = true) : Seam b (i + 1) :=
  succ_of_satAt h (Byte.ascii_is hch)

/-- Behind the last of some ASCII characters. If there are none, the place has not moved. -/
theorem of_run (hi : Seam b i) (hij : i ≤ j) (hp : Byte.Ascii p)
    (h : ∀ k, i ≤ k → k < j → b.satAt k p = true) : Seam b j := by
  rcases Nat.lt_or_eq_of_le hij with hlt | rfl
  · have := succ_of_satAt (h (j - 1) (by omega) (by omega)) hp
    rwa [Nat.sub_add_cancel (by omega)] at this
  · exact hi

/-- Behind the bytes of an ASCII class that are skipped. -/
theorem skipWhile (hi : Seam b i) (hp : Byte.Ascii p) : Seam b (b.skipWhile p i) :=
  hi.of_run (b.le_skipWhile p i) hp fun _ hk hlt => Bytes.satAt_of_lt_skipWhile hk hlt

theorem skipSpace (hi : Seam b i) : Seam b (b.skipSpace i) :=
  hi.skipWhile Byte.ascii_isSpace

/-- Behind a name stands a byte that is no part of it, which is an ASCII character. Where no name
starts, the place has not moved. -/
theorem nameStop (hi : Seam b i) : Seam b (nameStop b i) := by
  unfold TypeErasure.nameStop
  split
  · have hle : b.skipWhile Byte.isNamePart i ≤ b.size := Bytes.skipWhile_le_size hi.le_size
    -- the name is followed by another byte, or by the end of the text
    rcases Nat.lt_or_eq_of_le hle with hlt | heq
    · have hend := b.satAt_skipWhile Byte.isNamePart i
      have hnot : b.satAt (b.skipWhile Byte.isNamePart i) (fun c => !c.isNamePart) = true := by
        rw [Bytes.satAt_not hlt, hend]
        rfl
      refine of_satAt hnot fun c hc => Byte.isAscii_of_not_isNamePart ?_
      simpa using hc
    · rw [heq]
      exact size b
  · exact hi

/-- Whitespace that is trimmed away is ASCII. So the first byte that is cut off is, or none is cut
off. -/
theorem trimEnd (h : Seam b j) (start : Nat) : Seam b (b.trimEnd start j) := by
  rcases Nat.lt_or_eq_of_le (b.trimEnd_le start j) with hlt | heq
  · exact of_satAt (Bytes.isSpace_of_trimEnd_le (Nat.le_refl _) hlt) Byte.ascii_isSpace
  · rw [heq]
    exact h

/-- A statement ends behind its semicolon, or where it ends without the whitespace behind it. -/
theorem statementStop (h : Seam b j) (start : Nat) : Seam b (statementStop b start j) := by
  unfold TypeErasure.statementStop
  split
  · rename_i hsemi
    exact succ_of_isAt hsemi rfl
  · exact h.trimEnd start

/-- A string, template or comment ends behind its closing delimiter, before a line break, or with
the text. One case for each kind of literal; the delimiters are all ASCII characters. -/
private theorem of_inertStop {stop : Nat} (h : inertStop b i = some stop) : Seam b stop := by
  have hbehind {stop : Nat} {p : Byte → Bool} (hpos : 0 < stop) (hp : Byte.Ascii p)
      (h : b.satAt (stop - 1) p = true) : Seam b stop := by
    have := succ_of_satAt h hp
    rwa [Nat.sub_add_cancel hpos] at this
  cases inertStop_eq_some_iff.mp h with
  | line _ hsnd =>
    rcases lineComment_stop (Bytes.lt_size_of_isAt hsnd) with heq | hbreak
    · rw [heq]
      exact size b
    · exact of_isAt hbreak rfl
  | block =>
    cases hclose : blockClose b (i + 2) with
    | none => exact size b
    | some stop =>
      have hpos : 0 < stop := Nat.lt_of_lt_of_le (by omega) (bounds_of_blockClose hclose).1
      exact hbehind hpos (Byte.ascii_is rfl) (isAt_of_blockClose hclose)
  | @quoted c hc hquote =>
    cases hclose : quoteClose b c (i + 1) with
    | none => exact size b
    | some stop =>
      have hpos : 0 < stop := Nat.lt_of_le_of_lt (Nat.zero_le _) (bounds_of_quoteClose hclose).1
      have hlast := Bytes.satAt_of_getElem? (getElem?_of_quoteClose hclose) Byte.isAscii
      refine hbehind hpos (p := Byte.isAscii) (fun _ h => h) (hlast.trans ?_)
      -- a quote or a backtick
      refine Byte.of_among ['\'', '"', '`'] ?_ rfl
      simpa [Byte.isQuote, Byte.among, or_assoc] using hquote

/-- A literal of any kind ends at a seam. A regular expression ends behind letters or behind its
slash, and the other kinds are inert (`of_inertStop`). -/
theorem of_literalAt {l : Literal} (h : literalAt b i = some l) : Seam b l.span.stop := by
  by_cases hkind : l.kind = .regex
  · -- the letters behind the closing slash are ASCII, and so is the slash
    obtain ⟨close, hclose, hstop⟩ := regexClose_of_literalAt h hkind
    rw [hstop]
    refine skipWhile ?_ Byte.ascii_isLetter
    have hpos : 0 < close := Nat.lt_of_le_of_lt (Nat.zero_le _) (bounds_of_regexClose hclose).1
    have := succ_of_isAt (isAt_of_regexClose hclose) rfl
    rwa [Nat.sub_add_cancel hpos] at this
  · exact of_inertStop (inertStop_of_literalAt h hkind)

/-- Behind whitespace and comments. The induction follows the skipping, and each comment ends at a
seam wherever it started. -/
theorem skipTrivia (hi : Seam b i) : Seam b (skipTrivia b i) := by
  fun_induction TypeErasure.skipTrivia b i with
  | case1 i => exact hi.skipSpace
  | case2 i l hl _ ih => exact ih (of_literalAt hl)
  | case3 i => exact hi.skipSpace

/-- **A search stops at a seam**, if its condition only holds at ASCII characters. A search without
result stops at the end of the text, and one that comes to a closing bracket before it. -/
theorem findStop {stop : Nat → Bool} (hstop : StopsAtAscii b stop)
    (reading : Reading) (i : Nat) : Seam b (findStop b reading stop i) := by
  rcases Nat.lt_or_eq_of_le (findStop_le b reading stop i) with hlt | heq
  · -- the search has come to a byte that meets its condition, or to a closing bracket
    rcases findStopFrom_spec hlt with hat | hclose
    · exact of_satAt (hstop _ hat) fun _ h => h
    · exact of_satAt (satAt_of_closesAt hclose) (Byte.ascii_among rfl)
  · rw [heq]
    exact size b

end Seam

/-! ### The segments of a patch -/

/-- The source text of a segment. -/
def Segment.source : Segment → Bytes
  | piece p => p.source
  | nested text => text

/-- The number of bytes that consecutive segments take up in the source. -/
def Segment.sizeOf (segments : List Segment) : Nat :=
  segments.foldr (fun s n => s.source.size + n) 0

/-- **The segments cut the bytes from `i` to `j` at seams**, and what is commented out is
enclosed. -/
inductive Cuts (b : Bytes) : Nat → List Segment → Nat → Prop where
  | nil {i : Nat} (hi : Seam b i) : Cuts b i [] i
  | keep {i j k : Nat} {rest : List Segment} (hi : Seam b i) (hij : i ≤ j)
      (tail : Cuts b j rest k) :
      Cuts b i (.keep b i j :: rest) k
  | erase {i j k : Nat} {rest : List Segment} (hi : Seam b i) (hij : i ≤ j)
      (henclosed : Enclosed b i j) (tail : Cuts b j rest k) : Cuts b i (.erase b i j :: rest) k
  | nested {i j k : Nat} {rest : List Segment} (hi : Seam b i) (hij : i ≤ j)
      (tail : Cuts b j rest k) : Cuts b i (.nested (b.slice i j) :: rest) k

namespace Cuts

variable {b : Bytes} {i j k : Nat} {segments rest : List Segment}

/-- What is cut into segments starts at a seam. -/
theorem seam_left (h : Cuts b i segments j) : Seam b i := by
  cases h with
  | nil hi => exact hi
  | keep hi => exact hi
  | erase hi => exact hi
  | nested hi => exact hi

/-- It ends at one too, by induction on the segments. -/
theorem seam_right (h : Cuts b i segments j) : Seam b j := by
  induction h with
  | nil hi => exact hi
  | keep _ _ _ ih => exact ih
  | erase _ _ _ _ ih => exact ih
  | nested _ _ _ ih => exact ih

/-- Segments that start where others end are put behind them. By induction on the first. -/
theorem append (h : Cuts b i segments j) (hrest : Cuts b j rest k) :
    Cuts b i (segments ++ rest) k := by
  induction h with
  | nil => exact hrest
  | keep hi hij _ ih => exact .keep hi hij (ih hrest)
  | erase hi hij henclosed _ ih => exact .erase hi hij henclosed (ih hrest)
  | nested hi hij _ ih => exact .nested hi hij (ih hrest)

/-- A segment is the range between two seams. Whatever its kind, the segments behind it start at the
second one. -/
theorem cons {s : Segment} (h : Cuts b i (s :: segments) k) :
    ∃ j, s.source = b.slice i j ∧ i ≤ j ∧ Seam b i ∧ Seam b j := by
  cases h with
  | keep hi hij tail => exact ⟨_, rfl, hij, hi, tail.seam_left⟩
  | erase hi hij _ tail => exact ⟨_, rfl, hij, hi, tail.seam_left⟩
  | nested hi hij tail => exact ⟨_, rfl, hij, hi, tail.seam_left⟩

/-- **Segments can be parted anywhere**, and those behind start where those before end. By induction
on the segments before, each of which moves the place by the size of its text. -/
theorem split {before behind : List Segment} (h : Cuts b i (before ++ behind) k) :
    Cuts b i before (i + Segment.sizeOf before) ∧
      Cuts b (i + Segment.sizeOf before) behind k := by
  -- a segment moves the place by its size
  have hskip {i j : Nat} {s : Segment} {before : List Segment} (hs : s.source = b.slice i j)
      (hij : i ≤ j) (hj : Seam b j) :
      i + Segment.sizeOf (s :: before) = j + Segment.sizeOf before := by
    rw [Segment.sizeOf, List.foldr_cons, ← Segment.sizeOf, hs, Bytes.size_slice hj.le_size]
    omega
  induction before generalizing i with
  | nil => exact ⟨.nil h.seam_left, h⟩
  | cons s before ih =>
    cases h with
    | keep hi hij tail =>
      rw [hskip rfl hij tail.seam_left]
      exact ⟨.keep hi hij (ih tail).1, (ih tail).2⟩
    | erase hi hij henclosed tail =>
      rw [hskip rfl hij tail.seam_left]
      exact ⟨.erase hi hij henclosed (ih tail).1, (ih tail).2⟩
    | nested hi hij tail =>
      rw [hskip rfl hij tail.seam_left]
      exact ⟨.nested hi hij (ih tail).1, (ih tail).2⟩

end Cuts

/-- **The patch of a construct cuts its text at seams**, and the bytes that gave the construct away
end at one. -/
structure Patch.Severs (p : Patch) (b : Bytes) (m : Match) : Prop where
  stop : Seam b m.stop
  cuts : Cuts b m.start p.segments p.stop

/-- A construct that is commented out whole. Its patch has one segment. -/
theorem Patch.erase_severs {b : Bytes} {m : Match} {stop : Nat} (hstart : Seam b m.start)
    (hspan : Seam b m.stop) (hle : m.start ≤ stop) (hstop : Seam b stop)
    (henclosed : Enclosed b m.start stop) : (Patch.erase b m.start stop).Severs b m :=
  ⟨hspan, .erase hstart hle henclosed (.nil hstop)⟩

end TypeErasure
