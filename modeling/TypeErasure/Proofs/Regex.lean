import TypeErasure.Proofs.Cut
import TypeErasure.Proofs.Prefix

/-!
# Line breaks in regular expressions

The search for the end of a regular expression gives up at a line break, but it passes over the byte
behind a backslash without a look at it. So a line break can stand in a regular expression if a
backslash stands before it that is not escaped itself.

`Bytes.escaped` tells which bytes these are without regard to the search. From the slash that opens
a regular expression on, the search stands at bytes that are not escaped and no others
(`regexClose_congr`).

Main statement: the line breaks in a regular expression are escaped, and an escaped byte makes no
difference to it, so that any of them can be a line break (`regex_lineBreaks`).
-/

namespace TypeErasure

/-! ### Escaped bytes -/

/-- **The byte at the given offset is escaped**: before it stands a backslash that is not. -/
def Bytes.escaped (b : Bytes) : Nat → Bool
  | 0 => false
  | k + 1 => b.isAt k '\\' && !b.escaped k

/-- Only a backslash escapes the byte behind it. -/
private theorem Bytes.escaped_succ_of_satAt {b : Bytes} {k : Nat} {p : Byte → Bool}
    (hk : b.satAt k p = true) (hp : p (Byte.ofChar '\\') = false) : b.escaped (k + 1) = false := by
  rw [escaped, isAt_eq_false hk hp, Bool.false_and]

/-- Behind a backslash that is not escaped stands an escaped byte, and behind that one that is
not. -/
private theorem Bytes.escaped_of_isAt {b : Bytes} {k : Nat} (hk : b.isAt k '\\' = true)
    (hfree : b.escaped k = false) : b.escaped (k + 1) = true ∧ b.escaped (k + 2) = false := by
  have hnext : b.escaped (k + 1) = true := by
    rw [escaped, hk, hfree]
    rfl
  exact ⟨hnext, by rw [escaped, hnext, Bool.not_true, Bool.and_false]⟩

/-! ### Where a regular expression stands -/

/-- **A regular expression starts at offset `i`**, and its closing slash ends at `close`. -/
structure RegexAt (b : Bytes) (i close : Nat) : Prop where
  slash : b.isAt i '/' = true
  first : b.satAt (i + 1) refusesRegex = false
  operand : endsOperand b i = false
  closes : regexClose b false (i + 1) = some close

/-- **A literal is a regular expression just where one stands.** From left to right each branch of
the classification is looked at, and only that of the regular expressions gives one. -/
private theorem literalAt_eq_regex_iff {b : Bytes} {i : Nat} {l : Literal} :
    literalAt b i = some l ∧ l.kind = .regex ↔
      ∃ close, RegexAt b i close ∧ l = ⟨.regex, ⟨i, b.skipWhile Byte.isLetter close⟩, true⟩ := by
  constructor
  · rintro ⟨h, hkind⟩
    -- the other branches give literals of other kinds
    have hother {kind : LiteralKind} (hne : kind ≠ .regex) {close : Option Nat}
        (h : some (Literal.closedBy kind b i close) = some l) : False := by
      obtain rfl := Option.some.inj h
      rw [Literal.kind_closedBy] at hkind
      exact hne hkind
    unfold literalAt at h
    split at h
    · simp at h
    · rename_i c hc
      split at h
      · rename_i hslash
        split at h
        · obtain rfl := Option.some.inj h
          simp at hkind
        · split at h
          · exact (hother (by simp) h).elim
          · obtain ⟨stop, hstop, rfl⟩ := Option.map_eq_some_iff.mp h
            unfold regexStop at hstop
            split at hstop
            · simp at hstop
            · rename_i first hfirst
              split at hstop
              · simp at hstop
              · rename_i hnot
                rw [Bool.or_eq_true, not_or, Bool.not_eq_true, Bool.not_eq_true] at hnot
                obtain ⟨close, hclose, rfl⟩ := Option.map_eq_some_iff.mp hstop
                refine ⟨close, ⟨?_, ?_, hnot.2, hclose⟩, rfl⟩
                · exact (Bytes.satAt_of_getElem? hc (·.is '/')).trans hslash
                · exact (Bytes.satAt_of_getElem? hfirst refusesRegex).trans hnot.1
      · split at h
        · exact (hother (by simp) h).elim
        · split at h
          · exact (hother (by simp) h).elim
          · simp at h
  · rintro ⟨close, hregex, rfl⟩
    refine ⟨?_, rfl⟩
    obtain ⟨c, hc, hslash⟩ := (Option.any_eq_true _ _).mp hregex.slash
    have hbounds := bounds_of_regexClose hregex.closes
    have hfirst : b[i + 1]? = some b[i + 1] := Array.getElem?_eq_getElem (by omega)
    have hrefuses : refusesRegex b[i + 1] = false :=
      (Bytes.satAt_of_getElem? hfirst refusesRegex).symm.trans hregex.first
    -- the byte behind the slash is not one that makes a comment of it
    have hnot {ch : Char} (hch : refusesRegex (Byte.ofChar ch) = true) :
        b.isAt (i + 1) ch = false := by
      rw [Bool.eq_false_iff]
      intro his
      have hfalse := (Bytes.satAt_of_isAt his refusesRegex).symm.trans hregex.first
      rw [hch] at hfalse
      simp at hfalse
    rw [literalAt, hc]
    dsimp only
    rw [if_pos hslash, hnot rfl, hnot rfl, if_neg Bool.false_ne_true, if_neg Bool.false_ne_true,
      regexStop, hfirst]
    dsimp only
    rw [hrefuses, hregex.operand, hregex.closes]
    rfl

/-! ### The search and the escapes -/

private theorem Bytes.satAt_eq_getElem {b : Bytes} {i : Nat} (hi : i < b.size) (p : Byte → Bool) :
    b.satAt i p = p b[i] :=
  satAt_of_getElem? (Array.getElem?_eq_getElem hi) p

section Search

variable {b b' : Bytes} {inClass : Bool} {j stop : Nat}

/-- A byte that is no backslash escapes nothing. -/
private theorem escaped_succ_of_not_is (hj : j < b.size) (h : ¬ b[j].is '\\' = true) :
    b.escaped (j + 1) = false := by
  rw [Bytes.escaped, Bytes.isAt_eq_satAt, Bytes.satAt_eq_getElem hj, Bool.eq_false_iff.mpr h,
    Bool.false_and]

/-- **Line breaks that the search passes over are escaped.** The search starts at a byte that is not
escaped, and comes from such bytes to such bytes. The induction follows the search. -/
theorem escaped_of_regexClose {k : Nat} (h : regexClose b inClass j = some stop)
    (hfree : b.escaped j = false) (hjk : j ≤ k) (hk : k < stop)
    (hbreak : b.satAt k (·.among ['\n', '\r']) = true) :
    b.escaped k = true := by
  -- a byte that the search sees is no line break, so it is not the one at `k`
  have hne {m : Nat} (hm : m < b.size) (hmk : m ≤ k) (hnot : ¬ b[m].among ['\n', '\r'] = true) :
      m + 1 ≤ k := by
    refine Nat.lt_of_le_of_ne hmk fun heq => hnot ?_
    subst heq
    rwa [Bytes.satAt_eq_getElem hm] at hbreak
  fun_induction regexClose b inClass j with
  | case1 inClass j hj hescape ih =>
    obtain ⟨hnext, hafter⟩ :=
      Bytes.escaped_of_isAt ((Bytes.satAt_eq_getElem hj (·.is '\\')).trans hescape) hfree
    -- the backslash itself is no line break
    have hseen : ¬ b[j].among ['\n', '\r'] = true := by
      rw [Byte.apply_of_is hescape fun c => c.among ['\n', '\r']]
      decide
    rcases Nat.lt_or_eq_of_le (hne hj hjk hseen) with hlt | rfl
    · exact ih h hafter hlt
    · exact hnext
  | case2 =>
    -- a line break that the search sees ends it without a result
    simp at h
  | case3 _ j hj hplain hseen _ ih | case4 _ j hj hplain hseen _ _ ih
  | case6 _ j hj hplain hseen _ _ _ ih =>
    exact ih h (escaped_succ_of_not_is hj hplain) (hne hj hjk hseen)
  | case5 _ j hj _ hseen =>
    -- the closing slash
    have := hne hj hjk hseen
    obtain rfl := Option.some.inj h
    omega
  | case7 => simp at h

/-- **The search does not see what an escaped byte is.** The induction follows the search: it looks
at bytes that are not escaped only, and those are the same in both texts. -/
theorem regexClose_congr (h : regexClose b inClass j = some stop) (hfree : b.escaped j = false)
    (hsame : ∀ k, j ≤ k → k < stop → b.escaped k = false → b'[k]? = b[k]?) :
    regexClose b' inClass j = some stop := by
  -- a byte that the search sees is the same in both texts
  have hstep {m : Nat} (hm : m < b.size) (hsee : b'[m]? = b[m]?) :
      ∃ hm' : m < b'.size, b'[m] = b[m] :=
    Array.getElem?_eq_some_iff.mp (hsee.trans (Array.getElem?_eq_getElem hm))
  have hbounds := bounds_of_regexClose h
  fun_induction regexClose b inClass j with
  | case1 inClass j hj hescape ih =>
    -- the byte behind the backslash is passed over, whatever it is
    obtain ⟨hj', heq⟩ := hstep hj (hsame j (Nat.le_refl j) hbounds.1 hfree)
    have hafter := (Bytes.escaped_of_isAt
      ((Bytes.satAt_eq_getElem hj (·.is '\\')).trans hescape) hfree).2
    rw [regexClose, dif_pos hj', heq, if_pos hescape]
    exact ih h hafter (fun k hk => hsame k (by omega)) (bounds_of_regexClose h)
  | case2 => simp at h
  | case3 inClass j hj hplain hseen hopen ih =>
    obtain ⟨hj', heq⟩ := hstep hj (hsame j (Nat.le_refl j) hbounds.1 hfree)
    rw [regexClose, dif_pos hj', heq, if_neg hplain, if_neg hseen, if_pos hopen]
    exact ih h (escaped_succ_of_not_is hj hplain) (fun k hk => hsame k (by omega))
      (bounds_of_regexClose h)
  | case4 inClass j hj hplain hseen hopen hclose ih =>
    obtain ⟨hj', heq⟩ := hstep hj (hsame j (Nat.le_refl j) hbounds.1 hfree)
    rw [regexClose, dif_pos hj', heq, if_neg hplain, if_neg hseen, if_neg hopen, if_pos hclose]
    exact ih h (escaped_succ_of_not_is hj hplain) (fun k hk => hsame k (by omega))
      (bounds_of_regexClose h)
  | case5 inClass j hj hplain hseen hopen hclose hend =>
    obtain ⟨hj', heq⟩ := hstep hj (hsame j (Nat.le_refl j) hbounds.1 hfree)
    rw [regexClose, dif_pos hj', heq, if_neg hplain, if_neg hseen, if_neg hopen, if_neg hclose,
      if_pos hend, h]
  | case6 inClass j hj hplain hseen hopen hclose hend ih =>
    obtain ⟨hj', heq⟩ := hstep hj (hsame j (Nat.le_refl j) hbounds.1 hfree)
    rw [regexClose, dif_pos hj', heq, if_neg hplain, if_neg hseen, if_neg hopen, if_neg hclose,
      if_neg hend]
    exact ih h (escaped_succ_of_not_is hj hplain) (fun k hk => hsame k (by omega))
      (bounds_of_regexClose h)
  | case7 => simp at h

end Search

/-! ### Line breaks -/

/-- Whether an operand ends at a place depends on the text before it. -/
theorem Agree.endsOperand_eq {n i : Nat} {a b : Bytes} (h : Agree n a b) (hi : i ≤ n) :
    endsOperand a i = endsOperand b i := by
  unfold endsOperand
  rw [h.lastInk_eq hi]
  cases hlast : b.lastInk i with
  | none => rfl
  | some p =>
    have hp := Bytes.lastInk_lt hlast
    dsimp only
    rw [h.satAt_eq (by omega), h.satAt_eq (by omega), h.runStart_eq (by omega),
      h.slice_eq (by omega)]

section Literal

variable {b : Bytes} {i close k : Nat}

namespace RegexAt

private theorem escaped_succ (h : RegexAt b i close) : b.escaped (i + 1) = false :=
  Bytes.escaped_succ_of_satAt h.slash rfl

/-- The closing slash and the letters behind it escape nothing. -/
private theorem escaped_flag (h : RegexAt b i close) (hclose : close ≤ k)
    (hk : k ≤ b.skipWhile Byte.isLetter close) : b.escaped k = false := by
  have hbounds := bounds_of_regexClose h.closes
  -- a letter stands before it, or the closing slash does
  rcases Nat.lt_or_eq_of_le hclose with hlt | rfl
  · obtain ⟨m, rfl⟩ : ∃ m, k = m + 1 := ⟨k - 1, by omega⟩
    exact Bytes.escaped_succ_of_satAt (p := Byte.isLetter)
      (Bytes.satAt_of_lt_skipWhile (by omega) hk) rfl
  · have hslash := isAt_of_regexClose h.closes
    obtain ⟨m, rfl⟩ : ∃ m, close = m + 1 := ⟨close - 1, by omega⟩
    exact Bytes.escaped_succ_of_satAt hslash rfl

/-- **A text that differs at escaped bytes only has the same regular expression.** What makes a
regular expression is read off bytes that are not escaped: the opening slash, the one behind it,
those that the search looks at and the letters at its end. -/
theorem congr {b' : Bytes} (h : RegexAt b i close)
    (hsame : ∀ k, ¬ (i < k ∧ k < b.skipWhile Byte.isLetter close ∧ b.escaped k = true) →
      b'[k]? = b[k]?) :
    RegexAt b' i close ∧ b'.skipWhile Byte.isLetter close = b.skipWhile Byte.isLetter close := by
  have hbounds := bounds_of_regexClose h.closes
  have hletters := b.le_skipWhile Byte.isLetter close
  -- what is not escaped is the same in both texts, and so is all that stands before the slash
  have hfree (k : Nat) (hk : b.escaped k = false) : b'[k]? = b[k]? :=
    hsame k fun hother => by simp [hk] at hother
  have hslash : b'[i]? = b[i]? := hsame i fun hother => Nat.lt_irrefl i hother.1
  have hbefore : Agree i b' b := fun k hk => hsame k fun hother => by omega
  -- the letters behind the closing slash are not escaped
  have hflag (k : Nat) (hk : close ≤ k) (hstop : k ≤ b.skipWhile Byte.isLetter close) :
      b'.satAt k Byte.isLetter = b.satAt k Byte.isLetter :=
    Bytes.satAt_congr (hfree k (h.escaped_flag hk hstop)) _
  refine ⟨⟨?_, ?_, ?_, ?_⟩, ?_⟩
  · exact (Bytes.isAt_congr hslash '/').trans h.slash
  · exact (Bytes.satAt_congr (hfree _ h.escaped_succ) refusesRegex).trans h.first
  · exact (hbefore.endsOperand_eq (Nat.le_refl i)).trans h.operand
  · exact regexClose_congr h.closes h.escaped_succ fun k _ _ => hfree k
  · refine Bytes.skipWhile_eq hletters (fun k hk hstop => ?_) ?_
    · exact (hflag k hk (Nat.le_of_lt hstop)).trans (Bytes.satAt_of_lt_skipWhile hk hstop)
    · exact (hflag _ hletters (Nat.le_refl _)).trans (b.satAt_skipWhile Byte.isLetter close)

end RegexAt

/-- **The line breaks in a regular expression are escaped**, and an escaped byte makes no difference
to it: a text that is another one at escaped bytes only has the same regular expression, so that any
of them can be a line break. -/
theorem regex_lineBreaks {l : Literal} (h : literalAt b i = some l) (hkind : l.kind = .regex) :
    (∀ k, i ≤ k → k < l.span.stop → b.satAt k (·.among ['\n', '\r']) = true →
        b.escaped k = true) ∧
      ∀ b' : Bytes,
        (∀ k, ¬ (i < k ∧ k < l.span.stop ∧ b.escaped k = true) → b'[k]? = b[k]?) →
          literalAt b' i = some l := by
  obtain ⟨close, hregex, rfl⟩ := literalAt_eq_regex_iff.mp ⟨h, hkind⟩
  constructor
  · intro k hik hk hbreak
    -- neither the slash nor a letter is a line break
    have hnot {p : Byte → Bool} (hp : b.satAt k p = true)
        (hbreaks : ['\n', '\r'].all (fun ch => !p (Byte.ofChar ch)) = true) : False := by
      rw [Bytes.satAt_eq_false hp (Byte.excludes_among hbreaks)] at hbreak
      simp at hbreak
    rcases Nat.lt_or_eq_of_le hik with hlt | rfl
    · by_cases hclose : k < close
      · exact escaped_of_regexClose hregex.closes hregex.escaped_succ hlt hclose hbreak
      · -- behind the closing slash there are letters
        exact (hnot (Bytes.satAt_of_lt_skipWhile (Nat.le_of_not_lt hclose) hk) rfl).elim
    · exact (hnot hregex.slash rfl).elim
  · intro b' hsame
    obtain ⟨hregex', hletters⟩ := hregex.congr hsame
    exact (literalAt_eq_regex_iff.mpr ⟨close, hregex', by rw [hletters]⟩).1

/-- A regular expression with an escaped backslash and an escaped carriage return, and the same one
with a second line break in place of the backslash. -/
theorem regex_lineBreaks_return :
    let b := Bytes.ofString "=/[/]\\\\\\\r/g;"
    let b' := Bytes.ofString "=/[/]\\\n\\\r/g;"
    let l : Literal := ⟨.regex, ⟨1, 11⟩, true⟩
    literalAt b 1 = some l ∧ b.isAt 8 '\r' = true ∧ b.escaped 8 = true ∧
      literalAt b' 1 = some l := by
  intro b b' l
  have hregex : literalAt b 1 = some l := by decide +kernel
  have hreturn : b.isAt 8 '\r' = true := by decide
  have hsame : ∀ k < 12, ¬ (1 < k ∧ k < 11 ∧ b.escaped k = true) → b'[k]? = b[k]? := by decide
  obtain ⟨hbreaks, hcongr⟩ := regex_lineBreaks hregex rfl
  refine ⟨hregex, hreturn, hbreaks 8 (by decide) (by decide) ?_, hcongr b' fun k hk => ?_⟩
  · rw [Bytes.satAt_of_isAt hreturn]
    rfl
  · by_cases hlt : k < 12
    · exact hsame k hlt hk
    · -- both texts end before that place
      have hout : ∀ a : Bytes, a.size = 12 → a[k]? = none := fun a ha =>
        Array.getElem?_eq_none (by omega)
      rw [hout b' rfl, hout b rfl]

/-- **A regular expression can span lines**: a backslash before the line break is enough. -/
theorem regex_spans_lines :
    let b := Bytes.ofString "/\\\n/"
    literalAt b 0 = some ⟨.regex, ⟨0, 4⟩, true⟩ ∧ b.isAt 2 '\n' = true := by
  decide +kernel

end Literal

end TypeErasure
