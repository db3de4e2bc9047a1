import TypeErasure.Proofs.AliasHead
import TypeErasure.Proofs.Alike.Construct
import TypeErasure.Proofs.Prefix

/-!
# Where the output of a run parts from its source

A run copies its source up to the first construct that it comments out. `Forks t o c n` says that a
source `t` and an output `o`, both read from offset `c` on, are the same up to offset `n`, where the
construct starts in `t` and its comment in `o`.

Before the fork, a scan that looks back finds the same in both texts (`Agree`). A scan that looks
ahead may run over the fork. In the output it then meets a slash, which is no part of a name, of
whitespace or of a list of types; in the source it meets the first byte of a construct, which
carries on no word (`StartsErased`). A search through type parameters alone goes on behind the fork,
and for it the field `heads` says that both texts answer alike.

Main statements:

* `Forks.inertStop_eq`: before the fork, both texts hold the same literals.
* `Forks.matchAt`: a construct that the output gives away before the fork is given away by the
  source at the same place. This holds of all constructs but return types and class members, which
  look ahead for a body.
-/

namespace TypeErasure

private theorem Byte.isNamePart_of_isLetter (c : Byte) (h : c.isLetter = true) :
    c.isNamePart = true := by
  rw [isNamePart, isNameStart_of_isLetter h, Bool.true_or]

/-- On a clean path, a byte that is no literal by itself opens none: only a slash could, and on such
a path every slash opens one. -/
private theorem Clean.not_opensInert {b : Bytes} {c i : Nat} (h : Clean b c) (hi : Scans b c i)
    (hnone : inertStop b i = none) : b.satAt i Byte.opensInert = false := by
  refine opensInert_of_inertStop_eq_none hnone ?_
  rw [Bool.eq_false_iff]
  intro hslash
  have hsome := h i hi hslash
  rw [hnone] at hsome
  simp at hsome

/-! ### Where the texts part -/

/-- **The texts part at offset `n`**, where `t` goes on with a construct that a run erases and `o`
with the comment that the run writes for it. -/
structure Forks (t o : Bytes) (c n : Nat) : Prop where
  agree : Agree n t o
  scans : Scans t c n
  comment : o.isAt n '/' = true
  starts : StartsErased t n
  /-- Both texts end a list of type parameters that is open here alike. -/
  heads : ∀ depth, HeadsAlias o depth n → HeadsAlias t depth n

namespace Forks

variable {t o : Bytes} {c n i : Nat} {p : Byte → Bool}

/-- The fork is also one of a path that starts earlier. -/
theorem rebase {c' : Nat} (h : Forks t o c' n) (hc : Scans t c c') : Forks t o c n :=
  { h with scans := hc.trans h.scans }

/-! ### Words before the fork -/

private theorem satAt_fork (h : Forks t o c n) (hp : p (Byte.ofChar '/') = false) :
    o.satAt n p = false :=
  (Bytes.satAt_of_isAt h.comment p).trans hp

/-- A byte of the output that is no slash is not the one at the fork. -/
private theorem lt_of_satAt (h : Forks t o c n) (hi : i ≤ n) (hat : o.satAt i p = true)
    (hp : p (Byte.ofChar '/') = false) : i < n := by
  refine Nat.lt_of_le_of_ne hi ?_
  rintro rfl
  rw [h.satAt_fork hp] at hat
  simp at hat

/-- A run that starts before the fork ends there at the latest, since a slash ends it. -/
private theorem skipWhile_le (h : Forks t o c n) (hi : i ≤ n) (hp : p (Byte.ofChar '/') = false) :
    o.skipWhile p i ≤ n := by
  apply Nat.le_of_not_lt
  intro hlt
  have hat := Bytes.satAt_of_lt_skipWhile hi hlt
  rw [h.satAt_fork hp] at hat
  simp at hat

/-- If something stands behind the run that is no slash, the run is the same in both texts. -/
theorem skipWhile_eq (h : Forks t o c n) (hi : i ≤ n) (hp : p (Byte.ofChar '/') = false)
    {q : Byte → Bool} (hat : o.satAt (o.skipWhile p i) q = true)
    (hq : q (Byte.ofChar '/') = false) :
    o.skipWhile p i < n ∧ t.skipWhile p i = o.skipWhile p i := by
  have hlt := h.lt_of_satAt (h.skipWhile_le hi hp) hat hq
  exact ⟨hlt, h.agree.symm.skipWhile_eq hlt⟩

/-- This is `skipWhile_eq` for blanks. -/
theorem skipBlanks_eq (h : Forks t o c n) (hi : i ≤ n) (hat : o.satAt (o.skipBlanks i) p = true)
    (hp : p (Byte.ofChar '/') = false) :
    o.skipBlanks i < n ∧ t.skipBlanks i = o.skipBlanks i :=
  h.skipWhile_eq hi rfl hat hp

theorem skipSpace_eq (h : Forks t o c n) (hi : i ≤ n) (hat : o.satAt (o.skipSpace i) p = true)
    (hp : p (Byte.ofChar '/') = false) : o.skipSpace i < n ∧ t.skipSpace i = o.skipSpace i :=
  h.skipWhile_eq hi rfl hat hp

/-- A word of the output that starts before the fork ends there at the latest. -/
private theorem le_of_hasAt (h : Forks t o c n) (hi : i ≤ n) {w : String} (hat : o.hasAt i w = true)
    (hw : (Bytes.ofString w).toList.all Byte.isLetter = true) :
    i + (Bytes.ofString w).size ≤ n := by
  apply Nat.le_of_not_lt
  intro hlt
  -- a word that ran over the fork would have a letter where the output has a slash
  have hletter := Bytes.satAt_of_hasAt hat (k := n - i) (by omega) hw
  rw [Nat.add_sub_cancel' hi, h.satAt_fork rfl] at hletter
  simp at hletter

/-- A word that starts before the fork stands in both texts or in none. Over the fork a word runs in
neither of them: in the output there is a slash, and in the source the start of a construct carries
on no name. -/
theorem hasAt_eq (h : Forks t o c n) (hi : i < n) {w : String}
    (hw : (Bytes.ofString w).toList.all Byte.isLetter = true) : t.hasAt i w = o.hasAt i w := by
  -- the word ends before the fork, where the texts are the same
  by_cases hle : i + (Bytes.ofString w).size ≤ n
  · exact h.agree.hasAt_eq hle
  · have ho : o.hasAt i w = false := by
      rw [Bool.eq_false_iff]
      exact fun hat => hle (h.le_of_hasAt (Nat.le_of_lt hi) hat hw)
    -- a construct starts in the middle of no word
    have ht : t.hasAt i w = false := by
      rw [Bool.eq_false_iff]
      intro hat
      have hname {k : Nat} (hk : i + k < i + (Bytes.ofString w).size) :
          t.satAt (i + k) Byte.isNamePart = true :=
        Bytes.satAt_mono (Bytes.satAt_of_hasAt hat (by omega) hw) Byte.isNamePart_of_isLetter
      have hlast := hname (k := n - 1 - i) (by omega)
      have hfork := hname (k := n - i) (by omega)
      rw [Nat.add_sub_cancel' (by omega)] at hlast hfork
      rw [h.starts.apart (by omega) hlast] at hfork
      simp at hfork
    rw [ho, ht]

/-- A keyword that starts before the fork is one in both texts. The byte behind it may be the one at
the fork, which is part of a name in neither text. -/
theorem keywordAt_eq (h : Forks t o c n) (hi : i < n) {w : String}
    (hw : (Bytes.ofString w).toList.all Byte.isLetter = true) :
    keywordAt t i w = keywordAt o i w := by
  unfold keywordAt
  rw [h.hasAt_eq hi hw, h.agree.satAt_eq (k := i - 1) (by omega)]
  by_cases hat : o.hasAt i w = true
  · rcases Nat.lt_or_eq_of_le (h.le_of_hasAt (Nat.le_of_lt hi) hat hw) with hlt | heq
    · rw [h.agree.satAt_eq hlt]
    · -- no name goes on at the fork
      have hlast := Bytes.satAt_of_hasAt hat (k := (Bytes.ofString w).size - 1) (by omega) hw
      rw [show i + ((Bytes.ofString w).size - 1) = n - 1 by omega,
        ← h.agree.satAt_eq (by omega)] at hlast
      have hname : t.satAt (n - 1) Byte.isNamePart = true :=
        Bytes.satAt_mono hlast Byte.isNamePart_of_isLetter
      rw [heq, h.starts.apart (by omega) hname, h.satAt_fork rfl]
  · rw [Bool.eq_false_iff.mpr hat, Bool.false_and, Bool.false_and, Bool.false_and]

/-- A keyword of the output that starts at the fork or before it lies before it. -/
private theorem lt_of_keywordAt (h : Forks t o c n) (hi : i ≤ n) {w : String}
    (hat : keywordAt o i w = true) (hw : (Bytes.ofString w).toList.all Byte.isLetter = true)
    (hpos : 0 < (Bytes.ofString w).size) : i < n ∧ i + (Bytes.ofString w).size ≤ n :=
  ⟨h.lt_of_satAt hi (isLetter_of_keywordAt hat hw hpos) rfl,
    h.le_of_hasAt hi (hasAt_of_keywordAt hat) hw⟩

/-! ### Statements -/

/-- A statement that starts before the fork with a keyword, or with `export` and a keyword, does so
in both texts, and the keyword ends before the fork. -/
theorem statementKeyword (h : Forks t o c n) (hi : i < n) {w : String} {after : Nat}
    (hw : (Bytes.ofString w).toList.all Byte.isLetter = true)
    (hpos : 0 < (Bytes.ofString w).size) (hat : statementKeyword o i w = some after) :
    TypeErasure.statementKeyword t i w = some after ∧ after ≤ n := by
  have hexport := h.keywordAt_eq (w := "export") hi rfl
  obtain ⟨start, hword, hafter, hstart⟩ := statementKeyword_cases hat
  -- an `export` and the keyword end before the fork, so both texts agree on them
  have hle : start ≤ n := by
    rcases hstart with rfl | ⟨hat, rfl⟩
    · exact Nat.le_of_lt hi
    · exact h.skipWhile_le (h.lt_of_keywordAt (Nat.le_of_lt hi) hat rfl (by decide)).2 rfl
  obtain ⟨hlt, hend⟩ := h.lt_of_keywordAt hle hword hw hpos
  refine ⟨?_, hafter ▸ hend⟩
  unfold TypeErasure.statementKeyword at hat ⊢
  dsimp only at hat ⊢
  rw [hexport, h.agree.atStatementStart_eq (Nat.le_of_lt hi)]
  by_cases hexported : keywordAt o i "export" = true
  · have hsix : i + 6 ≤ n := (h.lt_of_keywordAt (Nat.le_of_lt hi) hexported rfl (by decide)).2
    have hblanks : o.skipBlanks (i + 6) < n ∧ t.skipBlanks (i + 6) = o.skipBlanks (i + 6) := by
      rw [if_pos hexported, Option.ite_none_right_eq_some, Bool.and_eq_true] at hat
      exact h.skipBlanks_eq hsix (isLetter_of_keywordAt hat.1.2 hw hpos) rfl
    rw [if_pos hexported] at hat ⊢
    rw [hblanks.2, h.keywordAt_eq hblanks.1 hw]
    exact hat
  · rw [if_neg hexported] at hat ⊢
    rw [h.keywordAt_eq hi hw]
    exact hat

/-- The same with a name behind the keyword, which starts before the fork too. -/
theorem namedStatement (h : Forks t o c n) (hi : i < n) {w : String} {after : Nat}
    (hw : (Bytes.ofString w).toList.all Byte.isLetter = true)
    (hpos : 0 < (Bytes.ofString w).size) (hat : namedStatement o i w = some after) :
    TypeErasure.namedStatement t i w = some after := by
  obtain ⟨hkeyword, hname⟩ := Option.filter_eq_some_iff.mp hat
  obtain ⟨ht, hle⟩ := h.statementKeyword hi hw hpos hkeyword
  rw [Bool.and_eq_true] at hname
  obtain ⟨hlt, heq⟩ := h.skipBlanks_eq hle hname.2 rfl
  refine Option.filter_eq_some_iff.mpr ⟨ht, ?_⟩
  rw [Bool.and_eq_true, heq, h.agree.satAt_eq hlt]
  exact hname

/-- An `=` that assigns in the output assigns in the source. What comes before it is the same, and
what comes behind it could be the start of a construct, which is neither `=` nor `>`. -/
theorem isAssign (h : Forks t o c n) (hi : i < n) (hat : isAssign o i = true) :
    TypeErasure.isAssign t i = true := by
  rw [TypeErasure.isAssign, isCompoundEq, Bool.and_eq_true] at hat ⊢
  have hbefore : (decide (0 < i) && t.satAt (i - 1) (·.among ['=', '!', '<', '>'])) =
      (decide (0 < i) && o.satAt (i - 1) (·.among ['=', '!', '<', '>'])) := by
    rw [h.agree.satAt_eq (by omega)]
  -- no construct starts with the second half of a `==` or of an arrow
  have hnext : t.satAt (i + 1) (·.among ['=', '>']) = true →
      o.satAt (i + 1) (·.among ['=', '>']) = true := by
    intro hsign
    by_cases hlt : i + 1 < n
    · rwa [← h.agree.satAt_eq hlt]
    · obtain rfl : i + 1 = n := by omega
      rw [Bytes.satAt_eq_false h.starts.first (Byte.excludes_among rfl)] at hsign
      simp at hsign
  rw [h.agree.isAt_eq hi, hbefore]
  refine ⟨hat.1, ?_⟩
  have hno := hat.2
  simp only [Bool.not_eq_true', Bool.and_eq_false_iff, Bool.or_eq_false_iff] at hno ⊢
  rcases hno with hno | ⟨hno, hprev⟩
  · exact .inl hno
  · refine .inr ⟨?_, hprev⟩
    rw [Bool.eq_false_iff]
    intro hsign
    rw [hnext hsign] at hno
    simp at hno

/-! ### Parts of expressions -/

/-- A cast that the output gives away before the fork is one of the source. Its keyword and the
first byte of its type stand before the fork, and what is asked of its operand looks back. -/
theorem castAt (h : Forks t o c n) (hi : i < n) {m : Match} (hat : castAt o i = some m) :
    TypeErasure.castAt t i = some m := by
  unfold TypeErasure.castAt at hat ⊢
  rw [Option.ite_none_right_eq_some] at hat ⊢
  refine ⟨?_, hat.2⟩
  have hcond := hat.1
  simp only [Bool.and_eq_true] at hcond ⊢
  obtain ⟨⟨⟨⟨⟨hblank, hword⟩, hspace⟩, htype⟩, hoperand⟩, hbinding⟩ := hcond
  -- the type behind the keyword starts before the fork, since it starts with no slash
  obtain ⟨hlt, hle⟩ := h.lt_of_keywordAt hi hword rfl (by decide)
  have hthree : i + 3 < n := h.lt_of_satAt hle hspace rfl
  obtain ⟨hskip, heq⟩ := h.skipSpace_eq (i := i + 3) hle htype rfl
  rw [h.agree.satAt_eq hi, h.keywordAt_eq hlt rfl, h.agree.satAt_eq hthree, heq,
    h.agree.satAt_eq hskip, h.agree.castOperandBefore_eq (Nat.le_of_lt hi),
    h.agree.inBindingList_eq (Nat.le_of_lt hi)]
  exact ⟨⟨⟨⟨⟨hblank, hword⟩, hspace⟩, htype⟩, hoperand⟩, hbinding⟩

/-- A colon that stands for itself in the output does so in the source. -/
theorem isColon (h : Forks t o c n) (hi : i < n) (hat : isColon o i = true) :
    TypeErasure.isColon t i = true := by
  unfold TypeErasure.isColon at hat ⊢
  rw [h.agree.isAt_eq hi, h.agree.isBefore_eq (Nat.le_of_lt hi)]
  simp only [Bool.and_eq_true, Bool.not_eq_true'] at hat ⊢
  refine ⟨⟨hat.1.1, ?_⟩, hat.2⟩
  by_cases hlt : i + 1 < n
  · rw [h.agree.isAt_eq hlt]
    exact hat.1.2
  · -- a construct that starts with a colon does not make a `::` of this one
    obtain rfl : i + 1 = n := by omega
    rw [Bool.eq_false_iff]
    intro hcolon
    have hbefore := h.starts.colon hcolon
    rw [Bytes.isBefore, Nat.add_sub_cancel, h.agree.isAt_eq hi, hat.1.1] at hbefore
    simp at hbefore

/-- An annotation that the output gives away is one of the source: what is annotated stands before
the colon, and all that is asked of the text behind it is that this is no second colon. -/
theorem annotationAt (h : Forks t o c n) (hi : i < n) {cursor : Nat} {m : Match}
    (hat : annotationAt o cursor i = some m) : TypeErasure.annotationAt t cursor i = some m := by
  unfold TypeErasure.annotationAt at hat ⊢
  rw [h.agree.annotationOf_eq (Nat.le_of_lt hi)]
  split at hat
  · rename_i hcolon
    rw [if_pos (h.isColon hi hcolon)]
    exact hat
  · simp at hat

/-! ### Literals before the fork -/

/-- **Literals that start before the fork are the same in both texts.** Where the source has one,
the path to the fork passes over it whole, so it lies before the fork (`inertStop_congr`); where it
has none, the byte opens none in the output either. -/
theorem inertStop_eq (h : Forks t o c n) (hclean : Clean t c) (hscan : Scans t c i) (hi : i < n) :
    inertStop o i = inertStop t i := by
  cases hstop : inertStop t i with
  | none =>
    -- on a clean path a byte without a literal opens none
    apply inertStop_eq_none
    rw [← h.agree.satAt_eq hi]
    exact hclean.not_opensInert hscan hstop
  | some stop =>
    -- the path to the fork passes the literal whole
    have hlt := lt_of_inertStop hstop
    have hle : stop ≤ n := scanNext_of_inertStop hstop ▸ hscan.next_le h.scans hi
    have hsame : inertStop o i = some (i + (stop - i)) := by
      refine inertStop_congr hstop (fun k hk => h.agree _ (by omega)) (fun hbreak => ?_)
        fun hend => ?_
      · -- no construct starts with a line break
        rw [Nat.add_sub_cancel' (Nat.le_of_lt hlt)]
        rcases Nat.lt_or_eq_of_le hle with hbefore | rfl
        · rwa [← h.agree.isAt_eq hbefore]
        · rw [Bytes.isAt_eq_false h.starts.first rfl] at hbreak
          simp at hbreak
      · have := Bytes.lt_size_of_satAt h.starts.first
        omega
    rw [hsame, Nat.add_sub_cancel' (Nat.le_of_lt hlt)]

/-! ### Lists of type arguments -/

/-- No list of types goes on at the fork, since no type holds a slash. -/
private theorem typeListClose_fork (h : Forks t o c n) (brackets : OpenBrackets) :
    typeListClose o brackets n = none := by
  obtain ⟨slash, hslash, his⟩ := (Option.any_eq_true _ _).mp h.comment
  have hbyte := Byte.apply_of_is his
  -- a slash is none of the bytes that a type is made of
  have hfits : fitsType o brackets n slash = false := by
    unfold fitsType
    rw [hbyte (·.is '='), hbyte (·.among ['&', '|']), hbyte (·.is ';'), hbyte Byte.isNamePart,
      hbyte Byte.isSpace, hbyte (·.among [',', '.', '?', ':', '-'])]
    rfl
  rw [Alike.typeListClose_eq_match, hslash]
  dsimp only
  rw [hfits, hbyte (·.is '<'), hbyte (·.is '>'), hbyte Byte.isQuote, hbyte Byte.isOpener,
    hbyte Byte.isCloser]
  rfl

/-- Before the fork, what can stand in a type is the same in both texts. -/
theorem fitsType_eq (h : Forks t o c n) (hi : i + 1 < n) (brackets : OpenBrackets) (ch : Byte) :
    fitsType t brackets i ch = fitsType o brackets i ch := by
  unfold fitsType
  rw [h.agree.isAt_eq hi, h.agree.isBefore_eq (by omega), h.agree.isBefore_eq (by omega),
    h.agree.satAt_eq hi]

/-- **A list of type arguments that is closed lies before the fork.** The recursion is that of the
search through the list, which makes the same step in both texts as long as it is before the fork.
At the fork it would end without an answer. -/
theorem typeListClose (h : Forks t o c n) (hclean : Clean t c) {brackets : OpenBrackets}
    {i close : Nat} (hi : i ≤ n) (hscan : Scans t c i)
    (hat : typeListClose o brackets i = some close) :
    close < n ∧ TypeErasure.typeListClose t brackets i = some close := by
  -- the list goes on at a place before the fork
  have hlt {brackets : OpenBrackets} {i : Nat} (hi : i ≤ n)
      (hat : TypeErasure.typeListClose o brackets i = some close) : i < n := by
    refine Nat.lt_of_le_of_ne hi ?_
    rintro rfl
    rw [h.typeListClose_fork] at hat
    simp at hat
  have hin := hlt hi hat
  rw [Alike.typeListClose_eq_match] at hat ⊢
  rw [h.agree i hin, h.agree.isBefore_eq (Nat.le_of_lt hin)]
  cases ho : o[i]? with
  | none =>
    -- the list is not closed
    simp [ho] at hat
  | some ch =>
    -- a byte that opens no literal is one step of the path
    have hnext (hch : ch.opensInert = false) : Scans t c (i + 1) := by
      have ht := (h.agree i hin).trans ho
      exact hscan.trans (Scans.byte (Array.getElem?_eq_some_iff.mp ht).1
        (inertStop_eq_none ((Bytes.satAt_of_getElem? ht _).trans hch)))
    rw [ho] at hat
    dsimp only at hat ⊢
    by_cases hopen : ch.is '<' = true
    · rw [if_pos hopen] at hat ⊢
      exact h.typeListClose hclean hin (hnext (Byte.apply_of_is hopen _)) hat
    rw [if_neg hopen] at hat ⊢
    by_cases hangle : ch.is '>' = true
    · have hbehind := hnext (Byte.apply_of_is hangle _)
      rw [if_pos hangle] at hat ⊢
      by_cases harrow : o.isBefore i '=' = true
      · rw [if_pos harrow] at hat ⊢
        exact h.typeListClose hclean hin hbehind hat
      rw [if_neg harrow] at hat ⊢
      by_cases hlast : brackets.angle = 1
      · -- the bracket that closes the list
        rw [if_pos hlast] at hat ⊢
        exact ⟨Option.some.inj (Option.ite_none_right_eq_some.mp hat).2 ▸ hin, hat⟩
      · rw [if_neg hlast] at hat ⊢
        exact h.typeListClose hclean hin hbehind hat
    rw [if_neg hangle] at hat ⊢
    by_cases hquote : ch.isQuote = true
    · -- a string ends before the fork
      rw [if_pos hquote] at hat ⊢
      cases hl : literalAt o i with
      | none => simp [hl] at hat
      | some l =>
        rw [hl] at hat
        have hstop : inertStop t i = some l.span.stop :=
          (h.inertStop_eq hclean hscan hin).symm.trans
            (inertStop_of_isQuote hl ((Bytes.satAt_of_getElem? ho _).trans hquote))
        have hle : l.span.stop ≤ n := scanNext_of_inertStop hstop ▸ hscan.next_le h.scans hin
        have hgrow := lt_of_inertStop hstop
        have hrest := h.typeListClose hclean hle (hscan.trans (.inert hstop)) hat
        obtain ⟨l', hl', hsame⟩ := Option.map_eq_some_iff.mp hstop
        rw [(Option.filter_eq_some_iff.mp hl').1]
        dsimp only
        rwa [hsame]
    rw [if_neg hquote] at hat ⊢
    by_cases hbracket : (ch.isOpener || ch.isCloser) = true
    · -- a round, square or curly bracket
      rw [if_pos hbracket] at hat ⊢
      cases hcount : brackets.count ch with
      | none => simp [hcount] at hat
      | some brackets' =>
        rw [hcount] at hat
        exact h.typeListClose hclean hin (hnext (Byte.excludes_opensInert
          (p := fun c => c.isOpener || c.isCloser) rfl _ hbracket)) hat
    rw [if_neg hbracket] at hat ⊢
    -- the byte behind is read too; it stands before the fork, since the list goes on there
    obtain ⟨hfits, hat⟩ := Option.ite_none_right_eq_some.mp hat
    rw [h.fitsType_eq (hlt hin hat), if_pos hfits]
    exact h.typeListClose hclean hin (hnext (not_opensInert_of_fitsType hfits)) hat
termination_by n - i

/-- What follows a list of type arguments in the output follows it in the source. -/
theorem followsTypeList (h : Forks t o c n) (hi : i ≤ n)
    (hat : followsTypeList o (o.skipSpace i) = true) :
    TypeErasure.followsTypeList t (t.skipSpace i) = true := by
  -- what follows the list is a bracket or a keyword, and not the comment at the fork
  have hstart : o.satAt (o.skipSpace i) (fun c => c.among ['(', '{'] || c.isLetter) = true := by
    simp only [TypeErasure.followsTypeList, Bool.or_eq_true] at hat
    -- a bracket, or one of two keywords
    rcases hat with (hat | hat) | hat
    · exact Bytes.satAt_mono hat fun c hc => by rw [hc, Bool.true_or]
    · exact Bytes.satAt_mono (isLetter_of_keywordAt hat rfl (by decide)) fun c hc => by
        rw [hc, Bool.or_true]
    · exact Bytes.satAt_mono (isLetter_of_keywordAt hat rfl (by decide)) fun c hc => by
        rw [hc, Bool.or_true]
  obtain ⟨hlt, heq⟩ := h.skipSpace_eq hi hstart rfl
  rw [TypeErasure.followsTypeList] at hat ⊢
  rw [heq, h.agree.satAt_eq hlt, h.keywordAt_eq hlt rfl, h.keywordAt_eq hlt rfl]
  exact hat

/-- A list of type arguments that the output gives away before the fork is one of the source. -/
theorem typeArgumentsAt (h : Forks t o c n) (hclean : Clean t c) (hi : i < n)
    (hscan : Scans t c i) {m : Match} (hat : typeArgumentsAt o i = some m) :
    TypeErasure.typeArgumentsAt t i = some m := by
  unfold TypeErasure.typeArgumentsAt at hat ⊢
  obtain ⟨hcond, hat⟩ := Option.ite_none_right_eq_some.mp hat
  cases hclose : TypeErasure.typeListClose o {} i with
  | none => simp [hclose] at hat
  | some close =>
    rw [hclose] at hat
    obtain ⟨hfollows, hm⟩ := Option.ite_none_right_eq_some.mp hat
    obtain ⟨hlt, ht⟩ := h.typeListClose hclean (Nat.le_of_lt hi) hscan hclose
    -- the list closes behind the place where it opens
    have hnext : i + 1 < n := by
      obtain ⟨hpath, hangle⟩ := scans_typeListClose hclose
      have hle := hpath.le
      have hne : i ≠ close := by
        rintro rfl
        simp only [Bool.and_eq_true] at hcond
        rw [Bytes.isAt_eq_satAt, Bytes.satAt_of_isAt hcond.1.1.2] at hangle
        simp [Byte.ofChar, Byte.is] at hangle
      omega
    rw [h.agree.isAt_eq hi, h.agree.satAt_eq (by omega), h.agree.satAt_eq hnext, if_pos hcond, ht]
    dsimp only
    rw [if_pos (h.followsTypeList hlt hfollows)]
    exact hm

/-! ### Type aliases -/

/-- **Type parameters that are open before the fork belong to an alias in both texts.** The
recursion goes step by step to the fork, where the field `heads` takes over, or to the bracket that
closes the parameters before it. -/
theorem headsAlias (h : Forks t o c n) (hclean : Clean t c) {depth i : Nat} (hi : i ≤ n)
    (hscan : Scans t c i) (hat : HeadsAlias o depth i) : HeadsAlias t depth i := by
  rcases Nat.lt_or_eq_of_le hi with hlt | rfl
  · have hsize : i < t.size := Nat.lt_trans hlt (Bytes.lt_size_of_satAt h.starts.first)
    have hsize' : i < o.size := Nat.lt_trans hlt (Bytes.lt_size_of_isAt h.comment)
    have hinert := h.inertStop_eq hclean hscan hlt
    -- a step that both texts make alike, or the bracket that closes the parameters
    rcases nests_step hsize hsize' (by rw [hinert]) (h.agree.opensAt_eq hlt .type)
      (h.agree.closesAt_eq hlt .type) depth with ⟨rfl, hclose, hclose'⟩ | ⟨e, hnests, hnests'⟩
    · -- the parameters close before the fork, and the sign behind them stands before it too
      rw [headsAlias_of_closesAt hclose'] at hat
      rw [headsAlias_of_closesAt hclose, h.agree.isAt_eq hlt]
      obtain ⟨hskip, heq⟩ := h.skipSpace_eq hlt (Bool.and_eq_true_iff.mp hat.2).1 rfl
      rw [heq]
      exact ⟨hat.1, h.isAssign hskip hat.2⟩
    · have hgrow := lt_scanNext t i
      rw [scanNext, hinert, ← scanNext] at hnests'
      rw [hnests.headsAlias_iff]
      exact h.headsAlias hclean (hscan.next_le h.scans hlt)
        (hscan.trans (.single ⟨hsize, rfl⟩)) (hnests'.headsAlias_iff.mp hat)
  · exact h.heads depth hat
termination_by n - i

/-- The sign of an alias, or type parameters with one behind them. -/
private theorem aliasSign (h : Forks t o c n) (hclean : Clean t c) (hi : i < n)
    (hscan : Scans t c i) (hat : AliasSign o i) : AliasSign t i := by
  unfold AliasSign at hat ⊢
  rw [h.agree.isAt_eq hi]
  -- type parameters, which may run over the fork
  by_cases hopen : o.isAt i '<' = true
  · rw [if_pos hopen] at hat ⊢
    rw [← h.agree.isAt_eq hi] at hopen
    exact h.headsAlias hclean hi (hscan.trans (scans_isAt hopen rfl)) hat
  · rw [if_neg hopen] at hat ⊢
    exact h.isAssign hi hat

/-- A type alias that the output gives away before the fork is given away by the source. Its
keyword, its name and the byte behind them stand before the fork; what is left is `aliasSign`. -/
theorem typeAliasAt (h : Forks t o c n) (hclean : Clean t c) (hi : i < n) (hscan : Scans t c i)
    (hat : (typeAliasAt o i).isSome = true) : (TypeErasure.typeAliasAt t i).isSome = true := by
  obtain ⟨after, hkeyword, hblank, hname, hsign⟩ := typeAliasAt_isSome_iff.mp hat
  obtain ⟨ht, hafter⟩ := h.statementKeyword hi rfl (by decide) hkeyword
  obtain ⟨hstart, hstop⟩ := nameStop_of_lt hname
  -- the keyword, the name and the sign stand before the fork
  obtain ⟨hlt, hblanks⟩ := h.skipBlanks_eq hafter hstart rfl
  have hle : nameStop o (o.skipBlanks after) ≤ n :=
    hstop ▸ h.skipWhile_le (Nat.le_of_lt hlt) rfl
  obtain ⟨hsignlt, hspace⟩ := h.skipSpace_eq hle hsign.satAt rfl
  have hnameeq : nameStop t (o.skipBlanks after) = nameStop o (o.skipBlanks after) := by
    have hstoplt := Nat.lt_of_le_of_lt (o.le_skipWhile Byte.isSpace _) hsignlt
    rw [hstop] at hstoplt ⊢
    rw [nameStop, h.agree.satAt_eq hlt]
    exact (if_pos hstart).trans (h.agree.symm.skipWhile_eq hstoplt)
  have hpath : Scans t c (t.skipSpace (nameStop t (t.skipBlanks after))) :=
    (((hscan.trans (statementKeyword_spec ht rfl (by decide)).1).trans
      (scans_skipBlanks t _)).trans (scans_nameStop t _)).trans (scans_skipSpace t _)
  rw [hblanks, hnameeq, hspace] at hpath
  refine typeAliasAt_isSome_iff.mpr ⟨after, ht, ?_⟩
  rw [hblanks, hnameeq, hspace]
  exact ⟨hblank, hname, h.aliasSign hclean hsignlt hpath hsign⟩

/-! ### All constructs -/

/-- **A construct that the output gives away before the fork is given away by the source too.**
Return types and class members look ahead, and are left out. One case for each of the other
kinds. -/
theorem matchAt (h : Forks t o c n) (hclean : Clean t c) (hi : i < n) (hscan : Scans t c i)
    {k : Construct} {cursor : Nat} (hliteral : k.literalKind? = none) (hreturn : k ≠ .returnType)
    (hclass : k ≠ .classMembers) (hat : (k.matchAt o cursor i).isSome = true) :
    (k.matchAt t cursor i).isSome = true := by
  obtain ⟨m, hm⟩ := Option.isSome_iff_exists.mp hat
  cases k with
  | literal kind => simp [Construct.literalKind?] at hliteral
  | ambient =>
    obtain ⟨after, hafter, -⟩ := Option.map_eq_some_iff.mp hm
    rw [Construct.matchAt, ambientAt, h.namedStatement hi rfl (by decide) hafter]
    rfl
  | typeAlias => exact h.typeAliasAt hclean hi hscan hat
  | interface =>
    obtain ⟨after, hafter, -⟩ := Option.map_eq_some_iff.mp hm
    rw [Construct.matchAt, interfaceAt, h.namedStatement hi rfl (by decide) hafter]
    rfl
  | classMembers => exact (hclass rfl).elim
  | typeArguments =>
    exact Option.isSome_iff_exists.mpr ⟨m, h.typeArgumentsAt hclean hi hscan hm⟩
  | returnType => exact (hreturn rfl).elim
  | annotated => exact Option.isSome_iff_exists.mpr ⟨m, h.annotationAt hi hm⟩
  | cast => exact Option.isSome_iff_exists.mpr ⟨m, h.castAt hi hm⟩

/-- Where the source has no literal before the fork, the output has none. -/
theorem literalAt_eq_none (h : Forks t o c n) (hclean : Clean t c) (hi : i < n)
    (hscan : Scans t c i) (hnone : literalAt t i = none) : literalAt o i = none := by
  have hinert := inertStop_of_literalAt_eq_none hnone
  apply literalAt_eq_none_of_not_opensInert
  rw [← h.agree.satAt_eq hi]
  exact hclean.not_opensInert hscan hinert

end Forks

end TypeErasure
