import TypeErasure.Proofs.Placed
import TypeErasure.Proofs.Quiet
import TypeErasure.Proofs.Reach

/-!
# One construct after another

What a run makes of a text of known shape can be told step by step. At most places of such a text
nothing starts (`SilentAt`): the byte there cannot give a construct away (`Construct.starts`), or it
belongs to a name that is none of the words that start one. Silent text is copied
(`Rules.Writes.copy`), and where a construct starts, one round puts its patch in front of the rest
of the run (`Rules.Writes.round`).
-/

namespace TypeErasure

/-! ### First bytes -/

/-- The bytes at which a construct can be given away. -/
def Construct.starts : Construct → Byte → Bool
  | literal _, c => c.opensInert
  | ambient, c => c.isLetter
  | typeAlias, c => c.isLetter
  | interface, c => c.isLetter
  | classMembers, c => c.isLetter || c.is '{' || c.isBlank
  | typeArguments, c => c.among ['<']
  | returnType, c => c.among [':']
  | annotated, c => c.among [':']
  | cast, c => c.isBlank

section Starts

variable {b : Bytes} {cursor i : Nat} {k : Construct} {m : Match}

/-- A sign starts with one of the bytes that give its construct away. One case for each sign. -/
theorem Sign.starts (h : Sign b i k) : b.satAt i k.starts = true := by
  cases h with
  | literal opens => exact opens
  | statement keyword word place =>
    obtain ⟨hletters, hpos⟩ := Construct.keyword?_spec keyword
    have hletter : b.satAt i Byte.isLetter = true := by
      rcases place with rfl | ⟨hexport, -⟩
      · exact isLetter_of_keywordAt word hletters hpos
      · exact isLetter_of_keywordAt hexport rfl (by decide)
    -- only the statements that hold nothing but types have a keyword
    cases k with
    | ambient | typeAlias | interface => exact hletter
    | _ => simp [Construct.keyword?] at keyword
  | classMembers word first =>
    rcases first with hfirst | ⟨hblank, -⟩
    · exact Bytes.satAt_mono hfirst fun c hc => by
        rw [Construct.starts, hc, Bool.true_or]
    · exact Bytes.satAt_mono hblank fun c hc => by
        rw [Construct.starts, hc, Bool.or_true]
  | typeArguments angle => exact Bytes.satAt_of_isAt angle _
  | returnType colon follows => exact Bytes.satAt_of_isAt colon _
  | annotated colon => exact Bytes.satAt_of_isAt colon _
  | cast blank word => exact blank

/-- At any other byte the construct is not given away. -/
theorem matchAt_eq_none_of_starts (h : b.satAt i k.starts = false) :
    k.matchAt b cursor i = none := by
  cases hat : k.matchAt b cursor i with
  | none => rfl
  | some m =>
    rw [(sign_of_matchAt hat).starts] at h
    simp at h

private theorem lt_size_of_matchAt (h : k.matchAt b cursor i = some m) : i < b.size :=
  Bytes.lt_size_of_satAt (sign_of_matchAt h).starts

/-- A statement with a keyword is found through that keyword. -/
theorem exists_statementKeyword {w : String} (hk : k.keyword? = some w)
    (h : k.matchAt b cursor i = some m) : ∃ after, statementKeyword b i w = some after := by
  cases k with
  | ambient =>
    obtain rfl := Option.some.inj hk
    obtain ⟨after, hafter, -⟩ := Option.map_eq_some_iff.mp h
    exact ⟨after, (Option.filter_eq_some_iff.mp hafter).1⟩
  | typeAlias =>
    obtain rfl := Option.some.inj hk
    obtain ⟨after, hafter, -⟩ := Option.bind_eq_some_iff.mp h
    exact ⟨after, hafter⟩
  | interface =>
    obtain rfl := Option.some.inj hk
    obtain ⟨after, hafter, -⟩ := Option.map_eq_some_iff.mp h
    exact ⟨after, (Option.filter_eq_some_iff.mp hafter).1⟩
  | _ => simp [Construct.keyword?] at hk

/-- A keyword is one at the start of a statement only. -/
private theorem atStatementStart_of_statementKeyword {w : String} {after : Nat}
    (h : statementKeyword b i w = some after) : atStatementStart b i = true := by
  unfold statementKeyword at h
  have hcond := (Option.ite_none_right_eq_some.mp h).1
  simp only [Bool.and_eq_true] at hcond
  exact hcond.1.1

end Starts

/-- A word starts with a letter. -/
theorem not_keywordAt_of_not_isLetter {b : Bytes} {i : Nat} (h : b.satAt i Byte.isLetter = false)
    {w : String} (hw : (Bytes.ofString w).toList.all Byte.isLetter = true)
    (hpos : 0 < (Bytes.ofString w).size) : keywordAt b i w = false := by
  cases hat : keywordAt b i w with
  | false => rfl
  | true => exact (isLetter_of_keywordAt hat hw hpos).symm.trans h

/-! ### Silent places -/

/-- Nothing starts at offset `i`: no construct is given away there, and there is no marker, at which
an annotation could start that is given away further on. -/
structure SilentAt (b : Bytes) (i : Nat) : Prop where
  matchAt : ∀ (cursor : Nat) (k : Construct), k.matchAt b cursor i = none
  unmarked : b.satAt i (·.among ['?', '!']) = false

/-- The words that start a statement which holds nothing but types. -/
def statementWords : List String :=
  ["export", "declare", "type", "interface"]

private theorem statementWords_parts :
    ∀ w ∈ statementWords, (Bytes.ofString w).toList.all Byte.isNamePart = true := by
  decide

section Silent

variable {b : Bytes} {i j : Nat}

/-- Nothing starts at a sign that is none of the first bytes. -/
theorem silentAt_of_isAt {ch : Char} (h : b.isAt i ch = true)
    (hch : Construct.all.all (fun k => !k.starts (Byte.ofChar ch)) = true)
    (hmark : (Byte.ofChar ch).among ['?', '!'] = false) : SilentAt b i := by
  refine ⟨fun cursor k => matchAt_eq_none_of_starts ?_, (Bytes.satAt_of_isAt h _).trans hmark⟩
  rw [Bytes.satAt_of_isAt h]
  simpa using List.all_eq_true.mp hch k (Construct.mem_all k)

theorem castAt_eq_none (h : keywordAt b (i + 1) "as" = false) : castAt b i = none := by
  rw [castAt, h]
  simp

/-- No statement starts behind something else in the same line. A statement starts behind one of the
bytes that are ruled out here, with nothing but blanks between. -/
theorem not_atStatementStart (hji : j < i)
    (hj : b.satAt j (·.among ['\n', '\r', ';', '{', '}', '/', ' ', '\t']) = false)
    (hblank : ∀ k, j < k → k < i → b.satAt k Byte.isBlank = true) :
    atStatementStart b i = false := by
  have hrun : b.runStart Byte.isBlank i = j + 1 :=
    Bytes.runStart_of_run hji hblank (.inr (Bytes.not_among_of_subset hj rfl))
  have hsign : b.satAt j (·.among ['\n', '\r', ';', '{', '}']) = false :=
    Bytes.not_among_of_subset hj rfl
  have hslash : b.isAt j '/' = false :=
    Bytes.satAt_eq_false_of_imp hj fun _ hc => List.any_eq_true.mpr ⟨'/', by decide, hc⟩
  rw [atStatementStart, hrun]
  simp only [Nat.add_sub_cancel, hsign, not_closesComment hslash, Bool.or_false]
  rfl

/-- A blank starts nothing in front of a sign. -/
theorem silentAt_of_blank (h : b.isAt i ' ' = true)
    (himplements : keywordAt b (i + 1) "implements" = false) (hcast : castAt b i = none) :
    SilentAt b i := by
  refine ⟨fun cursor k => ?_, (Bytes.satAt_of_isAt h _).trans rfl⟩
  have hstarts {k : Construct} (hk : k.starts (Byte.ofChar ' ') = false) :
      k.matchAt b cursor i = none :=
    matchAt_eq_none_of_starts ((Bytes.satAt_of_isAt h _).trans hk)
  -- of all constructs only a clause of a class and a cast can start with a blank
  cases k with
  | classMembers =>
    have habstract : keywordAt b i "abstract" = false :=
      not_keywordAt_of_not_isLetter ((Bytes.satAt_of_isAt h _).trans rfl) rfl (by decide)
    have hbrace : b.isAt i '{' = false := (Bytes.satAt_of_isAt h _).trans rfl
    simp [Construct.matchAt, classMembersAt, abstractAt, classBraceAt, implementsAt, habstract,
      hbrace, himplements]
  | cast => exact hcast
  | _ => exact hstarts rfl

/-- A curly bracket starts nothing, if it does not open the body of a class. -/
theorem silentAt_of_brace (h : b.isAt i '{' = true) (hheader : endsClassHeader b i = false) :
    SilentAt b i := by
  refine ⟨fun cursor k => ?_, (Bytes.satAt_of_isAt h _).trans rfl⟩
  have hstarts {k : Construct} (hk : k.starts (Byte.ofChar '{') = false) :
      k.matchAt b cursor i = none :=
    matchAt_eq_none_of_starts ((Bytes.satAt_of_isAt h _).trans hk)
  -- only the body of a class starts with a curly bracket
  cases k with
  | classMembers =>
    have habstract : keywordAt b i "abstract" = false :=
      not_keywordAt_of_not_isLetter ((Bytes.satAt_of_isAt h _).trans rfl) rfl (by decide)
    have hblank : b.satAt i Byte.isBlank = false := (Bytes.satAt_of_isAt h _).trans rfl
    simp [Construct.matchAt, classMembersAt, abstractAt, classBraceAt, implementsAt, habstract,
      hheader, hblank]
  | _ => exact hstarts rfl

/-- A word that starts within a name is that name. A word does not start in the middle of a name,
and it ends where the name does. -/
theorem Ident.eq_of_keyword {x : Ident} (h : b.Holds i x.bytes)
    (hend : b.satAt (i + x.bytes.size) Byte.isNamePart = false) (hij : i ≤ j)
    (hj : j < i + x.bytes.size) {w : String} (hw : keywordAt b j w = true)
    (hparts : (Bytes.ofString w).toList.all Byte.isNamePart = true) :
    j = i ∧ x.bytes = Bytes.ofString w := by
  rcases Nat.lt_or_eq_of_le hij with hlt | rfl
  · rw [not_keywordAt h hlt hj] at hw
    simp at hw
  · exact ⟨rfl, eq_of_keywordAt h hend hw hparts⟩

/-- No statement starts within a name, unless it is one of these words at the start of a
statement. -/
private theorem Ident.statementKeyword_eq_none {x : Ident} (h : b.Holds i x.bytes)
    (hend : b.satAt (i + x.bytes.size) Byte.isNamePart = false)
    (hstatement : atStatementStart b i = false ∨ x.bytes ∉ statementWords.map Bytes.ofString)
    (hij : i ≤ j) (hj : j < i + x.bytes.size) {w : String} (hw : w ∈ statementWords) :
    statementKeyword b j w = none := by
  rw [Option.eq_none_iff_forall_ne_some]
  intro after hafter
  -- a statement starts with its keyword or with `export`
  have hfirst : ∃ v ∈ statementWords, keywordAt b j v = true := by
    obtain ⟨start, hstart, -, rfl | ⟨hexport, -⟩⟩ := statementKeyword_cases hafter
    · exact ⟨w, hw, hstart⟩
    · exact ⟨"export", by decide, hexport⟩
  obtain ⟨v, hv, hat⟩ := hfirst
  obtain ⟨rfl, hx⟩ := eq_of_keyword h hend hij hj hat (statementWords_parts v hv)
  rcases hstatement with hnot | hnot
  · rw [atStatementStart_of_statementKeyword hafter] at hnot
    simp at hnot
  · exact hnot (List.mem_map.mpr ⟨v, hv, hx.symm⟩)

/-- **Nothing starts within a name**, unless the name is one of the words that start something where
it stands. One case for each kind of construct. Most start with bytes that are no part of a name,
and the others with a word, which would have to be the name. -/
theorem Ident.silentAt {x : Ident} (h : b.Holds i x.bytes)
    (hend : b.satAt (i + x.bytes.size) Byte.isNamePart = false)
    (hstatement : atStatementStart b i = false ∨ x.bytes ∉ statementWords.map Bytes.ofString)
    (habstract : x.bytes ≠ Bytes.ofString "abstract" ∨
      keywordAt b (b.skipBlanks (i + x.bytes.size)) "class" = false)
    (hij : i ≤ j) (hj : j < i + x.bytes.size) : SilentAt b j := by
  have hpart := isNamePart h hij hj
  refine ⟨fun cursor k => ?_, Bytes.satAt_eq_false hpart (Byte.excludes_among rfl)⟩
  have hstarts (hk : Byte.Excludes Byte.isNamePart k.starts) : k.matchAt b cursor j = none :=
    matchAt_eq_none_of_starts (Bytes.satAt_eq_false hpart hk)
  have hkeyword {w : String} (hk : k.keyword? = some w) (hw : w ∈ statementWords) :
      k.matchAt b cursor j = none := by
    rw [Option.eq_none_iff_forall_ne_some]
    intro m hm
    obtain ⟨after, hafter⟩ := exists_statementKeyword hk hm
    rw [statementKeyword_eq_none h hend hstatement hij hj hw] at hafter
    simp at hafter
  cases k with
  | literal kind => exact hstarts (Byte.excludes_opensInert rfl)
  | ambient => exact hkeyword rfl (by decide)
  | typeAlias => exact hkeyword rfl (by decide)
  | interface => exact hkeyword rfl (by decide)
  | classMembers =>
    have hbrace : b.isAt j '{' = false := Bytes.isAt_eq_false hpart rfl
    have hblank : b.satAt j Byte.isBlank = false :=
      Bytes.satAt_eq_false hpart (Byte.excludes_among rfl)
    have hnone : abstractAt b j = none := by
      unfold abstractAt
      refine if_neg fun hcond => ?_
      simp only [Bool.and_eq_true] at hcond
      -- the whole name would be `abstract`
      obtain ⟨rfl, hx⟩ := eq_of_keyword h hend hij hj hcond.1.1 (by decide)
      have hsize : x.bytes.size = 8 := by
        rw [hx]
        rfl
      rw [hsize, hcond.2] at habstract
      exact habstract.elim (fun hne => hne hx) fun hclass => by simp at hclass
    rw [Construct.matchAt, classMembersAt, hnone, classBraceAt, implementsAt, hbrace, hblank]
    rfl
  | typeArguments => exact hstarts (Byte.excludes_among rfl)
  | returnType => exact hstarts (Byte.excludes_among rfl)
  | annotated => exact hstarts (Byte.excludes_among rfl)
  | cast => exact hstarts (Byte.excludes_among rfl)

end Silent

/-! ### Declarations -/

/-- The text starts with the keyword `kw`, a space and the name `x`. -/
structure Declares (b : Bytes) (kw x : Ident) : Prop where
  keyword : b.Holds 0 kw.bytes
  blank : b.isAt kw.bytes.size ' ' = true
  name : b.Holds (kw.bytes.size + 1) x.bytes
  stop : b.satAt (kw.bytes.size + 1 + x.bytes.size) Byte.isNamePart = false

namespace Declares

variable {b : Bytes} {kw x : Ident} {i k : Nat}

theorem apart (h : Declares b kw x) : b.ApartAt (kw.bytes.size + 1) :=
  .inr ((Bytes.satAt_of_isAt h.blank _).trans rfl)

private theorem keyword_stop (h : Declares b kw x) :
    b.satAt (0 + kw.bytes.size) Byte.isNamePart = false := by
  rw [Nat.zero_add, Bytes.satAt_of_isAt h.blank]
  rfl

theorem keywordAt_eq (h : Declares b kw x) {w : String}
    (hw : (Bytes.ofString w).toList.all Byte.isNamePart = true) :
    keywordAt b (kw.bytes.size + 1) w = decide (x.bytes = Bytes.ofString w) :=
  Ident.keywordAt_eq h.name h.apart h.stop hw

/-- Code that ends with the name is the header of a class if the keyword or the name says so. The
search goes backward over the name and over the keyword, and then it is at the start of the text. -/
theorem endsClassHeader_eq (h : Declares b kw x)
    (hlast : lastCode b k = some (kw.bytes.size + 1 + x.bytes.size - 1)) :
    endsClassHeader b k = (decide (x.bytes = Bytes.ofString "class") ||
      decide (kw.bytes = Bytes.ofString "class")) := by
  have hkeyword : lastCode b (kw.bytes.size + 1) = some (0 + kw.bytes.size - 1) := by
    rw [lastCode_of_space (i := kw.bytes.size) (by omega) fun k hk hki => ?_]
    · have hcode := Ident.lastCode_eq h.keyword
      rwa [Nat.zero_add] at hcode ⊢
    · rw [show k = kw.bytes.size by omega, Bytes.satAt_of_isAt h.blank]
      rfl
  rw [Ident.endsClassHeader_eq h.name h.apart hlast,
    Ident.endsClassHeader_eq h.keyword (.inl rfl) hkeyword, not_endsClassHeader_zero, Bool.or_false,
    h.keywordAt_eq rfl, Ident.keywordAt_eq h.keyword (.inl rfl) h.keyword_stop rfl]

/-- **Nothing starts within a declaration of a name**, if the keyword is none of the words that
start something. -/
theorem silentAt (h : Declares b kw x)
    (hkw : kw.bytes ∉ ("abstract" :: statementWords).map Bytes.ofString)
    (himplements : x.bytes ≠ Bytes.ofString "implements") (hcast : castAt b kw.bytes.size = none)
    (habstract : keywordAt b (b.skipBlanks (kw.bytes.size + 1 + x.bytes.size)) "class" = false)
    (hi : i < kw.bytes.size + 1 + x.bytes.size) : SilentAt b i := by
  have hpos := kw.size_pos
  rw [List.map_cons, List.mem_cons, not_or] at hkw
  -- in the keyword, at the space and in the name
  rcases Nat.lt_trichotomy i kw.bytes.size with hlt | rfl | hgt
  · exact Ident.silentAt h.keyword h.keyword_stop (.inr hkw.2) (.inl hkw.1) (Nat.zero_le i)
      (by omega)
  · refine silentAt_of_blank h.blank ?_ hcast
    rw [h.keywordAt_eq rfl, decide_eq_false himplements]
  · -- the keyword stands before the name in the same line
    have hstatement : atStatementStart b (kw.bytes.size + 1) = false := by
      refine not_atStatementStart (j := kw.bytes.size - 1) (by omega) ?_ fun k hk hki => ?_
      · exact Bytes.satAt_eq_false (Ident.isNamePart h.keyword (Nat.zero_le _) (by omega))
          (Byte.excludes_among rfl)
      · rw [show k = kw.bytes.size by omega, Bytes.satAt_of_isAt h.blank]
        rfl
    exact Ident.silentAt h.name h.stop (.inl hstatement) (.inr habstract) hgt hi

end Declares

/-! ### The next construct -/

/-- What starts where a sign stands is given away there too. Only an annotation can start at another
place, which is its marker, and no sign stands there. -/
private theorem Sign.eq_of_start {b : Bytes} {cursor s j : Nat} {q k : Construct} {n : Match}
    (h : Sign b s q) (hat : k.matchAt b cursor j = some n) (hstart : n.start = s) : j = s := by
  by_cases hk : k = .annotated
  · subst hk
    obtain ⟨start, annotated, hcolon, hof, -, rfl, -⟩ := annotationAt_cases hat
    obtain rfl : start = s := hstart
    have hsize := Nat.le_of_lt (Bytes.lt_size_of_isAt (isAt_of_isColon hcolon))
    rcases annotationOf_cases hof hsize with heq | ⟨hmark, -, -⟩
    · exact heq.symm
    · -- no construct is given away at a marker
      have hno : b.satAt start q.starts = false :=
        Bytes.not_satAt_of_among ['?', '!'] hmark (by cases q <;> rfl)
      rw [h.starts] at hno
      simp at hno
  · rw [← start_of_matchAt hk hat, hstart]

/-- **What is found at the cursor is the next construct**, if nothing of higher precedence is found
with it. What else is found starts behind the cursor, or with it and then ranks lower. -/
theorem Rules.nextMatch_of_matchAt {r : Rules} {b : Bytes} {s : Nat} {m : Match}
    (hon : r.enables m.kind = true) (hat : m.kind.matchAt b s s = some m) (hstart : m.start = s)
    (hrank : ∀ k : Construct, k.rank < m.kind.rank → k.matchAt b s s = none) :
    r.nextMatch b s = some m := by
  have hfound : m.kind.detect b s b.size = some m :=
    firstIn_eq_some_iff.mpr
      ⟨s, Nat.le_refl s, lt_size_of_matchAt hat, hat, fun j hj hjs => by omega⟩
  refine Rules.nextMatch_eq_some_iff.mpr ⟨⟨hon, hfound⟩, fun k n hk hn => ?_⟩
  obtain ⟨j, hsj, -, hnat⟩ := exists_of_firstIn_eq_some hn
  by_cases heq : k = m.kind
  · -- of its own kind, `m` is the first
    rw [heq, hfound] at hn
    obtain rfl := Option.some.inj hn
    exact .inr ⟨rfl, Nat.le_refl _⟩
  · -- what is given away behind the cursor does not start before it
    have hle : s ≤ n.start := by
      by_cases hannotated : m.kind = .annotated
      · rw [start_of_matchAt (fun hk => heq (hk.trans hannotated.symm)) hnat]
        exact hsj
      · exact (sign_of_matchAt hat).le_start hannotated hnat hsj
    rcases Nat.lt_or_eq_of_le hle with hlt | hsame
    · exact .inl (hstart ▸ hlt)
    · refine .inr ⟨hstart.trans hsame, ?_⟩
      rw [kind_of_matchAt hnat]
      refine Nat.le_of_not_lt fun hlt => ?_
      -- what starts where `m` starts is given away there, too
      rw [(sign_of_matchAt hat).eq_of_start hnat hsame.symm, hrank k hlt] at hnat
      simp at hnat

/-- Where a sign stands, only the constructs that it can start have to be told apart. -/
theorem matchAt_eq_none_of_rank {b : Bytes} {cursor s : Nat} {ch : Char} {q k : Construct}
    (hch : b.isAt s ch = true)
    (hq : ∀ k ∈ Construct.all, k.rank < q.rank → k.starts (Byte.ofChar ch) = false)
    (hk : k.rank < q.rank) : k.matchAt b cursor s = none :=
  matchAt_eq_none_of_starts ((Bytes.satAt_of_isAt hch _).trans (hq k (Construct.mem_all k) hk))

/-- The cursor can be moved over silent text. -/
private theorem matchAt_of_silent {b : Bytes} {c d i : Nat} (hcd : c ≤ d)
    (hsilent : ∀ j, c ≤ j → j < d → SilentAt b j) (hdi : d ≤ i) (k : Construct) :
    k.matchAt b c i = k.matchAt b d i := by
  cases k with
  | annotated =>
    -- only an annotation asks for the cursor, since it may start before it is given away
    show annotationAt b c i = annotationAt b d i
    unfold annotationAt
    by_cases hcolon : isColon b i = true
    · cases hof : annotationOf b i with
      | none => rfl
      | some found =>
        obtain ⟨start, annotated⟩ := found
        have hsame : c ≤ start ↔ d ≤ start := by
          refine ⟨fun hc => Nat.le_of_not_lt fun hlt => ?_, fun hd => Nat.le_trans hcd hd⟩
          have hsize := Nat.le_of_lt (Bytes.lt_size_of_isAt (isAt_of_isColon hcolon))
          rcases annotationOf_cases hof hsize with rfl | ⟨hmark, -, -⟩
          · omega
          · rw [(hsilent start hc hlt).unmarked] at hmark
            simp at hmark
        simp only [hsame]
    · simp only [hcolon]
      rfl
  | _ => rfl

/-- The cursor can be moved over text in which nothing is given away, if what is given away further
on does not depend on it. Both searches find the same for each kind of construct, and the next one
is the first of these. -/
theorem Rules.nextMatch_of_quiet {r : Rules} {b : Bytes} {c d : Nat} (hcd : c ≤ d)
    (hquiet : ∀ j, c ≤ j → j < d → ∀ k : Construct, k.matchAt b c j = none)
    (hsame : ∀ j, d ≤ j → ∀ k : Construct, k.matchAt b c j = k.matchAt b d j) :
    r.nextMatch b c = r.nextMatch b d := by
  have hdetect (k : Construct) : k.detect b c b.size = k.detect b d b.size := by
    refine Option.ext fun m => ?_
    rw [Construct.detect, Construct.detect, firstIn_eq_some_iff, firstIn_eq_some_iff]
    constructor
    · rintro ⟨i, hi, hlt, hat, hfirst⟩
      -- nothing is found before `d`
      have hdi : d ≤ i := Nat.le_of_not_lt fun hid => by
        rw [hquiet i hi hid] at hat
        simp at hat
      refine ⟨i, hdi, hlt, by rwa [← hsame i hdi], fun j hj hji => ?_⟩
      rw [← hsame j hj]
      exact hfirst j (by omega) hji
    · rintro ⟨i, hi, hlt, hat, hfirst⟩
      refine ⟨i, by omega, hlt, by rwa [hsame i hi], fun j hj hji => ?_⟩
      by_cases hjd : j < d
      · exact hquiet j hj hjd k
      · rw [hsame j (by omega)]
        exact hfirst j (by omega) hji
  refine Option.ext fun m => ?_
  rw [Rules.nextMatch_eq_some_iff, Rules.nextMatch_eq_some_iff]
  simp only [hdetect]

private theorem Rules.nextMatch_of_silent {r : Rules} {b : Bytes} {c d : Nat} (hcd : c ≤ d)
    (hsilent : ∀ j, c ≤ j → j < d → SilentAt b j) : r.nextMatch b c = r.nextMatch b d :=
  Rules.nextMatch_of_quiet hcd (fun j hj hjd => (hsilent j hj hjd).matchAt c)
    fun _ hj => matchAt_of_silent hcd hsilent hj

/-! ### Rounds -/

/-- The run that has written `done` and has `rest` before it goes on to write `out`. -/
def Rules.Writes (r : Rules) (done rest out : Bytes) : Prop :=
  ∃ e, r.grammar.runFrom done rest = .ok e ∧ e.output = out

namespace Rules.Writes

variable {r : Rules} {b done lead part rest out : Bytes} {m : Match} {ps : List Piece}

theorem nil (r : Rules) (done : Bytes) : r.Writes done #[] #[] := by
  refine ⟨⟨[], #[]⟩, Grammar.runFrom_of_next_eq_none ?_, Erasure.output_nil #[]⟩
  refine Rules.nextMatch_eq_none_iff.mpr fun k _ => ?_
  rw [Construct.detect, firstIn, if_neg (by simp)]

/-- Text is copied if the next construct is the same before and behind it. The first round behind
the text is the first round of the whole, with a longer gap. -/
theorem copy_of_nextMatch (hb : b = done ++ (lead ++ rest))
    (hmove : r.nextMatch b done.size = r.nextMatch b (done.size + lead.size))
    (h : r.Writes (done ++ lead) rest out) : r.Writes done (lead ++ rest) (lead ++ out) := by
  obtain ⟨e, he, rfl⟩ := h
  have htext : done ++ lead ++ rest = b := by rw [hb, Array.append_assoc]
  have hsize : (done ++ lead).size = done.size + lead.size := Array.size_append
  have hnext : r.nextMatch b done.size = r.nextMatch b (done ++ lead).size := by
    rw [hsize]
    exact hmove
  rcases r.grammar_lawful.runFrom_cases he with ⟨hnone, rfl⟩ | ⟨m, f, e', hm, hf, he', rfl⟩
  · -- without another construct, all of it is the rest
    refine ⟨⟨[], lead ++ rest⟩, Grammar.runFrom_of_next_eq_none ?_, ?_⟩
    · rw [htext] at hnone
      rw [← hb]
      exact hnext.trans hnone
    · rw [Erasure.output_nil, Erasure.output_nil]
  · -- the first round takes the same construct, with a longer gap before it
    have hle := r.grammar_lawful.le_start hm
    rw [htext] at hm hf
    have hlead : b.slice done.size (done ++ lead).size = lead := by
      rw [hsize, hb]
      exact (Bytes.holds_append.mp (Bytes.holds_append_right done (lead ++ rest))).1.slice
    have hgap : b.slice done.size m.start = lead ++ b.slice (done ++ lead).size m.start := by
      rw [← Bytes.slice_append_slice b (by rw [hsize]; omega) hle, hlead]
    have hdone : Grammar.doneAfter done (lead ++ rest) m f =
        Grammar.doneAfter (done ++ lead) rest m f := by
      rw [Grammar.doneAfter, Grammar.doneAfter, htext, ← hb, hgap]
      simp only [Array.append_assoc]
    have hrest : r.grammar.restAfter done (lead ++ rest) m =
        r.grammar.restAfter (done ++ lead) rest m := by
      rw [Grammar.restAfter, Grammar.restAfter, htext, ← hb]
    rw [← hdone, ← hrest] at he'
    refine ⟨_, r.grammar_lawful.runFrom_round (hb ▸ hnext.trans hm) (hb ▸ hf) he', ?_⟩
    rw [Erasure.output_cons, Erasure.output_cons]
    simp only [Grammar.round, htext, ← hb, hgap, Array.append_assoc]

/-- **Silent text is copied.** The cursor can be moved over it. -/
theorem copy (hb : b = done ++ (lead ++ rest))
    (hsilent : ∀ i, done.size ≤ i → i < done.size + lead.size → SilentAt b i)
    (h : r.Writes (done ++ lead) rest out) : r.Writes done (lead ++ rest) (lead ++ out) :=
  copy_of_nextMatch hb (Rules.nextMatch_of_silent (by omega) hsilent) h

/-- Where nothing starts any more, the rest is copied. -/
theorem of_silent (hb : b = done ++ rest)
    (hsilent : ∀ i, done.size ≤ i → i < done.size + rest.size → SilentAt b i) :
    r.Writes done rest rest := by
  have hcopy : r.Writes done (rest ++ #[]) (rest ++ #[]) :=
    copy (by rw [Array.append_empty, hb]) hsilent (nil r (done ++ rest))
  rwa [Array.append_empty] at hcopy

/-- **One round of a run**: a part of the source is replaced. It starts at the cursor, so that there
is no gap before it. -/
theorem round (hb : b = done ++ (part ++ rest)) (hnext : r.nextMatch b done.size = some m)
    (hstart : m.start = done.size) (hstop : (patchOf b m).stop = done.size + part.size)
    (hsegments : (patchOf b m).segments = ps.map .piece)
    (h : r.Writes (done ++ Piece.outputOf ps) rest out) :
    r.Writes done (part ++ rest) (Piece.outputOf ps ++ out) := by
  obtain ⟨e, he, rfl⟩ := h
  -- there is no gap, so that the round writes its pieces and leaves the rest
  have hgap : b.slice done.size m.start = #[] := by rw [hstart, Bytes.slice_self]
  have hdone : Grammar.doneAfter done (part ++ rest) m ⟨ps, []⟩ = done ++ Piece.outputOf ps := by
    rw [Grammar.doneAfter, ← hb, hgap, Array.append_empty]
  have hrest : r.grammar.restAfter done (part ++ rest) m = rest := by
    have htext : b = done ++ part ++ rest := by rw [hb, Array.append_assoc]
    rw [Grammar.restAfter, ← hb, show r.grammar.patch = patchOf from rfl, hstop,
      ← Array.size_append, htext]
    exact Bytes.slice_append_right _ rest
  have hfilled : Filled (fun t e => r.grammar.run t = .ok e) (patchOf b m).segments ⟨ps, []⟩ := by
    rw [hsegments]
    exact Filled.of_pieces _ ps
  have hrun : r.grammar.runFrom (Grammar.doneAfter done (part ++ rest) m ⟨ps, []⟩)
      (r.grammar.restAfter done (part ++ rest) m) = .ok e := by
    rw [hdone, hrest]
    exact he
  refine ⟨_, r.grammar_lawful.runFrom_round (hb ▸ hnext) (hb ▸ hfilled) hrun, ?_⟩
  rw [Erasure.output_cons]
  simp only [Grammar.round, ← hb, hgap, Array.empty_append]

/-- A round that replaces a part of the source by a comment. -/
theorem erase (hb : b = done ++ (part ++ rest)) (hnext : r.nextMatch b done.size = some m)
    (hstart : m.start = done.size)
    (hpatch : patchOf b m = .erase b done.size (done.size + part.size))
    (h : r.Writes (done ++ part.commentOut) rest out) :
    r.Writes done (part ++ rest) (part.commentOut ++ out) := by
  have hslice : b.slice done.size (done.size + part.size) = part := by
    rw [hb]
    exact (Bytes.holds_append.mp (Bytes.holds_append_right done (part ++ rest))).1.slice
  have houtput : Piece.outputOf [.erased part] = part.commentOut := Array.append_empty
  rw [← houtput] at h ⊢
  refine round hb hnext hstart ?_ ?_ h
  · rw [hpatch, Patch.erase]
  · rw [hpatch, Patch.erase, Segment.erase, hslice]
    rfl

/-- A sign at which nothing can start is copied. -/
theorem sign (ch : Char) (hsize : lead.size = 1) (hat : lead.isAt 0 ch = true)
    (hch : Construct.all.all (fun k => !k.starts (Byte.ofChar ch)) = true)
    (hmark : (Byte.ofChar ch).among ['?', '!'] = false) (h : r.Writes (done ++ lead) rest out) :
    r.Writes done (lead ++ rest) (lead ++ out) := by
  refine copy rfl (fun i hi hlt => ?_) h
  have hlead := (Bytes.holds_append.mp (Bytes.holds_append_right done (lead ++ rest))).1
  rw [show i = done.size by omega]
  exact silentAt_of_isAt (hlead.isAt_head hat) hch hmark

end Rules.Writes

end TypeErasure
