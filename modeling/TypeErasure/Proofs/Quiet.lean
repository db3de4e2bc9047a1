import TypeErasure.Proofs.Fork
import TypeErasure.Proofs.Precedence

/-!
# Text without constructs

`Rules.Quiet r b cursor s` says that under the rules `r` no construct is given away from the cursor
up to offset `s`. If a literal starts at `s`, it is then the next construct, since literals come
first among the constructs that start at one place (`Rules.Quiet.nextMatch`).

Two kinds of text are quiet in the output of a run under rules that only look back: the text before
a comment that the run wrote, since the source was quiet there (`Forks.quiet`), and the text between
two items of a list (`ItemText.quiet`).
-/

namespace TypeErasure

/-- **No construct is given away from the cursor up to offset `s`.** -/
def Rules.Quiet (r : Rules) (b : Bytes) (cursor s : Nat) : Prop :=
  ∀ k, r.enables k = true → ∀ i, cursor ≤ i → i < s → k.matchAt b cursor i = none

namespace Rules.Quiet

variable {r : Rules} {b : Bytes} {cursor s : Nat}

/-- **Behind quiet text, a literal is the next construct.** No other construct starts before it, and
those that start with it rank behind it. -/
theorem nextMatch (h : r.Quiet b cursor s) (hs : cursor ≤ s) {l : Literal}
    (hl : literalAt b s = some l) : r.nextMatch b cursor = some ⟨.literal l.kind, l.span⟩ := by
  have hat : (Construct.literal l.kind).matchAt b cursor s = some ⟨.literal l.kind, l.span⟩ := by
    simp [Construct.matchAt, hl]
  have hsize := Nat.lt_of_lt_of_le (lt_stop_of_literalAt hl) (stop_le_of_literalAt hl)
  have hfound : (Construct.literal l.kind).detect b cursor b.size =
      some ⟨.literal l.kind, l.span⟩ :=
    firstIn_eq_some_iff.mpr ⟨s, hs, hsize, hat, h _ rfl⟩
  refine Rules.nextMatch_eq_some_iff.mpr ⟨⟨rfl, hfound⟩, fun k n hon hn => ?_⟩
  obtain ⟨j, hj, -, hnat⟩ := exists_of_firstIn_eq_some hn
  -- nothing is given away before `s`
  have hsj : s ≤ j := by
    apply Nat.le_of_not_lt
    intro hlt
    rw [h k hon j hj hlt] at hnat
    simp at hnat
  have hle : s ≤ n.start := (sign_of_matchAt hat).le_start (by simp) hnat hsj
  have hstart : (Match.mk (.literal l.kind) l.span).start = s := start_of_literalAt hl
  unfold Match.Precedes
  rw [hstart, kind_of_matchAt hnat]
  -- a construct that starts later comes later, and a literal comes first where it starts
  rcases Nat.lt_or_eq_of_le hle with hlt | heq
  · exact .inl hlt
  · refine .inr ⟨heq, ?_⟩
    cases k with
    | literal kind =>
      -- one literal starts at one place
      obtain ⟨l', hl', rfl, rfl⟩ := matchAt_literal hnat
      rw [start_of_matchAt (by simp) hnat] at heq
      rw [← heq, hl] at hl'
      obtain rfl := Option.some.inj hl'
      exact Nat.le_refl _
    | _ => exact Nat.le_of_lt (Construct.rank_literal_lt rfl)

/-- If all of the text is quiet, there is no next construct. -/
theorem nextMatch_eq_none (h : r.Quiet b cursor b.size) : r.nextMatch b cursor = none := by
  refine Rules.nextMatch_eq_none_iff.mpr fun k hk => ?_
  rw [Option.eq_none_iff_forall_ne_some]
  intro m hm
  obtain ⟨i, hi, hlt, hat⟩ := exists_of_firstIn_eq_some hm
  rw [h k hk i hi hlt] at hat
  simp at hat

end Rules.Quiet

/-! ### Rules that look back -/

/-- **The rules look back only**: return types and class members, which look ahead for a body, stay
as they are. -/
structure Rules.LooksBack (r : Rules) : Prop where
  returnTypes : r.returnTypes = false
  classMembers : r.classMembers = false

/-- What such rules enable is no return type and no part of a class. -/
theorem Rules.LooksBack.ne {r : Rules} (h : r.LooksBack) {k : Construct}
    (hk : r.enables k = true) : k ≠ .returnType ∧ k ≠ .classMembers := by
  constructor
  · rintro rfl
    exact Bool.false_ne_true (h.returnTypes.symm.trans hk)
  · rintro rfl
    exact Bool.false_ne_true (h.classMembers.symm.trans hk)

/-- Where no literal starts, no kind of literal is given away. -/
theorem matchAt_literal_eq_none {b : Bytes} {cursor i : Nat} {kind : LiteralKind}
    (h : literalAt b i = none) : (Construct.literal kind).matchAt b cursor i = none := by
  rw [Construct.matchAt, h, Option.filter_none, Option.map_none]

/-- **Before the fork the output is as quiet as the source.** Whatever the output gives away there,
the source does as well (`Forks.matchAt`), and the source gives nothing away before its next
construct. -/
theorem Forks.quiet {t o : Bytes} {c n : Nat} (h : Forks t o c n) (hclean : Clean t c)
    {r : Rules} (hr : r.LooksBack) {m : Match} (hnext : r.nextMatch t c = some m)
    (hle : m.start ≤ n) : r.Quiet o c m.start := by
  intro k hk i hci hi
  have hbest := r.nextMatch_best t c
  rw [hnext] at hbest
  -- the source gives nothing away before its next construct
  have hfirst := hbest.first k (Construct.mem_all k) hk i hci hi
  have hliteral {j : Nat} (hcj : c ≤ j) (hj : j ≤ i) : literalAt t j = none :=
    Rules.literalAt_eq_none_of_nextMatch hnext hcj (Nat.lt_of_le_of_lt hj hi)
  -- no literal starts before `i`, so a scan of the source steps through it byte by byte
  have hscan : Scans t c i := by
    have := Bytes.lt_size_of_satAt h.starts.first
    exact scans_of_forall hci (by omega) fun j hcj hj =>
      inertStop_of_literalAt_eq_none (hliteral hcj (Nat.le_of_lt hj))
  have hin : i < n := Nat.lt_of_lt_of_le hi hle
  cases hkind : k.literalKind? with
  | some kind =>
    obtain rfl := Construct.eq_literal hkind
    exact matchAt_literal_eq_none
      (h.literalAt_eq_none hclean hin hscan (hliteral hci (Nat.le_refl i)))
  | none =>
    -- what the output gives away is given away by the source, which is quiet
    rw [Option.eq_none_iff_forall_ne_some]
    intro m' hm'
    have hsome : (k.matchAt t c i).isSome = true :=
      h.matchAt hclean hin hscan hkind (hr.ne hk).1 (hr.ne hk).2
        (Option.isSome_iff_exists.mpr ⟨m', hm'⟩)
    rw [hfirst] at hsome
    simp at hsome

/-! ### The text between two items -/

namespace ItemText

variable {b : Bytes} {i j c : Nat}

/-- **A keyword between two items is the name of the second one**: only blanks follow it, and then
the annotation or the comment that was written for it. The text is made of separators, a name and
blanks, and a word of letters fits into the name only. -/
theorem keyword (h : ItemText b c j) (hsign : b.satAt j (·.among ['/', '?', '!', ':']) = true)
    (hi : c ≤ i) (hj : i ≤ j)
    {w : String} (hat : keywordAt b i w = true)
    (hw : (Bytes.ofString w).toList.all Byte.isLetter = true)
    (hpos : 0 < (Bytes.ofString w).size) :
    i + (Bytes.ofString w).size ≤ j ∧
      ∀ k, i + (Bytes.ofString w).size ≤ k → k < j → b.satAt k Byte.isBlank = true := by
  obtain ⟨name, stop, -, -, hstop, hlead, hname, hblank⟩ := h
  -- no other byte stands in the word
  have hletter {k : Nat} {chars : List Char} (hik : i ≤ k)
      (hk : k < i + (Bytes.ofString w).size) (hat' : b.satAt k (·.among chars) = true)
      (hchars : chars.all (fun ch => !(Byte.ofChar ch).isLetter) = true) : False := by
    have hletter := Bytes.satAt_of_hasAt (hasAt_of_keywordAt hat) (k := k - i) (by omega) hw
    rw [Nat.add_sub_cancel' hik] at hletter
    rw [Bytes.satAt_eq_false hletter (Byte.excludes_among hchars)] at hat'
    simp at hat'
  have hend : i + (Bytes.ofString w).size ≤ j :=
    Nat.le_of_not_lt fun hlt => hletter hj hlt hsign rfl
  -- a word starts with no separator, so it starts in the name
  have hin : name ≤ i := Nat.le_of_not_lt fun hlt =>
    hletter (Nat.le_refl i) (by omega) (hlead i hi hlt) rfl
  have hle : i + (Bytes.ofString w).size ≤ stop := Nat.le_of_not_lt fun hlt =>
    hletter (k := i + (Bytes.ofString w).size - 1) (by omega) (by omega)
      (hblank _ (by omega) (by omega)) rfl
  -- where the word ends, the name does
  have heq : i + (Bytes.ofString w).size = stop := by
    refine Nat.le_antisymm hle (Nat.le_of_not_lt fun hlt => ?_)
    have hafter := hname _ (by omega) hlt
    rw [keywordAt, Bool.and_eq_true] at hat
    simp [hafter] at hat
  rw [heq]
  exact ⟨hstop, hblank⟩

/-- Behind such a keyword and its blanks comes the sign at the end. -/
private theorem skipBlanks_keyword (h : ItemText b c j)
    (hsign : b.satAt j (·.among ['/', '?', '!', ':']) = true) (hi : c ≤ i) (hj : i ≤ j) {w : String}
    (hat : keywordAt b i w = true) (hw : (Bytes.ofString w).toList.all Byte.isLetter = true)
    (hpos : 0 < (Bytes.ofString w).size) : b.skipBlanks (i + (Bytes.ofString w).size) = j := by
  obtain ⟨hend, hblank⟩ := h.keyword hsign hi hj hat hw hpos
  exact Bytes.skipWhile_eq hend hblank (Bytes.not_satAt_of_among _ hsign rfl)

/-- No statement that holds nothing but types starts between two items: where its name would have to
start, there is a sign. -/
theorem not_statement (h : ItemText b c j) (hsign : b.satAt j (·.among ['/', '?', '!', ':']) = true)
    (hi : c ≤ i) (hj : i < j) {w : String} {after : Nat}
    (hw : (Bytes.ofString w).toList.all Byte.isLetter = true)
    (hpos : 0 < (Bytes.ofString w).size) (hat : statementKeyword b i w = some after)
    (hname : b.satAt (b.skipBlanks after) Byte.isNameStart = true) : False := by
  -- at `j` there is a sign, which is no part of a name
  have hend {k : Nat} {p : Byte → Bool} (hk : k = j)
      (hp : ['/', '?', '!', ':'].all (fun ch => !p (Byte.ofChar ch)) = true)
      (hat : b.satAt k p = true) : False := by
    rw [hk, Bytes.not_satAt_of_among _ hsign hp] at hat
    simp at hat
  -- without `export` and with it
  obtain ⟨start, hword, rfl, rfl | ⟨hexport, rfl⟩⟩ := statementKeyword_cases hat
  · exact hend (h.skipBlanks_keyword hsign hi (Nat.le_of_lt hj) hword hw hpos) rfl hname
  · exact hend (h.skipBlanks_keyword hsign hi (Nat.le_of_lt hj) hexport rfl (by decide)) rfl
      (isLetter_of_keywordAt hword hw hpos)

/-- No cast starts there: where its type would have to start, there is a sign. -/
private theorem not_castAt (h : ItemText b c j)
    (hsign : b.satAt j (·.among ['/', '?', '!', ':']) = true)
    (hi : c ≤ i) (hj : i < j) {m : Match} : castAt b i ≠ some m := by
  intro hat
  have hcond := (Option.ite_none_right_eq_some.mp hat).1
  simp only [Bool.and_eq_true] at hcond
  obtain ⟨⟨⟨⟨⟨-, hword⟩, -⟩, htype⟩, -⟩, -⟩ := hcond
  obtain ⟨hend, hblank⟩ := h.keyword hsign (Nat.le_succ_of_le hi) hj hword rfl (by decide)
  -- where the type would have to start, there is a sign
  have hspace : b.skipSpace (i + 3) = j :=
    Bytes.skipWhile_eq hend (fun k hk hkj => Bytes.satAt_of_among _ (hblank k hk hkj) rfl)
      (Bytes.not_satAt_of_among _ hsign rfl)
  rw [hspace, Bytes.not_satAt_of_among _ hsign rfl] at htype
  exact Bool.false_ne_true htype

/-- **Nothing is given away between two items**, if it is no part of a class. One case for each kind
of construct: those with a keyword would have to go on where the sign stands, and the others start
with bytes that are not there. -/
theorem matchAt_eq_none (h : ItemText b c j)
    (hsign : b.satAt j (·.among ['/', '?', '!', ':']) = true) (hi : c ≤ i) (hj : i < j)
    {k : Construct} (hk : k ≠ .classMembers) (cursor : Nat) :
    k.matchAt b cursor i = none := by
  have hbyte := h.satAt hi hj
  -- the bytes between two items are separators and bytes of names
  have hno {ch : Char} (hat : b.isAt i ch = true)
      (hch : ((Byte.ofChar ch).isSeparator || (Byte.ofChar ch).isNamePart) = false) : False := by
    rw [Bytes.isAt_eq_false hbyte hch] at hat
    simp at hat
  rw [Option.eq_none_iff_forall_ne_some]
  intro m hm
  cases k with
  | literal kind =>
    rw [matchAt_literal_eq_none (literalAt_eq_none_of_not_opensInert
      (Bytes.satAt_eq_false hbyte (Byte.excludes_opensInert rfl)))] at hm
    simp at hm
  | ambient =>
    obtain ⟨after, hafter, -⟩ := Option.map_eq_some_iff.mp hm
    obtain ⟨hkeyword, hname⟩ := Option.filter_eq_some_iff.mp hafter
    exact h.not_statement hsign hi hj rfl (by decide) hkeyword (Bool.and_eq_true_iff.mp hname).2
  | typeAlias =>
    obtain ⟨after, hkeyword, -, hname, -⟩ :=
      typeAliasAt_isSome_iff.mp (Option.isSome_iff_exists.mpr ⟨m, hm⟩)
    exact h.not_statement hsign hi hj rfl (by decide) hkeyword (nameStop_of_lt hname).1
  | interface =>
    obtain ⟨after, hafter, -⟩ := Option.map_eq_some_iff.mp hm
    obtain ⟨hkeyword, hname⟩ := Option.filter_eq_some_iff.mp hafter
    exact h.not_statement hsign hi hj rfl (by decide) hkeyword (Bool.and_eq_true_iff.mp hname).2
  | classMembers => exact hk rfl
  | typeArguments =>
    have hcond := (Option.ite_none_right_eq_some.mp hm).1
    simp only [Bool.and_eq_true] at hcond
    exact hno hcond.1.1.2 rfl
  | returnType =>
    have hcond := (Option.ite_none_right_eq_some.mp hm).1
    simp only [Bool.and_eq_true] at hcond
    exact hno hcond.1.1 rfl
  | annotated =>
    obtain ⟨-, -, hcolon, -⟩ := annotationAt_cases hm
    exact hno (isAt_of_isColon hcolon) rfl
  | cast => exact h.not_castAt hsign hi hj hm

/-- For rules that look back, the text between two items is quiet. -/
theorem quiet (h : ItemText b c j) (hslash : b.isAt j '/' = true) {r : Rules}
    (hr : r.LooksBack) : r.Quiet b c j :=
  fun _ hk _ hi hj =>
    h.matchAt_eq_none (Bytes.satAt_of_isAt hslash _) hi hj (hr.ne hk).2 c

end ItemText

end TypeErasure
