import TypeErasure.Proofs.Stepwise
import TypeErasure.Proofs.TypeText

/-!
# Statements that end by themselves

A `TypeStatement` is a type alias or an ambient declaration with its `;`, or an interface with its
body. Its parts are texts that close what they open (`ClosedText`), so a search that counts brackets
passes over them and comes to the sign that ends the statement.

Main statement: such a statement at the start of a text is taken by the first round and commented
out whole, whatever follows it (`erase_typeStatement`). It is recognised by its keyword
(`Introduces`), which stands at the start or behind `export`, and no construct of higher precedence
starts with that word.
-/

namespace TypeErasure

/-! ### Closed texts -/

/-- A text without slashes that closes what it opens, and that holds none of `signs` outside of its
groups. -/
structure ClosedText (signs : List Char) where
  bytes : Bytes
  noSlash : bytes.toList.all (fun c => !c.is '/') = true
  closed : bytes.closedFrom (fun k => bytes.satAt k (·.among signs)) 0 0 = true

/-- The condition that ends a search holds only where one of `signs` stands. -/
def StopsAmong (b : Bytes) (signs : List Char) (stop : Nat → Bool) : Prop :=
  ∀ k, b.satAt k (·.among signs) = false → stop k = false

section Search

variable {b : Bytes} {signs : List Char} {stop : Nat → Bool} {i : Nat}

/-- **A search passes over a closed text**, if it stops at none but the signs that the text does not
hold. A closed text is a type as far as the search is concerned, and the walk over types is
`Bytes.TypeAt.findStopFrom_eq`. -/
theorem ClosedText.findStopFrom_eq (t : ClosedText signs) (h : b.Holds i t.bytes)
    (hapart : b.isBefore i '=' = false) (hstop : StopsAmong b signs stop) :
    findStopFrom b .type stop 0 i = findStopFrom b .type stop 0 (i + t.bytes.size) := by
  have htype : b.TypeAt i t.bytes := ⟨h, Bytes.not_isAt_of_all t.noSlash, hapart⟩
  refine htype.findStopFrom_eq (k := 0) (fun k hk hbar => ?_) t.closed (Nat.zero_le _)
  exact hstop _ ((h.satAt hk _).trans hbar)

/-- A search goes on at bytes that are none of the signs. -/
theorem StopsAmong.go (hstop : StopsAmong b signs stop) {p : Byte → Bool} (h : b.satAt i p = true)
    (hp : signs.all (fun ch => !p (Byte.ofChar ch)) = true) : stop i = false :=
  hstop i (Bytes.satAt_eq_false h (Byte.excludes_among hp))

/-- A search passes over a name. -/
theorem Ident.findStopFrom_eq (x : Ident) (h : b.Holds i x.bytes) (hstop : StopsAmong b signs stop)
    (hsigns : signs.all (fun ch => !(Byte.ofChar ch).isNamePart) = true) :
    findStopFrom b .type stop 0 i = findStopFrom b .type stop 0 (i + x.bytes.size) := by
  -- the name is passed over byte by byte
  obtain ⟨n, hn⟩ : ∃ n, n = x.bytes.size := ⟨_, rfl⟩
  have hle : n ≤ x.bytes.size := Nat.le_of_eq hn
  rw [← hn]
  clear hn
  induction n with
  | zero => rfl
  | succ n ih =>
    have hpart : b.satAt (i + n) Byte.isNamePart = true := isNamePart h (by omega) (by omega)
    rw [ih (by omega), findStopFrom_of_plain hpart (Byte.excludes_isMark rfl)
      (hstop.go hpart hsigns), Nat.add_assoc]

namespace StopsAmong

theorem mono {chars : List Char} (h : StopsAmong b chars stop)
    (hsub : chars.all signs.contains = true) : StopsAmong b signs stop :=
  fun k hk => h k (Bytes.not_among_of_subset hk hsub)

/-- Two conditions that stop at the same signs make one. -/
theorem or {also : Nat → Bool} (h : StopsAmong b signs stop) (halso : StopsAmong b signs also) :
    StopsAmong b signs (fun k => stop k || also k) := by
  intro k hk
  simp only [h k hk, halso k hk, Bool.or_self]

theorem among (b : Bytes) (signs : List Char) :
    StopsAmong b signs (fun k => b.satAt k (·.among signs)) :=
  fun _ hk => hk

theorem isAt (b : Bytes) (ch : Char) : StopsAmong b [ch] (fun k => b.isAt k ch) :=
  fun _ hk => Bytes.satAt_eq_false_of_imp hk fun _ hc =>
    List.any_eq_true.mpr ⟨ch, List.mem_singleton_self ch, hc⟩

theorem endsLine (b : Bytes) (start : Nat) : StopsAmong b ['\n'] (endsLine b start) := by
  intro k hk
  have hat : b.isAt k '\n' = false := isAt b '\n' k hk
  rw [TypeErasure.endsLine, hat, Bool.false_and]

end StopsAmong

/-- A search from the space in front of a closed text comes to the sign behind it. -/
theorem ClosedText.findStop_eq (t : ClosedText signs) (hblank : b.isAt i ' ' = true)
    (h : b.Holds (i + 1) t.bytes) (hstop : StopsAmong b signs stop)
    (hsigns : signs.all (fun ch => !(Byte.ofChar ch).is ' ') = true)
    (hlt : i + 1 + t.bytes.size < b.size) (hend : stop (i + 1 + t.bytes.size) = true) :
    findStop b .type stop i = i + 1 + t.bytes.size := by
  have hapart : b.isBefore (i + 1) '=' = false := by
    rw [Bytes.isBefore, Nat.add_sub_cancel, Bytes.isAt_eq_satAt, Bytes.satAt_of_isAt hblank]
    rfl
  calc findStop b .type stop i
      = findStopFrom b .type stop 0 (i + 1) :=
        findStopFrom_of_isBlank hblank (hstop.go (p := (·.is ' ')) hblank hsigns)
    _ = findStopFrom b .type stop 0 (i + 1 + t.bytes.size) := t.findStopFrom_eq h hapart hstop
    _ = i + 1 + t.bytes.size := findStopFrom_of_stop hlt hend .type

end Search

/-! ### The keyword -/

/-- The keyword `kw` and a space stand at offset `start`, which is the start of the text or the
place behind `export`. -/
structure Introduces (b : Bytes) (kw : Ident) (start : Nat) : Prop where
  place : start = 0 ∨ start = 7 ∧ b.Holds 0 (Bytes.ofString "export ")
  keyword : b.Holds start kw.bytes
  blank : b.isAt (start + kw.bytes.size) ' ' = true

namespace Introduces

variable {b : Bytes} {kw : Ident} {start : Nat} {w : String}

theorem stop (h : Introduces b kw start) :
    b.satAt (start + kw.bytes.size) Byte.isNamePart = false :=
  (Bytes.satAt_of_isAt h.blank _).trans rfl

/-- The word of a statement that starts with the text is the keyword. Two cases: the keyword is the
first word of the text, or `export` is and the keyword comes behind it. -/
theorem statementKeyword_eq (h : Introduces b kw start) (hkw : kw.bytes ≠ Bytes.ofString "export")
    (hw : (Bytes.ofString w).toList.all Byte.isNamePart = true) :
    statementKeyword b 0 w =
      if kw.bytes = Bytes.ofString w then some (start + kw.bytes.size) else none := by
  have hstart : atStatementStart b 0 = true := rfl
  have hword (hapart : b.ApartAt start) :
      keywordAt b start w = decide (kw.bytes = Bytes.ofString w) :=
    Ident.keywordAt_eq h.keyword hapart h.stop hw
  have hsize : kw.bytes = Bytes.ofString w → (Bytes.ofString w).size = kw.bytes.size :=
    fun heq => heq ▸ rfl
  rcases h.place with rfl | ⟨rfl, hexport⟩
  · -- without `export` the keyword is the first word
    have hplain : keywordAt b 0 "export" = false := by
      rw [Ident.keywordAt_eq h.keyword (.inl rfl) h.stop rfl, decide_eq_false hkw]
    simp only [statementKeyword, hstart, hplain, hword (.inl rfl), Bool.false_eq_true, if_false,
      Bool.not_false, Bool.true_or, Bool.true_and, decide_eq_true_eq]
    split
    · rename_i heq
      rw [hsize heq]
    · rfl
  · -- behind `export` there is a space, and then the keyword
    have hblank : b.isAt 6 ' ' = true := hexport.isAt_of (k := 6) rfl
    have hbehind : b.satAt 6 Byte.isNamePart = false := (Bytes.satAt_of_isAt hblank _).trans rfl
    have hplain : keywordAt b 0 "export" = true := by
      have hholds : b.Holds 0 (Bytes.ofString "export") :=
        (Bytes.holds_append (t := Bytes.ofString " ").mp hexport).1
      rw [keywordAt, hholds.hasAt]
      exact congrArg _ (congrArg _ hbehind)
    have hskip : b.skipBlanks 6 = 7 := by
      refine Bytes.skipWhile_eq (by omega) (fun k hk hlt => ?_) ?_
      · rw [show k = 6 by omega, Bytes.satAt_of_isAt hblank]
        rfl
      · exact Bytes.satAt_eq_false (Ident.isNameStart h.keyword) (Byte.excludes_among rfl)
    have hapart : b.ApartAt 7 := .inr ((Bytes.satAt_of_isAt hblank _).trans rfl)
    simp only [statementKeyword, hstart, hplain, hskip, hword hapart, if_true, Nat.zero_add,
      Bool.not_true, Bool.false_or, Bool.true_and, decide_eq_true_eq, Bool.and_eq_true]
    split
    · rename_i heq
      rw [if_pos heq.2, hsize heq.2]
    · rename_i hne
      rw [if_neg fun heq => hne ⟨by omega, heq⟩]

/-- The name starts behind one space. -/
theorem skipBlanks_eq (h : Introduces b kw start)
    (hname : b.satAt (start + kw.bytes.size + 1) Byte.isNameStart = true) :
    b.skipBlanks (start + kw.bytes.size) = start + kw.bytes.size + 1 := by
  refine Bytes.skipWhile_eq (by omega) (fun k hk hlt => ?_)
    (Bytes.satAt_eq_false hname (Byte.excludes_among rfl))
  rw [show k = start + kw.bytes.size by omega, Bytes.satAt_of_isAt h.blank]
  rfl

/-- A name behind the keyword makes a statement of the keyword. -/
theorem namedStatement_eq (h : Introduces b kw start) (hkw : kw.bytes ≠ Bytes.ofString "export")
    (hw : (Bytes.ofString w).toList.all Byte.isNamePart = true) (heq : kw.bytes = Bytes.ofString w)
    (hname : b.satAt (start + kw.bytes.size + 1) Byte.isNameStart = true) :
    namedStatement b 0 w = some (start + kw.bytes.size) := by
  rw [namedStatement, h.statementKeyword_eq hkw hw, if_pos heq, Option.filter_some_eq_some,
    h.skipBlanks_eq hname, hname]
  simp

/-- The space behind the keyword is passed over. -/
private theorem findStopFrom_blank (h : Introduces b kw start) {signs : List Char}
    {stop : Nat → Bool} (hstop : StopsAmong b signs stop)
    (hsigns : signs.all (fun ch => !(Byte.ofChar ch).is ' ') = true) :
    findStopFrom b .type stop 0 (start + kw.bytes.size) =
      findStopFrom b .type stop 0 (start + kw.bytes.size + 1) :=
  findStopFrom_of_isBlank h.blank (hstop.go (p := (·.is ' ')) h.blank hsigns)

/-- The text starts with a word, be it the keyword or `export`. -/
private theorem isNameStart_zero (h : Introduces b kw start) :
    b.satAt 0 Byte.isNameStart = true := by
  rcases h.place with rfl | ⟨-, hexport⟩
  · exact Ident.isNameStart h.keyword
  · exact hexport.satAt_head rfl

/-- No literal and no statement with another keyword is given away at the start of the text. -/
theorem matchAt_eq_none (h : Introduces b kw start) (hkw : kw.bytes ≠ Bytes.ofString "export")
    {k : Construct} (hk : k.rank < Construct.classMembers.rank)
    (hother : ∀ w, k.keyword? = some w → kw.bytes ≠ Bytes.ofString w) (cursor : Nat) :
    k.matchAt b cursor 0 = none := by
  -- a statement would have the keyword as its own
  have hstatement {w : String} (hword : k.keyword? = some w)
      (hw : (Bytes.ofString w).toList.all Byte.isNamePart = true) :
      k.matchAt b cursor 0 = none := by
    rw [Option.eq_none_iff_forall_ne_some]
    intro m hm
    obtain ⟨after, hafter⟩ := exists_statementKeyword hword hm
    rw [h.statementKeyword_eq hkw hw, if_neg (hother w hword)] at hafter
    simp at hafter
  cases k with
  | literal kind =>
    -- the text starts with a word, which opens no literal
    exact matchAt_eq_none_of_starts
      (Bytes.satAt_eq_false h.isNameStart_zero (Byte.excludes_opensInert rfl))
  | ambient => exact hstatement rfl rfl
  | typeAlias => exact hstatement rfl rfl
  | interface => exact hstatement rfl rfl
  | classMembers =>
    -- the other kinds do not rank before classes
    exact absurd hk (by decide)
  | typeArguments => exact absurd hk (by decide)
  | returnType => exact absurd hk (by decide)
  | annotated => exact absurd hk (by decide)
  | cast => exact absurd hk (by decide)

end Introduces

/-! ### Statements -/

/-- A keyword tells which statement it starts. -/
theorem Construct.eq_of_keyword : ∀ q ∈ all, ∀ k ∈ all, q.keyword?.isSome = true →
    q.keyword?.map Bytes.ofString = k.keyword?.map Bytes.ofString → q = k := by
  decide

theorem Ident.noSlash (x : Ident) : x.bytes.toList.all (fun c => !c.is '/') = true := by
  refine List.all_eq_true.mpr fun c hc => ?_
  have hnone : c.among ['/'] = false :=
    Byte.excludes_among rfl c (List.all_eq_true.mp x.parts c hc)
  simpa [Byte.among] using hnone

/-- **A statement that holds nothing but types and says where it ends.** A heritage clause may start
with a list of type parameters, and what is declared starts with a name. -/
inductive TypeStatement where
  | typeAlias (name : Ident) (type : ClosedText [';', '\n'])
  | interface (name : Ident) (heritage : ClosedText ['{', ';']) (body : ClosedText [])
  | ambient (declared : ClosedText ['{', ';', '\n'])
      (head : declared.bytes.satAt 0 Byte.isNameStart = true)

namespace TypeStatement

/-- The keyword of the statement. -/
def keyword : TypeStatement → Ident
  | typeAlias .. => ⟨Bytes.ofString "type", rfl, rfl⟩
  | interface .. => ⟨Bytes.ofString "interface", rfl, rfl⟩
  | ambient .. => ⟨Bytes.ofString "declare", rfl, rfl⟩

/-- The construct that the statement is. -/
def construct : TypeStatement → Construct
  | typeAlias .. => .typeAlias
  | interface .. => .interface
  | ambient .. => .ambient

/-- The text behind the keyword and a space. -/
def tail : TypeStatement → Bytes
  | typeAlias name type => name.bytes ++
      (Bytes.ofString " = " ++ (type.bytes ++ Bytes.ofString ";"))
  | interface name heritage body => name.bytes ++
      (heritage.bytes ++ (Bytes.ofString "\x7b" ++ (body.bytes ++ Bytes.ofString "\x7d")))
  | ambient declared _ => declared.bytes ++ Bytes.ofString ";"

/-- The text in front of the keyword. -/
def lead (exported : Bool) : Bytes :=
  if exported then Bytes.ofString "export " else #[]

/-- The text of the statement. -/
def text (s : TypeStatement) (exported : Bool) : Bytes :=
  lead exported ++ (s.keyword.bytes ++ (Bytes.ofString " " ++ s.tail))

variable {b : Bytes} {s : TypeStatement} {exported : Bool} {start : Nat}

/-- The statement starts with its keyword, and then its tail follows. -/
private theorem introduces (h : b.Holds 0 (s.text exported)) :
    Introduces b s.keyword (lead exported).size ∧
      b.Holds ((lead exported).size + s.keyword.bytes.size + 1) s.tail := by
  simp only [text, Bytes.holds_append, Nat.zero_add] at h
  obtain ⟨hlead, hkeyword, hblank, htail⟩ := h
  refine ⟨⟨?_, hkeyword, hblank.isAt_head rfl⟩, htail⟩
  cases exported with
  | false => exact .inl rfl
  | true => exact .inr ⟨rfl, hlead⟩

private theorem keyword_ne_export (s : TypeStatement) :
    s.keyword.bytes ≠ Bytes.ofString "export" := by
  cases s with
  | typeAlias => exact (by decide : Bytes.ofString "type" ≠ Bytes.ofString "export")
  | interface => exact (by decide : Bytes.ofString "interface" ≠ Bytes.ofString "export")
  | ambient => exact (by decide : Bytes.ofString "declare" ≠ Bytes.ofString "export")

private theorem keyword?_construct (s : TypeStatement) :
    s.construct.keyword?.map Bytes.ofString = some s.keyword.bytes := by
  cases s <;> rfl

private theorem rank_lt (s : TypeStatement) : s.construct.rank < Construct.classMembers.rank := by
  cases s with
  | typeAlias => exact (by decide : Construct.typeAlias.rank < Construct.classMembers.rank)
  | interface => exact (by decide : Construct.interface.rank < Construct.classMembers.rank)
  | ambient => exact (by decide : Construct.ambient.rank < Construct.classMembers.rank)

/-- Nothing of higher precedence is given away at the start of the text. -/
theorem matchAt_eq_none (h : b.Holds 0 (s.text exported)) {k : Construct}
    (hk : k.rank < s.construct.rank) (cursor : Nat) : k.matchAt b cursor 0 = none := by
  refine (introduces h).1.matchAt_eq_none s.keyword_ne_export (Nat.lt_trans hk s.rank_lt)
    (fun w hw heq => ?_) cursor
  -- a construct with the same keyword would be the same construct
  have hsame : s.construct.keyword?.map Bytes.ofString = k.keyword?.map Bytes.ofString := by
    rw [s.keyword?_construct, hw, heq]
    rfl
  have hsome : s.construct.keyword?.isSome = true := by
    rw [← Option.isSome_map (f := Bytes.ofString), s.keyword?_construct]
    rfl
  rw [Construct.eq_of_keyword _ (Construct.mem_all _) _ (Construct.mem_all _) hsome hsame] at hk
  exact Nat.lt_irrefl _ hk

/-- The statement holds no slash, so that a comment holds it as it is. -/
private theorem text_noSlash (s : TypeStatement) (exported : Bool) :
    (s.text exported).toList.all (fun c => !c.is '/') = true := by
  have hlead : (lead exported).toList.all (fun c => !c.is '/') = true := by
    cases exported <;> rfl
  have htail : s.tail.toList.all (fun c => !c.is '/') = true := by
    cases s with
    | typeAlias name type =>
      simp only [tail, Array.toList_append, List.all_append, name.noSlash, type.noSlash]
      rfl
    | interface name heritage body =>
      simp only [tail, Array.toList_append, List.all_append, name.noSlash, heritage.noSlash,
        body.noSlash]
      rfl
    | ambient declared =>
      simp only [tail, Array.toList_append, List.all_append, declared.noSlash]
      rfl
  simp only [text, Array.toList_append, List.all_append, hlead, s.keyword.noSlash, htail]
  rfl

section Ends

variable {kw name : Ident} {w : String}

/-- An alias is recognised through its `=`, and ends with its `;`. The search for the end starts
behind the `=` and passes over the type, which is closed. -/
private theorem exists_typeAliasAt {type : ClosedText [';', '\n']} (h : Introduces b kw start)
    (hkw : kw.bytes = Bytes.ofString "type")
    (htail : b.Holds (start + kw.bytes.size + 1) (typeAlias name type).tail) :
    ∃ stop, typeAliasAt b 0 = some ⟨.typeAlias, ⟨0, stop⟩⟩ ∧
      typeAliasPatch b ⟨.typeAlias, ⟨0, stop⟩⟩ =
        .erase b 0 (start + kw.bytes.size + 1 + (typeAlias name type).tail.size) := by
  simp only [tail, Bytes.holds_append] at htail
  obtain ⟨hname, hsign, htype, hend⟩ := htail
  generalize hq : start + kw.bytes.size + 1 + name.bytes.size = q at hsign htype hend
  have hblank : b.isAt q ' ' = true := hsign.isAt_head rfl
  have heq : b.isAt (q + 1) '=' = true := hsign.isAt_of rfl
  have hbehind : b.isAt (q + 2) ' ' = true := hsign.isAt_of rfl
  have hsemi : b.isAt (q + 3 + type.bytes.size) ';' = true := hend.isAt_head rfl
  refine ⟨q + 2, ?_, ?_⟩
  · have hstop : nameStop b (start + kw.bytes.size + 1) = q := by
      rw [Ident.nameStop_eq hname, hq]
      rw [hq, Bytes.satAt_of_isAt hblank]
      rfl
    -- one space stands between the name and the sign
    have hskip : b.skipSpace q = q + 1 := by
      refine Bytes.skipWhile_eq (by omega) (fun k hk hlt => ?_) ?_
      · rw [show k = q by omega, Bytes.satAt_of_isAt hblank]
        rfl
      · rw [Bytes.satAt_of_isAt heq]
        rfl
    -- no list of type parameters stands in front of the sign
    have hplain : skipTypeParameters b (q + 1) = some (q + 1) := by
      rw [skipTypeParameters, Bytes.isAt_eq_satAt, Bytes.satAt_of_isAt heq]
      rfl
    have hassign : isAssign b (q + 1) = true := by
      rw [isAssign, isCompoundEq, heq, Bytes.satAt_of_isAt hbehind, Nat.add_sub_cancel,
        Bytes.satAt_of_isAt hblank]
      simp only [Bool.true_and, Bool.not_eq_true', Bool.or_eq_false_iff, Bool.and_eq_false_iff]
      exact ⟨rfl, .inr rfl⟩
    have hpos := name.size_pos
    have hword : statementKeyword b 0 "type" = some (start + kw.bytes.size) := by
      rw [h.statementKeyword_eq (by rw [hkw]; decide) rfl, if_pos hkw]
    rw [typeAliasAt, hword]
    simp only [Option.bind_eq_bind, Option.bind_some, h.skipBlanks_eq (Ident.isNameStart hname),
      hstop, hskip, hplain, hassign, if_true]
    rw [if_pos]
    simp only [Bool.and_eq_true, decide_eq_true_eq]
    omega
  · -- the search for the end starts behind the sign
    have hamong : StopsAmong b [';', '\n'] (fun i => b.isAt i ';' || endsLine b (q + 2) i) :=
      .or ((StopsAmong.isAt b ';').mono rfl) ((StopsAmong.endsLine b (q + 2)).mono rfl)
    have hstop : findStop b .type (fun i => b.isAt i ';' || endsLine b (q + 2) i) (q + 2) =
        q + 3 + type.bytes.size :=
      type.findStop_eq hbehind htype hamong rfl (Bytes.lt_size_of_isAt hsemi) (by simp [hsemi])
    have hsize : q + 3 + type.bytes.size + 1 =
        start + kw.bytes.size + 1 + (typeAlias name type).tail.size := by
      have hsign : (Bytes.ofString " = ").size = 3 := rfl
      have hsemi : (Bytes.ofString ";").size = 1 := rfl
      simp only [tail, Array.size_append, hsign, hsemi]
      omega
    simp only [typeAliasPatch, Match.start, Match.stop, hstop, statementStop, if_pos hsemi, hsize]

/-- An ambient declaration ends with its `;`. -/
theorem ambientPatch_eq {declared : ClosedText ['{', ';', '\n']}
    (head : declared.bytes.satAt 0 Byte.isNameStart = true) (h : Introduces b kw start)
    (htail : b.Holds (start + kw.bytes.size + 1) (ambient declared head).tail) :
    ambientPatch b ⟨.ambient, ⟨0, start + kw.bytes.size⟩⟩ =
      .erase b 0 (start + kw.bytes.size + 1 + (ambient declared head).tail.size) := by
  obtain ⟨hdeclared, hend⟩ := Bytes.holds_append.mp htail
  generalize hq : start + kw.bytes.size = q at *
  have hblank : b.isAt q ' ' = true := hq ▸ h.blank
  have hsemi : b.isAt (q + 1 + declared.bytes.size) ';' = true := hend.isAt_head rfl
  have hamong : StopsAmong b ['{', ';', '\n']
      (fun i => b.satAt i (·.among [';', '{']) || endsLine b q i) :=
    .or ((StopsAmong.among b [';', '{']).mono rfl) ((StopsAmong.endsLine b q).mono rfl)
  have hstop : findStop b .type (fun i => b.satAt i (·.among [';', '{']) || endsLine b q i) q =
      q + 1 + declared.bytes.size := by
    refine declared.findStop_eq hblank hdeclared hamong rfl (Bytes.lt_size_of_isAt hsemi) ?_
    rw [Bytes.satAt_of_isAt hsemi, Bool.or_eq_true]
    exact .inl rfl
  -- the search has not come to a body
  have hbody : b.isAt (q + 1 + declared.bytes.size) '{' = false := by
    rw [Bytes.isAt_eq_satAt, Bytes.satAt_of_isAt hsemi]
    rfl
  have hsize : q + 1 + declared.bytes.size + 1 = q + 1 + (ambient declared head).tail.size := by
    rw [tail, Array.size_append, ← Nat.add_assoc]
    rfl
  simp only [ambientPatch, declarationPatch, Match.start, Match.stop, hstop, hbody, statementStop,
    if_pos hsemi, hsize, Bool.false_eq_true, if_false]

/-- An interface ends with its body. Two searches: over the name and the heritage to the bracket,
and from there over the body. -/
theorem interfacePatch_eq {heritage : ClosedText ['{', ';']} {body : ClosedText []}
    (h : Introduces b kw start)
    (htail : b.Holds (start + kw.bytes.size + 1) (interface name heritage body).tail) :
    interfacePatch b ⟨.interface, ⟨0, start + kw.bytes.size⟩⟩ =
      .erase b 0 (start + kw.bytes.size + 1 + (interface name heritage body).tail.size) := by
  simp only [tail, Bytes.holds_append] at htail
  obtain ⟨hname, hheritage, hopen, hbody, hclose⟩ := htail
  generalize hq : start + kw.bytes.size + 1 + name.bytes.size = q at hheritage hopen hbody hclose
  have hbrace : b.isAt (q + heritage.bytes.size) '{' = true := hopen.isAt_head rfl
  have hend : b.isAt (q + heritage.bytes.size + 1 + body.bytes.size) '}' = true :=
    hclose.isAt_head rfl
  have hstop : findStop b .type (fun i => b.satAt i (·.among ['{', ';']))
      (start + kw.bytes.size) = q + heritage.bytes.size := by
    have hamong := StopsAmong.among b ['{', ';']
    -- the byte before the heritage is the last of the name
    have hapart : b.isBefore q '=' = false := by
      have hpos := name.size_pos
      have hlast : b.satAt (q - 1) Byte.isNamePart = true :=
        Ident.isNamePart hname (by omega) (by omega)
      rw [Bytes.isBefore, Bytes.isAt_eq_false hlast rfl, Bool.and_false]
    rw [findStop, h.findStopFrom_blank hamong rfl, name.findStopFrom_eq hname hamong rfl, hq,
      heritage.findStopFrom_eq hheritage hapart hamong]
    refine findStopFrom_of_stop (Bytes.lt_size_of_isAt hbrace) ?_ .type
    rw [Bytes.satAt_of_isAt hbrace]
    rfl
  have hfind : findClose b .type (q + heritage.bytes.size + 1) =
      q + heritage.bytes.size + 1 + body.bytes.size := by
    have hapart : b.isBefore (q + heritage.bytes.size + 1) '=' = false := by
      rw [Bytes.isBefore, Nat.add_sub_cancel, Bytes.isAt_eq_satAt, Bytes.satAt_of_isAt hbrace]
      rfl
    refine (body.findStopFrom_eq hbody hapart fun _ _ => rfl).trans (findStopFrom_of_isCloser ?_)
    exact (Bytes.satAt_of_isAt hend _).trans rfl
  have hsize : q + heritage.bytes.size + 1 + body.bytes.size + 1 =
      start + kw.bytes.size + 1 + (interface name heritage body).tail.size := by
    have hopen : (Bytes.ofString "\x7b").size = 1 := rfl
    have hclose : (Bytes.ofString "\x7d").size = 1 := rfl
    simp only [tail, Array.size_append, hopen, hclose]
    omega
  simp only [interfacePatch, declarationPatch, Match.start, Match.stop, hstop, if_pos hbrace, hfind,
    if_pos (Bytes.lt_size_of_isAt hend), hsize]

end Ends

/-- **The statement is given away at the start of the text**, and its patch takes it whole. One case
for each kind of statement. -/
theorem exists_matchAt (h : b.Holds 0 (s.text exported)) :
    ∃ m, m.kind = s.construct ∧ m.start = 0 ∧ s.construct.matchAt b 0 0 = some m ∧
      patchOf b m = .erase b 0 (s.text exported).size := by
  obtain ⟨hword, htail⟩ := introduces h
  have hsize : (s.text exported).size =
      (lead exported).size + s.keyword.bytes.size + 1 + s.tail.size := by
    have hblank : (Bytes.ofString " ").size = 1 := rfl
    simp only [text, Array.size_append, hblank]
    omega
  rw [hsize]
  cases s with
  | typeAlias name type =>
    obtain ⟨stop, hat, hpatch⟩ := exists_typeAliasAt hword rfl htail
    exact ⟨_, rfl, rfl, hat, hpatch⟩
  | interface name heritage body =>
    have hname := Ident.isNameStart (Bytes.holds_append.mp htail).1
    have hat := hword.namedStatement_eq (keyword_ne_export _) rfl rfl hname
    exact ⟨_, rfl, rfl, congrArg (Option.map _) hat, interfacePatch_eq hword htail⟩
  | ambient declared head =>
    have hname := (Bytes.holds_append.mp htail).1.satAt_head head
    have hat := hword.namedStatement_eq (keyword_ne_export _) rfl rfl hname
    exact ⟨_, rfl, rfl, congrArg (Option.map _) hat, ambientPatch_eq head hword htail⟩

end TypeStatement

/-- A run starts with the construct at the start of the text, and comments it out. The rest of the
run comes from the state that this round leads to, and it does not fail. -/
private theorem Rules.exists_firstRound {r : Rules} {part rest : Bytes} {m : Match}
    (hnext : r.nextMatch (part ++ rest) 0 = some m) (hstart : m.start = 0)
    (hpatch : patchOf (part ++ rest) m = .erase (part ++ rest) 0 part.size) :
    ∃ e : Erasure, erase r (part ++ rest) =
      .ok ⟨⟨#[], m, part.size, part, [.erased part], []⟩ :: e.rounds, e.rest⟩ := by
  have hslice : (part ++ rest).slice 0 part.size = part := by
    have hpart := (Bytes.holds_append.mp (Bytes.holds_zero (part ++ rest))).1.slice
    rwa [Nat.zero_add] at hpart
  have hsegments : (patchOf (part ++ rest) m).segments = [.piece (.erased part)] := by
    rw [hpatch, Patch.erase, Segment.erase, hslice]
  have hfilled : Filled (fun t e => r.grammar.run t = .ok e)
      (patchOf (#[] ++ (part ++ rest)) m).segments ⟨[.erased part], []⟩ := by
    rw [Array.empty_append, hsegments]
    exact Filled.of_pieces _ [.erased part]
  -- the gap of the round is empty, and so are its inner erasures
  have hround : r.grammar.round #[] (part ++ rest) m ⟨[.erased part], []⟩ =
      ⟨#[], m, part.size, part, [.erased part], []⟩ := by
    simp only [Grammar.round, Array.empty_append, show r.grammar.patch = patchOf from rfl, hpatch,
      Patch.erase, hstart, hslice, List.append_nil, Array.size_empty, Bytes.slice_self]
  obtain ⟨e, he, -⟩ := r.grammar_lawful.exists_runFrom
    (Grammar.doneAfter #[] (part ++ rest) m ⟨[.erased part], []⟩)
    (r.grammar.restAfter #[] (part ++ rest) m)
  have hrun := r.grammar_lawful.runFrom_round (by rwa [Array.empty_append]) hfilled he
  rw [hround] at hrun
  exact ⟨e, hrun⟩

/-- **A statement that ends by itself is commented out whole, whatever follows it.** The first round
takes it from the start of the text to its end, and writes a comment that holds it as it is. -/
theorem erase_typeStatement (s : TypeStatement) (exported : Bool) (rest : Bytes) :
    let text := s.text exported
    ∃ e round rounds, erase {} (text ++ rest) = .ok e ∧ e.rounds = round :: rounds ∧
      round.gap = #[] ∧ round.replaced = text ∧
      round.event = .erased s.construct ⟨0, text.size⟩ text.commentOut ∧
      text.commentOut = Bytes.ofString "/*" ++ text ++ Bytes.ofString "*/" ∧
      ∃ out, e.output = text.commentOut ++ out := by
  intro text
  have hholds : (text ++ rest).Holds 0 text := (Bytes.holds_append.mp (Bytes.holds_zero _)).1
  obtain ⟨m, hkind, hstart, hat, hpatch⟩ := TypeStatement.exists_matchAt hholds
  have hnext : Rules.nextMatch {} (text ++ rest) 0 = some m := by
    refine Rules.nextMatch_of_matchAt ?_ (hkind ▸ hat) hstart fun k hk => ?_
    · rw [hkind]
      cases s <;> rfl
    · exact TypeStatement.matchAt_eq_none hholds (hkind ▸ hk) 0
  obtain ⟨e, hrun⟩ := Rules.exists_firstRound hnext hstart hpatch
  have hcomment : Piece.outputOf [.erased text] = text.commentOut := Array.append_empty
  refine ⟨_, _, _, hrun, rfl, rfl, rfl, ?_, ?_, ?_⟩
  · -- a comment is longer than what it holds, so the round is no copy
    have hne : text.commentOut ≠ text := fun h =>
      Nat.ne_of_gt (Bytes.size_lt_commentOut text) (congrArg Array.size h)
    simp only [Round.event, Round.replacement, hcomment, if_neg hne, hkind, hstart]
  · exact Bytes.commentOut_of_noSlash (Bytes.not_isAt_of_all (s.text_noSlash exported))
  · exact ⟨e.output, by simp only [Erasure.output_cons, hcomment, Array.empty_append]⟩

/-- An interface whose body holds brackets of its own and a brace in a string, with an unclosed
template behind it. -/
theorem erase_typeStatement_interface :
    ∃ (s : TypeStatement) (rest : Bytes),
      s.text true ++ rest = Bytes.ofString
      "export interface A<T> extends B<\x7b\x7d> \x7b f(): '\x7d'; g: \x7b; \x7d \x7d= \x60$\x7b)" ∧
      ∃ e round rounds, erase {} (s.text true ++ rest) = .ok e ∧ e.rounds = round :: rounds ∧
        round.gap = #[] ∧ round.replaced = s.text true ∧
        round.event = .erased s.construct ⟨0, (s.text true).size⟩ (s.text true).commentOut ∧
        (s.text true).commentOut = Bytes.ofString "/*" ++ s.text true ++ Bytes.ofString "*/" ∧
        ∃ out, e.output = (s.text true).commentOut ++ out := by
  let s : TypeStatement := .interface
    ⟨Bytes.ofString "A", by decide, by decide⟩
    ⟨Bytes.ofString "<T> extends B<\x7b\x7d> ", by decide, by decide +kernel⟩
    ⟨Bytes.ofString " f(): '\x7d'; g: \x7b; \x7d ", by decide, by decide +kernel⟩
  exact ⟨s, Bytes.ofString "= \x60$\x7b)", by decide +kernel, erase_typeStatement s true _⟩

end TypeErasure
