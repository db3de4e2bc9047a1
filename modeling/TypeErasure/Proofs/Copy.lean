import TypeErasure.Proofs.Quiet
import TypeErasure.Proofs.Token

/-!
# Runs that copy their text

A run searches for each kind of literal on its own, with limits that shrink, while the lexer tries
one offset after the other. Both come to the same literals, because both go on with the first
literal behind the last one (`literalTokens_cases`), as long as the run finds nothing else before
it.

`Rules.Plain r b c` says that under the rules `r` the code from offset `c` on, which is all that
lies outside of literals, gives no type syntax away. Then the run copies its text and reports the
literals among the tokens, one by one (`Rules.Plain.of_runFrom`). If all rules are switched off,
every text is plain; a text without type syntax outside of its literals is plain under all rules.

Main statements: `erase_off` and `erase_untyped`.
-/

namespace TypeErasure

/-! ### Literals and what is reported about them -/

/-- The kind and the range of a token that is a literal. -/
def Token.literal? (t : Token) : Option (LiteralKind × Span) :=
  match t.kind with
  | .literal kind => some (kind, t.span)
  | _ => none

/-- The kinds and ranges of the literals among the tokens from offset `i` on. -/
def literalsFrom (b : Bytes) (i : Nat) : List (LiteralKind × Span) :=
  (tokensFrom b i).filterMap Token.literal?

/-- **The closing delimiter is missing** of a literal of the given kind that starts at offset `i`. A
line comment and a regular expression always have their end. -/
def LiteralKind.unclosedAt (b : Bytes) (i : Nat) : LiteralKind → Bool
  | blockComment => (blockClose b (i + 2)).isNone
  | string | template => b[i]?.all fun quote => (quoteClose b quote (i + 1)).isNone
  | lineComment | regex => false

/-- What is reported about a literal that is copied: that its closing delimiter is missing, if it
is, and that it was kept. -/
def copyEvents (b : Bytes) : LiteralKind × Span → List Event
  | (kind, span) =>
    (if kind.unclosedAt b span.start then [.unterminated (.literal kind) span.start] else []) ++
      [.kept (.literal kind) span]

/-- The literals among the tokens are what is reported of the literal tokens. -/
private theorem literalsFrom_eq (b : Bytes) (i : Nat) :
    literalsFrom b i = (literalTokens b i).filterMap Token.literal? := by
  rw [literalsFrom, literalTokens, List.filterMap_filter]
  congr 1
  funext t
  cases hkind : t.kind <;> simp [Token.literal?, TokenKind.isLiteral, hkind]

private theorem literalsFrom_of_cons {b : Bytes} {i : Nat} {l : Literal}
    (h : literalTokens b i = .at b (.literal l.kind) l.span :: literalTokens b l.span.stop) :
    literalsFrom b i = (l.kind, l.span) :: literalsFrom b l.span.stop := by
  rw [literalsFrom_eq, h, literalsFrom_eq]
  exact List.filterMap_cons_some rfl

/-- A literal is not terminated if its closing delimiter is missing, and then runs to the end of the
text. One case for each kind of literal. -/
theorem unclosedAt_of_literalAt {b : Bytes} {i : Nat} {l : Literal} (h : literalAt b i = some l) :
    l.kind.unclosedAt b i = !l.terminated ∧ (l.terminated = false → l.span.stop = b.size) := by
  -- literals with a closing delimiter
  have hclosed {kind : LiteralKind} {close : Option Nat}
      (hkind : kind.unclosedAt b i = close.isNone)
      (h : some (Literal.closedBy kind b i close) = some l) :
      l.kind.unclosedAt b i = !l.terminated ∧ (l.terminated = false → l.span.stop = b.size) := by
    obtain rfl := Option.some.inj h
    rw [Literal.kind_closedBy, hkind]
    cases close with
    | none => exact ⟨rfl, fun _ => rfl⟩
    | some stop => exact ⟨rfl, fun hterminated => by simp [Literal.closedBy] at hterminated⟩
  unfold literalAt at h
  split at h
  · simp at h
  · rename_i c hc
    split at h
    · split at h
      · -- a line comment ends with its line
        obtain rfl := Option.some.inj h
        exact ⟨rfl, fun hterminated => by simp at hterminated⟩
      · split at h
        · exact hclosed rfl h
        · obtain ⟨stop, -, rfl⟩ := Option.map_eq_some_iff.mp h
          exact ⟨rfl, fun hterminated => by simp at hterminated⟩
    · -- a string or a template
      split at h
      · exact hclosed (by simp [LiteralKind.unclosedAt, hc]) h
      · split at h
        · exact hclosed (by simp [LiteralKind.unclosedAt, hc]) h
        · simp at h

/-- What is reported about a literal is what its patch reports, and that it was kept. -/
private theorem copyEvents_of_literalAt {b : Bytes} {l : Literal}
    (h : literalAt b l.span.start = some l) :
    copyEvents b (l.kind, l.span) =
      (literalPatch b ⟨.literal l.kind, l.span⟩).notices ++ [.kept (.literal l.kind) l.span] := by
  simp only [copyEvents, literalPatch, Match.start, h, Option.any_some,
    (unclosedAt_of_literalAt h).1]

/-! ### Plain text -/

/-- Offset `i` lies in none of the literals among the tokens from offset `c` on. -/
def InCode (b : Bytes) (c i : Nat) : Prop :=
  ∀ t ∈ literalTokens b c, ¬ (t.span.start ≤ i ∧ i < t.span.stop)

/-- **The code from offset `c` on gives no type syntax away.** -/
def Rules.Plain (r : Rules) (b : Bytes) (c : Nat) : Prop :=
  ∀ k, r.enables k = true → k.literalKind? = none → ∀ cursor i, c ≤ i → InCode b c i →
    k.matchAt b cursor i = none

namespace Rules.Plain

variable {r : Rules} {b : Bytes} {c s : Nat}

/-- Plain text is quiet up to the next literal. -/
theorem quiet (h : r.Plain b c) (hcs : c ≤ s) (hs : s ≤ b.size)
    (hnone : ∀ k, c ≤ k → k < s → literalAt b k = none) : r.Quiet b c s := by
  intro k hk i hci his
  cases hkind : k.literalKind? with
  | some kind =>
    obtain rfl := Construct.eq_literal hkind
    exact matchAt_literal_eq_none (hnone i hci his)
  | none =>
    -- a literal around `i` would start before `s`
    refine h k hk hkind c i hci fun t ht hin => ?_
    rw [literalTokens_of_forall hcs hs hnone] at ht
    have := le_start_of_mem_literalTokens ht
    omega

/-- Behind its next literal, the text is still plain. -/
theorem behind (h : r.Plain b c) {l : Literal} (hc : c ≤ l.span.stop)
    (htokens : literalTokens b c =
      .at b (.literal l.kind) l.span :: literalTokens b l.span.stop) :
    r.Plain b l.span.stop := by
  intro k hk hkind cursor i hi hcode
  refine h k hk hkind cursor i (Nat.le_trans hc hi) fun t ht => ?_
  rw [htokens] at ht
  -- an offset behind the literal does not lie in it
  rcases List.mem_cons.mp ht with rfl | ht
  · exact fun hin => absurd hin.2 (Nat.not_lt.mpr hi)
  · exact hcode t ht

/-- **The next construct of plain text is its next literal token.** Up to that the text is quiet,
and if there is none it is quiet to its end. -/
theorem nextMatch_cases (h : r.Plain b c) (hc : c ≤ b.size) :
    (r.nextMatch b c = none ∧ literalsFrom b c = []) ∨
      ∃ l, literalAt b l.span.start = some l ∧
        r.nextMatch b c = some ⟨.literal l.kind, l.span⟩ ∧
        literalsFrom b c = (l.kind, l.span) :: literalsFrom b l.span.stop ∧
        r.Plain b l.span.stop := by
  rcases literalTokens_cases b hc with ⟨htokens, hnone⟩ | ⟨l, hcl, hl, hnone, htokens⟩
  · refine .inl ⟨(h.quiet hc (Nat.le_refl _) hnone).nextMatch_eq_none, ?_⟩
    rw [literalsFrom_eq, htokens, List.filterMap_nil]
  · have hlt := lt_stop_of_literalAt hl
    have hstop := stop_le_of_literalAt hl
    -- before the literal nothing starts, in the code or as a literal
    have hquiet := h.quiet hcl (by omega) hnone
    exact .inr ⟨l, hl, hquiet.nextMatch hcl hl, literalsFrom_of_cons htokens,
      h.behind (by omega) htokens⟩

end Rules.Plain

/-! ### The run -/

/-- A round that keeps its construct leaves the text as it is. -/
theorem Grammar.Lawful.doneAfter_of_kept {g : Grammar} (hg : g.Lawful) {done rest : Bytes}
    {m : Match} {f : Filling} (h : g.next (done ++ rest) done.size = some m)
    (hf : Piece.outputOf f.pieces = (done ++ rest).slice m.start (g.patch (done ++ rest) m).stop) :
    doneAfter done rest m f ++ g.restAfter done rest m = done ++ rest ∧
      (doneAfter done rest m f).size = (g.patch (done ++ rest) m).stop := by
  have hparts : (done ++ rest).slice done.size m.start ++
      (done ++ rest).slice m.start (g.patch (done ++ rest) m).stop ++ g.restAfter done rest m =
        rest := hg.append_restAfter h f
  have hle := hg.le_start h
  have hlt := hg.lt_stop h
  constructor
  · rw [doneAfter, hf]
    simp only [Array.append_assoc] at hparts ⊢
    rw [hparts]
  · rw [doneAfter, hf, Array.size_append, Array.size_append,
      Bytes.size_slice (Nat.le_of_lt (hg.lt_size h)), Bytes.size_slice (hg.stop_le_size h)]
    omega

/-- **A run on plain text copies it**, and reports the literals among its tokens. The induction is
on the rounds: each takes the next literal, and behind it the text is still plain. -/
theorem Rules.Plain.of_runFrom {r : Rules} {done rest : Bytes} {e : Erasure}
    (hrun : r.grammar.runFrom done rest = .ok e) (h : r.Plain (done ++ rest) done.size) :
    e.output = rest ∧
      e.events = (literalsFrom (done ++ rest) done.size).flatMap (copyEvents (done ++ rest)) := by
  have hg := r.grammar_lawful
  have hsize {done rest : Bytes} : done.size ≤ (done ++ rest).size := by
    rw [Array.size_append]
    omega
  refine hg.run_induction (P := fun done rest e => r.Plain (done ++ rest) done.size →
    e.output = rest ∧ e.events =
      (literalsFrom (done ++ rest) done.size).flatMap (copyEvents (done ++ rest))) ?_ ?_ hrun h
  · -- the run has ended, so the text holds no more literals
    intro done rest hnone h
    have hnone : r.nextMatch (done ++ rest) done.size = none := hnone
    rcases h.nextMatch_cases hsize with ⟨-, hliterals⟩ | ⟨l, -, hnext, -⟩
    · rw [hliterals]
      exact ⟨Erasure.output_nil rest, rfl⟩
    · simp [hnone] at hnext
  · intro done rest m f e hnext hf _ ih h
    have hnext' : r.nextMatch (done ++ rest) done.size = some m := hnext
    rcases h.nextMatch_cases hsize with ⟨hnone, -⟩ | ⟨l, hl, hliteral, hliterals, hbehind⟩
    · simp [hnone] at hnext'
    · obtain rfl := Option.some.inj (hnext'.symm.trans hliteral)
      -- the literal is the one piece of its round, and is kept
      obtain rfl : f = ⟨[.kept ((done ++ rest).slice l.span.start l.span.stop)], []⟩ :=
        Filled.eq_of_pieces (l := [.kept _]) hf
      have hkept : Piece.outputOf [.kept ((done ++ rest).slice l.span.start l.span.stop)] =
          (done ++ rest).slice l.span.start l.span.stop := by
        simp [Piece.outputOf, Piece.output]
      -- the round keeps what it found, so the next one sees the same text
      obtain ⟨htext, hdone⟩ := hg.doneAfter_of_kept (f := ⟨[.kept _], []⟩) hnext hkept
      rw [htext, hdone] at ih
      obtain ⟨hout, hevents⟩ := ih hbehind
      constructor
      · rw [Erasure.output_cons, hout, ← Array.append_assoc]
        exact (congrArg (_ ++ · ++ _) hkept).trans (hg.append_restAfter hnext ⟨[], []⟩)
      · rw [Erasure.events_cons, hevents, hliterals, List.flatMap_cons, copyEvents_of_literalAt hl,
          List.append_assoc]
        congr 2
        exact if_pos hkept

/-- The whole run on a text that is plain. -/
theorem Rules.Plain.erase {r : Rules} {text : Bytes} (h : r.Plain text 0) :
    ∃ e, TypeErasure.erase r text = .ok e ∧ e.output = text ∧
      e.events = ((tokenize text).toList.filterMap Token.literal?).flatMap (copyEvents text) := by
  obtain ⟨e, hrun, -⟩ := r.grammar_lawful.exists_runFrom #[] text
  have htext : #[] ++ text = text := Array.empty_append
  -- the run starts with nothing written, so the text is all that it sees
  obtain ⟨hout, hevents⟩ := Rules.Plain.of_runFrom hrun (htext.symm ▸ h)
  rw [htext] at hevents
  exact ⟨e, hrun, hout, hevents⟩

/-! ### All rules switched off -/

/-- The rules with all flags switched off. -/
def Rules.off : Rules where
  typeAliases := false
  interfaces := false
  ambient := false
  casts := false
  annotations := false
  returnTypes := false
  generics := false
  classMembers := false

/-- The construct and the range that are reported as kept. -/
def Event.kept? : Event → Option (Construct × Span)
  | kept kind span => some (kind, span)
  | _ => none

/-- The construct and the offset that are reported as not terminated. -/
def Event.unterminated? : Event → Option (Construct × Nat)
  | unterminated kind offset => some (kind, offset)
  | _ => none

/-- With all flags switched off only literals are searched for. -/
private theorem Rules.off_plain (b : Bytes) (c : Nat) : Rules.off.Plain b c := by
  intro k hk hkind
  cases k with
  | literal => simp [Construct.literalKind?] at hkind
  | _ => simp [Rules.enables, Construct.flag?, Rules.get, Rules.off] at hk

/-- Only the last literal of a text can be left open: it takes up all that is behind it. -/
private theorem pairwise_literalsFrom (b : Bytes) (i : Nat) :
    (literalsFrom b i).Pairwise fun l _ => l.1.unclosedAt b l.2.start = false := by
  rw [literalsFrom_eq, List.pairwise_filterMap]
  refine ((pairwise_tokensFrom b i).filter _).imp_of_mem fun {t u} ht hu htu => ?_
  obtain ⟨l, hl, rfl⟩ := literalAt_of_mem_literalTokens ht
  obtain ⟨l', hl', rfl⟩ := literalAt_of_mem_literalTokens hu
  intro found hfound _ _
  obtain rfl := Option.some.inj hfound
  have hle : l.span.stop ≤ l'.span.start := htu
  have hlt : l'.span.start < l'.span.stop := lt_stop_of_literalAt hl'
  have hsize := stop_le_of_literalAt hl'
  obtain ⟨hunclosed, hend⟩ := unclosedAt_of_literalAt hl
  cases hterminated : l.terminated with
  | true => exact hunclosed.trans (congrArg _ hterminated)
  | false =>
    -- the next literal would start behind the end of the text
    have := hend hterminated
    omega

/-- If only the last of some things can have a property, it is the only one that is picked out by
it. -/
private theorem filter_eq_of_pairwise {α : Type} {p : α → Bool} {l : List α}
    (h : l.Pairwise fun a _ => p a = false) : l.filter p = (l.getLast?.filter p).toList := by
  induction l with
  | nil => rfl
  | cons a l ih =>
    obtain ⟨hhead, htail⟩ := List.pairwise_cons.mp h
    cases l with
    | nil => cases hp : p a <;> simp [hp, Option.filter]
    | cons a' l =>
      rw [List.filter_cons_of_neg (by simp [hhead a' List.mem_cons_self]), ih htail,
        List.getLast?_cons_cons]

/-- The literals that are reported as kept are all those that are copied. -/
private theorem filterMap_kept_copyEvents (b : Bytes) (ls : List (LiteralKind × Span)) :
    (ls.flatMap (copyEvents b)).filterMap Event.kept? =
      ls.map fun (kind, span) => (.literal kind, span) := by
  rw [List.filterMap_flatMap, List.map_eq_flatMap]
  congr 1
  funext ⟨kind, span⟩
  cases hopen : kind.unclosedAt b span.start <;>
    simp [copyEvents, hopen, Event.kept?, List.filterMap_cons]

/-- The literals that are reported as not terminated are those that are left open. By induction on
the literals. -/
private theorem filterMap_unterminated_copyEvents (b : Bytes) (ls : List (LiteralKind × Span)) :
    (ls.flatMap (copyEvents b)).filterMap Event.unterminated? =
      (ls.filter fun (kind, span) => kind.unclosedAt b span.start).map
        fun (kind, span) => (.literal kind, span.start) := by
  induction ls with
  | nil => rfl
  | cons l ls ih =>
    obtain ⟨kind, span⟩ := l
    rw [List.flatMap_cons, List.filterMap_append, ih]
    cases hopen : kind.unclosedAt b span.start <;> simp [copyEvents, hopen, Event.unterminated?]

/-- **The run and the lexer see the same literals.** With all flags switched off the run returns its
text. It reports as kept the literals among the tokens, with their kinds and ranges and in their
order, and as not terminated the last one of them, if its closing delimiter is missing. -/
theorem erase_off (text : Bytes) :
    let literals := (tokenize text).toList.filterMap Token.literal?
    ∃ e, erase .off text = .ok e ∧ e.output = text ∧
      e.events.filterMap Event.kept? = literals.map (fun (kind, span) => (.literal kind, span)) ∧
      e.events.filterMap Event.unterminated? =
        (literals.getLast?.filter fun (kind, span) => kind.unclosedAt text span.start).toList.map
          fun (kind, span) => (.literal kind, span.start) := by
  intro literals
  obtain ⟨e, hrun, hout, hevents⟩ := (Rules.off_plain text 0).erase
  refine ⟨e, hrun, hout, ?_, ?_⟩
  · rw [hevents, filterMap_kept_copyEvents]
  · rw [hevents, filterMap_unterminated_copyEvents]
    exact congrArg _ (filter_eq_of_pairwise (pairwise_literalsFrom text 0))

/-! ### Text without type syntax -/

/-- The words that introduce a type. -/
def typeWords : List String :=
  ["as", "type", "interface", "declare"]

/-- **The text has no type syntax outside of its literals**: no `:`, no `<` and none of the words
that introduce a type. It has no `class` at all, because the search for a class header does not stop
at literals. -/
structure Untyped (b : Bytes) : Prop where
  noClass : ∀ i, i < b.size → b.hasAt i "class" = false
  code : ∀ i, i < b.size →
    (∀ t ∈ (tokenize b).toList, t.kind.isLiteral = true →
      ¬ (t.span.start ≤ i ∧ i < t.span.stop)) →
    b.isAt i ':' = false ∧ b.isAt i '<' = false ∧
      ∀ w ∈ typeWords, keywordAt b i w = false

instance (b : Bytes) : Decidable (Untyped b) :=
  decidable_of_iff
    ((∀ i, i < b.size → b.hasAt i "class" = false) ∧ ∀ i, i < b.size →
      (∀ t ∈ (tokenize b).toList, t.kind.isLiteral = true →
        ¬ (t.span.start ≤ i ∧ i < t.span.stop)) →
      b.isAt i ':' = false ∧ b.isAt i '<' = false ∧
        ∀ w ∈ typeWords, keywordAt b i w = false)
    ⟨fun h => ⟨h.1, h.2⟩, fun h => ⟨h.noClass, h.code⟩⟩

private theorem mem_typeWords {k : Construct} {w : String} (h : k.keyword? = some w) :
    w ∈ typeWords := by
  cases k <;> simp only [Construct.keyword?, Option.some.injEq, reduceCtorEq] at h <;> subst h <;>
    decide

namespace InCode

variable {b : Bytes} {c i j : Nat}

/-- Behind an offset in code there is code, as long as no literal starts. -/
theorem of_forall (h : InCode b c i)
    (hnone : ∀ k, i < k → k ≤ j → b.satAt k Byte.opensInert = false) (hij : i ≤ j) :
    InCode b c j := by
  intro t ht hin
  obtain ⟨l, hl, -⟩ := literalAt_of_mem_literalTokens ht
  -- a literal around `j` is one around `i`, or starts between the two
  by_cases hle : t.span.start ≤ i
  · exact h t ht ⟨hle, by omega⟩
  · rw [literalAt_eq_none_of_not_opensInert (hnone _ (by omega) hin.1)] at hl
    simp at hl

/-- The keyword of a statement stands in code if the statement starts in it. It stands there, or
behind an `export` and blanks, none of which starts a literal. -/
theorem keyword (h : InCode b c i) {start : Nat} {w : String} (hword : keywordAt b start w = true)
    (hw : (Bytes.ofString w).toList.all Byte.isLetter = true) (hpos : 0 < (Bytes.ofString w).size)
    (hplace : start = i ∨ keywordAt b i "export" = true ∧ start = b.skipBlanks (i + 6)) :
    InCode b c start := by
  have hplain {p : Byte → Bool} {k : Nat} (hp : b.satAt k p = true)
      (hout : ['/', '\'', '"', '`'].all (fun ch => !p (Byte.ofChar ch)) = true) :
      b.satAt k Byte.opensInert = false :=
    Bytes.satAt_eq_false hp (Byte.excludes_opensInert hout)
  rcases hplace with rfl | ⟨hexport, rfl⟩
  · exact h
  · -- from `export` to the keyword there are letters and blanks
    have hle := b.le_skipWhile Byte.isBlank (i + 6)
    refine h.of_forall (fun k hik hk => ?_) (by rw [Bytes.skipBlanks]; omega)
    rcases Nat.lt_or_eq_of_le hk with hk | rfl
    · -- a letter of the `export`, or a blank behind it
      by_cases hlt : k < i + 6
      · have hletter := Bytes.satAt_of_hasAt (p := Byte.isLetter) (k := k - i)
          (hasAt_of_keywordAt hexport) (Nat.sub_lt_left_of_lt_add (Nat.le_of_lt hik) hlt) rfl
        rw [Nat.add_sub_cancel' (Nat.le_of_lt hik)] at hletter
        exact hplain hletter rfl
      · exact hplain (Bytes.satAt_of_lt_skipWhile (Nat.le_of_not_lt hlt) hk) rfl
    · exact hplain (isLetter_of_keywordAt hword hw hpos) rfl

end InCode

namespace Untyped

variable {b : Bytes} {i : Nat}

/-- What untyped text says of code, in terms of literal tokens. -/
private theorem of_inCode (h : Untyped b) (hi : i < b.size) (hcode : InCode b 0 i) :
    b.isAt i ':' = false ∧ b.isAt i '<' = false ∧
      ∀ w ∈ typeWords, keywordAt b i w = false :=
  h.code i hi fun t ht hliteral => hcode t (List.mem_filter.mpr ⟨ht, hliteral⟩)

/-- No word that introduces a type stands in code. -/
private theorem not_keyword (h : Untyped b) (hcode : InCode b 0 i) {w : String}
    (hw : w ∈ typeWords) : keywordAt b i w = false := by
  have hpos : ∀ w ∈ typeWords, 0 < (Bytes.ofString w).size := by decide
  rw [Bool.eq_false_iff]
  intro hat
  -- the keyword takes up bytes, so it stands in the text
  have hsize := le_size_of_keywordAt hat (hpos w hw)
  rw [(h.of_inCode (Nat.lt_of_lt_of_le (Nat.lt_add_of_pos_right (hpos w hw)) hsize) hcode).2.2 w hw]
    at hat
  simp at hat

/-- **Untyped text is plain under all rules.** One case for each sign that gives type syntax away
(`Sign`), none of which stands in the code of such a text. -/
theorem plain (h : Untyped b) (r : Rules) : r.Plain b 0 := by
  intro k _ hkind cursor i _ hcode
  rw [Option.eq_none_iff_forall_ne_some]
  intro m hm
  cases sign_of_matchAt hm with
  | literal => simp [Construct.literalKind?] at hkind
  | statement keyword word place =>
    -- the keyword may stand behind an `export`, but still in code
    obtain ⟨hw, hpos⟩ := Construct.keyword?_spec keyword
    rw [h.not_keyword (hcode.keyword word hw hpos place) (mem_typeWords keyword)] at word
    simp at word
  | classMembers word =>
    -- the header may start far before the match, and even inside of a literal
    have hclass := hasAt_of_keywordAt word
    rw [h.noClass _ (Bytes.lt_size_of_satAt (isLetter_of_keywordAt word rfl (by decide)))] at hclass
    simp at hclass
  | typeArguments angle =>
    rw [(h.of_inCode (Bytes.lt_size_of_isAt angle) hcode).2.1] at angle
    simp at angle
  | returnType colon | annotated colon =>
    rw [(h.of_inCode (Bytes.lt_size_of_isAt colon) hcode).1] at colon
    simp at colon
  | cast blank word =>
    -- the blank before the keyword is in code, and no literal starts at the keyword
    have hletter := isLetter_of_keywordAt word rfl (by decide)
    have hnext : InCode b 0 (i + 1) := by
      refine hcode.of_forall (fun k hik hk => ?_) (Nat.le_succ i)
      obtain rfl : k = i + 1 := Nat.le_antisymm hk hik
      exact Bytes.satAt_eq_false hletter (Byte.excludes_opensInert rfl)
    rw [h.not_keyword hnext (by decide)] at word
    simp at word

end Untyped

/-- **Untyped text is returned unchanged**, whatever its literals hold and whatever the rules, and
nothing but its literals is reported. -/
theorem erase_untyped (r : Rules) (text : Bytes) (h : Untyped text) :
    ∃ e, erase r text = .ok e ∧ e.output = text ∧
      e.events = ((tokenize text).toList.filterMap Token.literal?).flatMap (copyEvents text) :=
  (h.plain r).erase

/-- Type syntax in a string, a regular expression, a template and both kinds of comment. -/
theorem erase_untyped_literals :
    let text := Bytes.ofString
      "f(\"a as T<U>\", /x: T/, `$\x7by as T\x7d`) // type T = \x7b\n/* declare let y: T */ g()"
    Untyped text ∧ ∃ e, erase {} text = .ok e ∧ e.output = text ∧
      e.events = ((tokenize text).toList.filterMap Token.literal?).flatMap (copyEvents text) := by
  intro text
  have huntyped : Untyped text := by decide +kernel
  exact ⟨huntyped, erase_untyped {} text huntyped⟩

end TypeErasure
