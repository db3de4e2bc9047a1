import TypeErasure.Token
import TypeErasure.Proofs.Grammar

/-!
# The literal tokens of a text

Tokens other than literals are cut by the groups of their bytes, but where they are cut makes no
difference to the literals: `literalTokens_succ` says that a byte that starts no literal can be
stepped over on its own. So the lexer follows the path of a scan wherever that path meets no regular
expression, and a literal on the path is a token (`mem_literalTokens_of_lexes`).

`SlashesCovered` says that every slash of a text lies in a comment, string or template token. Such a
text has no regular expression on its path (`SlashesCovered.clean`).
-/

namespace TypeErasure

/-- The token is a literal. -/
def TokenKind.isLiteral : TokenKind → Bool
  | literal _ => true
  | _ => false

/-- The token is a comment, a string or a template. -/
def TokenKind.isInert : TokenKind → Bool
  | literal kind => kind != .regex
  | _ => false

private theorem TokenKind.isLiteral_of_isInert {k : TokenKind} (h : k.isInert = true) :
    k.isLiteral = true := by
  cases k with
  | literal => rfl
  | _ => simp [isInert] at h

/-- The literals among the tokens from offset `i` on. -/
def literalTokens (b : Bytes) (i : Nat) : List Token :=
  (tokensFrom b i).filter (·.kind.isLiteral)

/-! ### Stepping through a text -/

/-- A literal is the first of the literal tokens from its start on, and the others follow behind
it. -/
theorem literalTokens_of_literalAt {b : Bytes} {i : Nat} {l : Literal}
    (h : literalAt b i = some l) :
    literalTokens b i = .at b (.literal l.kind) l.span :: literalTokens b l.span.stop := by
  have hi := Nat.lt_of_lt_of_le (lt_stop_of_literalAt h) (stop_le_of_literalAt h)
  rw [literalTokens, tokensFrom, dif_pos hi]
  split
  · rename_i l' hl
    obtain rfl : l = l' := Option.some.inj (h.symm.trans hl)
    rw [List.filter_cons_of_pos rfl, literalTokens]
  · rename_i hnone
    rw [h] at hnone
    simp at hnone

/-- No group of bytes makes a literal. The groups are tried one by one. -/
private theorem CharGroup.not_isLiteral {g : CharGroup} {kind : TokenKind}
    (h : g.tokenKind? = some kind) : ¬ kind.isLiteral = true := by
  cases g <;> simp [CharGroup.tokenKind?] at h <;> subst h <;> exact Bool.false_ne_true

/-- A token that is no literal is dropped. So the literals can be looked for behind the token,
wherever that ends. -/
private theorem literalTokens_groupTokenStop {b : Bytes} {i : Nat} (hi : i < b.size)
    (h : literalAt b i = none) :
    literalTokens b i = literalTokens b (groupTokenStop b b[i].group i) := by
  rw [literalTokens, tokensFrom, dif_pos hi]
  split
  · rename_i l hl
    rw [h] at hl
    simp at hl
  · dsimp only
    split
    · rfl
    · rename_i kind hkind
      exact List.filter_cons_of_neg (CharGroup.not_isLiteral hkind)

/-- A run of bytes of one group can be entered anywhere. If the run goes on at the offset, a token
that starts there ends where the run does, and is dropped. -/
private theorem literalTokens_groupRunStop {b : Bytes} {g : CharGroup} (hg : g.joins = true)
    (i : Nat) : literalTokens b i = literalTokens b (groupRunStop b g i) := by
  rw [groupRunStop]
  split
  · rename_i hi
    split
    · rename_i hrun
      -- the run goes on at `i`, so a token that starts there ends where the run does
      rw [literalTokens_groupTokenStop hi hrun.2, hrun.1, groupTokenStop, if_pos hg]
    · rfl
  · rfl

/-- **A byte that starts no literal makes no difference to the literals behind it.** A token of
several bytes ends where the run behind its first byte ends, and that run can be entered at its
start. -/
theorem literalTokens_succ {b : Bytes} {i : Nat} (hi : i < b.size) (h : literalAt b i = none) :
    literalTokens b i = literalTokens b (i + 1) := by
  rw [literalTokens_groupTokenStop hi h, groupTokenStop]
  split
  · rename_i hjoins
    -- both the token of the byte and the run behind it end where the group does
    exact (literalTokens_groupRunStop hjoins (i + 1)).symm
  · rfl

/-- Tokens from an offset on start there or behind it. The induction follows the cutting of the
text, which moves on with every token. -/
private theorem le_start_of_mem_tokensFrom {b : Bytes} {i : Nat} {t : Token}
    (h : t ∈ tokensFrom b i) : i ≤ t.span.start := by
  fun_induction tokensFrom b i with
  | case1 i hi l hl ih =>
    rcases List.mem_cons.mp h with rfl | h
    · exact Nat.le_of_eq (start_of_literalAt hl).symm
    · exact Nat.le_trans (Nat.le_of_lt (lt_stop_of_literalAt hl)) (ih h)
  | case2 i hi _ g stop _ ih =>
    exact Nat.le_trans (Nat.le_of_lt (lt_groupTokenStop b g i)) (ih h)
  | case3 i hi _ g stop kind _ ih =>
    rcases List.mem_cons.mp h with rfl | h
    · exact Nat.le_refl i
    · exact Nat.le_trans (Nat.le_of_lt (lt_groupTokenStop b g i)) (ih h)
  | case4 => simp at h

/-- Tokens do not overlap. The induction follows the cutting of the text, and what is cut later
starts behind what is cut now. -/
theorem pairwise_tokensFrom (b : Bytes) (i : Nat) :
    (tokensFrom b i).Pairwise fun t u => t.span.stop ≤ u.span.start := by
  fun_induction tokensFrom b i with
  | case1 i hi l hl ih => exact List.Pairwise.cons (fun u hu => le_start_of_mem_tokensFrom hu) ih
  | case2 i hi _ g stop _ ih => exact ih
  | case3 i hi _ g stop kind _ ih =>
    exact List.Pairwise.cons (fun u hu => le_start_of_mem_tokensFrom hu) ih
  | case4 => exact List.Pairwise.nil

/-- The two ranges have a byte in common. -/
def Span.overlaps (s t : Span) : Bool :=
  s.start < t.stop && t.start < s.stop

/-- Of tokens that do not overlap, one alone overlaps itself. By induction on the list: the tokens
before this one end before it starts, and those behind it start behind its end. -/
private theorem filter_overlaps_of_mem {ts : List Token} {t : Token}
    (h : ts.Pairwise fun t u => t.span.stop ≤ u.span.start) (ht : t ∈ ts)
    (hpos : t.span.start < t.span.stop) : ts.filter (·.span.overlaps t.span) = [t] := by
  induction ts with
  | nil => simp at ht
  | cons u ts ih =>
    obtain ⟨hhead, htail⟩ := List.pairwise_cons.mp h
    rcases List.mem_cons.mp ht with rfl | hmem
    · -- everything else stands behind `t`
      have hself : t.span.overlaps t.span = true := by simp [Span.overlaps, hpos]
      have hrest : ts.filter (·.span.overlaps t.span) = [] := by
        rw [List.filter_eq_nil_iff]
        intro u hu
        have := hhead u hu
        simp only [Span.overlaps, Bool.and_eq_true, decide_eq_true_eq]
        omega
      rw [List.filter_cons, if_pos hself, hrest]
    · -- `u` stands before `t`
      have hbefore := hhead t hmem
      have hnot : ¬ u.span.overlaps t.span = true := by
        simp only [Span.overlaps, Bool.and_eq_true, decide_eq_true_eq]
        omega
      rw [List.filter_cons, if_neg hnot]
      exact ih htail hmem

/-- Literal tokens from an offset on start there or behind it. -/
theorem le_start_of_mem_literalTokens {b : Bytes} {i : Nat} {t : Token}
    (h : t ∈ literalTokens b i) : i ≤ t.span.start :=
  le_start_of_mem_tokensFrom (List.mem_filter.mp h).1

/-- A literal token is the literal that starts where it does. The induction follows the cutting of
the text; a token that was cut by groups is no literal. -/
theorem literalAt_of_mem_literalTokens {b : Bytes} {i : Nat} {t : Token}
    (h : t ∈ literalTokens b i) :
    ∃ l, literalAt b t.span.start = some l ∧ t = .at b (.literal l.kind) l.span := by
  obtain ⟨hmem, hliteral⟩ := List.mem_filter.mp h
  clear h
  fun_induction tokensFrom b i with
  | case1 i hi l hl ih =>
    rcases List.mem_cons.mp hmem with rfl | hmem
    · have hstart : (Token.at b (.literal l.kind) l.span).span.start = i := start_of_literalAt hl
      exact ⟨l, hstart ▸ hl, rfl⟩
    · exact ih hmem
  | case2 i hi _ g stop _ ih => exact ih hmem
  | case3 i hi _ g stop kind hkind ih =>
    rcases List.mem_cons.mp hmem with rfl | hmem
    · exact absurd hliteral (CharGroup.not_isLiteral hkind)
    · exact ih hmem
  | case4 => simp at hmem

/-- Bytes that start no literal make no difference to the literals behind them. By induction on the
end of the stretch, one byte at a time. -/
theorem literalTokens_of_forall {b : Bytes} {i j : Nat} (hij : i ≤ j) (hj : j ≤ b.size)
    (h : ∀ k, i ≤ k → k < j → literalAt b k = none) : literalTokens b i = literalTokens b j := by
  induction j with
  | zero =>
    obtain rfl : i = 0 := by omega
    rfl
  | succ n ih =>
    by_cases heq : i = n + 1
    · rw [heq]
    · rw [ih (by omega) (by omega) fun k hk hkn => h k hk (by omega)]
      exact literalTokens_succ hj (h n (by omega) (Nat.lt_succ_self n))

/-- **The literal tokens are found one after the other**: the next one is the first literal that
starts at or after the offset. Either no offset of the rest starts a literal, or the first one that
does is found by a search, and the bytes before it are stepped over. -/
theorem literalTokens_cases (b : Bytes) {i : Nat} (hi : i ≤ b.size) :
    (literalTokens b i = [] ∧ ∀ k, i ≤ k → k < b.size → literalAt b k = none) ∨
      ∃ l, i ≤ l.span.start ∧ literalAt b l.span.start = some l ∧
        (∀ k, i ≤ k → k < l.span.start → literalAt b k = none) ∧
        literalTokens b i = .at b (.literal l.kind) l.span :: literalTokens b l.span.stop := by
  -- the first literal from `i` on is the next token, since no byte before it starts one
  cases hfirst : firstIn (literalAt b) i b.size with
  | none =>
    have hnone := firstIn_eq_none hfirst
    refine .inl ⟨?_, hnone⟩
    rw [literalTokens_of_forall hi (Nat.le_refl _) hnone, literalTokens, tokensFrom,
      dif_neg (Nat.lt_irrefl _), List.filter_nil]
  | some l =>
    obtain ⟨s, his, hs, hl, hnone⟩ := firstIn_eq_some_iff.mp hfirst
    obtain rfl := start_of_literalAt hl
    refine .inr ⟨l, his, hl, hnone, ?_⟩
    rw [literalTokens_of_forall his (Nat.le_of_lt hs) hnone, literalTokens_of_literalAt hl]

/-! ### The lexer follows the path -/

/-- What one step of the path passes over: a byte that starts no literal, or an inert literal. A
literal on the path is inert, since the slash of a regular expression would have to open a
comment. -/
theorem LexStep.cases {b : Bytes} {i j : Nat} (h : LexStep b i j) :
    literalAt b i = none ∧ j = i + 1 ∨ ∃ l, literalAt b i = some l ∧ j = l.span.stop := by
  obtain ⟨⟨hi, rfl⟩, hslash⟩ := h
  cases hl : literalAt b i with
  | none => exact .inl ⟨rfl, scanNext_of_eq_none (inertStop_of_literalAt_eq_none hl)⟩
  | some l =>
    refine .inr ⟨l, rfl, ?_⟩
    by_cases hkind : l.kind = .regex
    · -- the step is no regular expression: its slash would have to open a comment
      have hsome := hslash ((literalAt_spec hl).2 hkind)
      rw [inertStop_of_regex hl hkind] at hsome
      simp at hsome
    · exact scanNext_of_inertStop (inertStop_of_literalAt hl hkind)

/-- **A literal behind a stretch that the lexer reads is a token.** By induction from the start of
the stretch: a byte makes no difference, and a literal is one more token in front. -/
theorem mem_literalTokens_of_lexes {b : Bytes} {i j : Nat} {t : Token} (h : Lexes b i j)
    (ht : t ∈ literalTokens b j) : t ∈ literalTokens b i := by
  induction h using Relation.ReflTransGen.head_induction_on with
  | refl => exact ht
  | @head i s hstep _ ih =>
    rcases hstep.cases with ⟨hnone, rfl⟩ | ⟨l, hl, rfl⟩
    · rwa [literalTokens_succ hstep.1.1 hnone]
    · rw [literalTokens_of_literalAt hl]
      exact List.mem_cons_of_mem _ ih

/-- **A literal that the lexer comes to is the one token of the text that it overlaps.** It is a
token by `mem_literalTokens_of_lexes`, and tokens do not overlap. -/
theorem filter_tokenize_of_lexes {b : Bytes} {i : Nat} {l : Literal} (h : Lexes b 0 i)
    (hl : literalAt b i = some l) :
    (tokenize b).toList.filter (·.span.overlaps l.span) = [.at b (.literal l.kind) l.span] := by
  have hmem : .at b (.literal l.kind) l.span ∈ literalTokens b i := by
    rw [literalTokens_of_literalAt hl]
    exact List.mem_cons_self
  -- the token is read from the start of the text, since the path leads there
  have htoken := (List.mem_filter.mp (mem_literalTokens_of_lexes h hmem)).1
  have hpos : l.span.start < l.span.stop := by
    rw [start_of_literalAt hl]
    exact lt_stop_of_literalAt hl
  exact filter_overlaps_of_mem (pairwise_tokensFrom b 0) htoken hpos

/-! ### Texts whose slashes are covered -/

/-- **Every slash lies inside a comment, string or template token.** -/
def SlashesCovered (b : Bytes) : Prop :=
  ∀ i, i < b.size → b.isAt i '/' = true →
    ∃ t ∈ (tokenize b).toList, t.kind.isInert = true ∧ t.span.start ≤ i ∧ i < t.span.stop

instance (b : Bytes) : Decidable (SlashesCovered b) :=
  inferInstanceAs (Decidable (∀ i, i < b.size → b.isAt i '/' = true →
    ∃ t ∈ (tokenize b).toList, t.kind.isInert = true ∧ t.span.start ≤ i ∧ i < t.span.stop))

/-- Every slash from offset `i` on lies inside an inert token from there on. -/
def CoveredFrom (b : Bytes) (i : Nat) : Prop :=
  ∀ k, i ≤ k → b.isAt k '/' = true →
    ∃ t ∈ literalTokens b i, t.kind.isInert = true ∧ t.span.start ≤ k ∧ k < t.span.stop

/-- The covering tokens are literals, so from the start of the text on the two notions agree. -/
private theorem SlashesCovered.coveredFrom {b : Bytes} (h : SlashesCovered b) :
    CoveredFrom b 0 := by
  intro k _ hslash
  obtain ⟨t, ht, hinert, hspan⟩ := h k (Bytes.lt_size_of_isAt hslash) hslash
  exact ⟨t, List.mem_filter.mpr ⟨ht, TokenKind.isLiteral_of_isInert hinert⟩, hinert, hspan⟩

namespace CoveredFrom

variable {b : Bytes} {i : Nat}

/-- A slash that is covered starts no regular expression. The token that covers the slash would be
the expression, which is not inert, or start behind it. -/
private theorem ne_regex (h : CoveredFrom b i) {l : Literal} (hl : literalAt b i = some l) :
    l.kind ≠ .regex := by
  intro hkind
  obtain ⟨t, ht, hinert, hstart, -⟩ := h i (Nat.le_refl i) ((literalAt_spec hl).2 hkind)
  rw [literalTokens_of_literalAt hl] at ht
  rcases List.mem_cons.mp ht with rfl | ht
  · -- the token that covers the slash is the expression itself, which is not inert
    simp [Token.at, TokenKind.isInert, hkind] at hinert
  · -- the other tokens start behind the expression
    have hle := le_start_of_mem_literalTokens ht
    have hlt := lt_stop_of_literalAt hl
    omega

/-- A slash that is covered and is on the path opens a comment. A literal that starts there is inert
by `ne_regex`, and there has to be one, for otherwise the covering token starts too late. -/
private theorem inertStop_isSome (h : CoveredFrom b i) (hslash : b.isAt i '/' = true) :
    (inertStop b i).isSome = true := by
  cases hl : literalAt b i with
  | some l => rw [inertStop_of_literalAt hl (h.ne_regex hl)]; rfl
  | none =>
    -- no literal starts here, so the token that covers the slash starts behind it
    obtain ⟨t, ht, -, hstart, -⟩ := h i (Nat.le_refl i) hslash
    rw [literalTokens_succ (Bytes.lt_size_of_isAt hslash) hl] at ht
    have hle := le_start_of_mem_literalTokens ht
    omega

/-- The slashes behind a step of the path are covered by tokens behind it. A token that is left
behind by the step covers only bytes that are left behind too. -/
theorem step (h : CoveredFrom b i) (hi : i < b.size) : CoveredFrom b (scanNext b i) := by
  intro k hk hslash
  obtain ⟨t, ht, hinert, hstart, hstop⟩ :=
    h k (Nat.le_trans (Nat.le_of_lt (lt_scanNext b i)) hk) hslash
  refine ⟨t, ?_, hinert, hstart, hstop⟩
  cases hl : literalAt b i with
  | none =>
    rw [scanNext_of_eq_none (inertStop_of_literalAt_eq_none hl)]
    rwa [literalTokens_succ hi hl] at ht
  | some l =>
    rw [scanNext_of_inertStop (inertStop_of_literalAt hl (h.ne_regex hl))] at hk ⊢
    rw [literalTokens_of_literalAt hl] at ht
    rcases List.mem_cons.mp ht with rfl | ht
    · -- the literal at the start of the step ends before `k`
      exact absurd hstop (Nat.not_lt.mpr hk)
    · exact ht

end CoveredFrom

/-- **If every slash is covered, no regular expression is on the path.** That the rest of the
slashes is covered by the rest of the tokens is an invariant of the path, and at the slash itself it
gives the comment. -/
theorem SlashesCovered.clean {b : Bytes} (h : SlashesCovered b) : Clean b 0 := by
  intro q hq hslash
  have hcovered : CoveredFrom b q := by
    -- the invariant is carried along the path, whatever stands at its end
    clear hslash
    induction hq with
    | refl => exact h.coveredFrom
    | tail _ hstep ih => exact hstep.2 ▸ ih.step hstep.1
  exact hcovered.inertStop_isSome hslash

end TypeErasure
