import TypeErasure.Proofs.Nesting

/-!
# The tokens make up the text

Every token is read off the text in one of two ways (`Token.ReadFrom`): it is the literal that
starts where it does, or a run of bytes of one group in which no literal starts (`GroupRun`). A run
of a group that joins goes on as far as it can, and one of any other group is a single byte.

Main statement: the tokens of a text stand one behind the other and leave out nothing but spaces and
tabs, each of them consists of what its kind says, and none could be longer (`tokenize_lossless`).
-/

namespace TypeErasure

/-! ### Groups of bytes -/

/-- The group of the byte at offset `i`. -/
def Bytes.groupAt? (b : Bytes) (i : Nat) : Option CharGroup :=
  b[i]?.map Byte.group

private theorem Bytes.groupAt?_eq {b : Bytes} {i : Nat} (hi : i < b.size) :
    b.groupAt? i = some b[i].group := by
  rw [groupAt?, Array.getElem?_eq_getElem hi, Option.map_some]

/-- What a byte is, if its group is the given one. -/
def CharGroup.Holds (c : Byte) : CharGroup → Prop
  | whitespace => c.isBlank = true
  | newline => c.among ['\r', '\n'] = true
  | quote => c.among ['\'', '"', '`'] = true
  | operator => c.among ['+', '-', '*', '/', '%', '&', '|', '!', '^', '~'] = true
  | separator => c.among ['?', ':', '=', ',', ';'] = true
  | opening shape => c.opens? = some shape
  | closing shape => c.closes? = some shape
  | word => c.opens? = none ∧ c.closes? = none

/-- **A byte is of the kind that its group says.** One case for each test that the group is found
by. -/
theorem Byte.holds_group (c : Byte) : c.group.Holds c := by
  unfold group
  split
  · assumption
  · split
    · assumption
    · split
      · assumption
      · split
        · assumption
        · split
          · assumption
          · split
            · -- an opening bracket, a closing one, and what is left over
              rename_i hopens
              exact hopens
            · rename_i hcloses
              exact hcloses
            · rename_i hopens hcloses
              exact ⟨hopens, hcloses⟩

theorem Bytes.exists_of_groupAt? {b : Bytes} {i : Nat} {g : CharGroup} (h : b.groupAt? i = some g) :
    ∃ c, b[i]? = some c ∧ g.Holds c := by
  obtain ⟨c, hc, rfl⟩ := Option.map_eq_some_iff.mp h
  exact ⟨c, hc, c.holds_group⟩

/-- The group whose bytes a token of the kind consists of. A literal holds bytes of any group. -/
def TokenKind.group? : TokenKind → Option CharGroup
  | newline => some .newline
  | word => some .word
  | operator => some .operator
  | separator => some .separator
  | opening shape => some (.opening shape)
  | closing shape => some (.closing shape)
  | literal _ => none

/-- A group that makes tokens, quotes apart, makes them of its own kind. -/
theorem CharGroup.group?_of_tokenKind? {g : CharGroup} {kind : TokenKind}
    (h : g.tokenKind? = some kind) (hquote : g ≠ .quote) : kind.group? = some g := by
  cases g with
  | whitespace => simp [tokenKind?] at h
  | quote => exact absurd rfl hquote
  | _ =>
    obtain rfl := Option.some.inj h
    rfl

/-- **A quote always starts a literal**, even if it is never closed. -/
theorem literalAt_isSome_of_quote {b : Bytes} {i : Nat}
    (h : b.satAt i (·.among ['\'', '"', '`']) = true) : (literalAt b i).isSome = true := by
  rw [literalAt]
  cases hc : b[i]? with
  | none => simp [Bytes.satAt, hc] at h
  | some c =>
    rw [Bytes.satAt_of_getElem? hc] at h
    -- a quote is no slash, so that it starts a string or a template
    have hslash : c.is '/' = false := by
      simpa using Byte.of_among (q := fun c => !c.is '/') _ h rfl
    have heither : (c.isQuote || c.is '`') = true :=
      Byte.of_among (q := fun c => c.isQuote || c.is '`') _ h rfl
    dsimp only
    rw [hslash, if_neg Bool.false_ne_true]
    split
    · rfl
    · rename_i hnot
      rw [Bool.eq_false_iff.mpr hnot, Bool.false_or] at heither
      rw [if_pos heither]
      rfl

/-! ### Runs of one group -/

/-- **The bytes from `i` to `stop` are of group `g` and start no literal**, and the run that they
make is as long as tokens of the group get. -/
structure GroupRun (b : Bytes) (g : CharGroup) (i stop : Nat) : Prop where
  lt : i < stop
  le_size : stop ≤ b.size
  bytes : ∀ k, i ≤ k → k < stop → b.groupAt? k = some g ∧ literalAt b k = none
  single : g.joins = false → stop = i + 1
  maximal : g.joins = true → ¬ (b.groupAt? stop = some g ∧ literalAt b stop = none)

/-- A run takes the bytes of the group that start no literal, and ends at the first other one. The
induction follows the run. -/
private theorem groupRunStop_spec {b : Bytes} {i : Nat} (g : CharGroup) (hi : i ≤ b.size) :
    groupRunStop b g i ≤ b.size ∧
      (∀ k, i ≤ k → k < groupRunStop b g i → b.groupAt? k = some g ∧ literalAt b k = none) ∧
        ¬ (b.groupAt? (groupRunStop b g i) = some g ∧ literalAt b (groupRunStop b g i) = none) := by
  fun_induction groupRunStop b g i with
  | case1 i hlt hrun ih =>
    -- the byte belongs to the run, and the others are those of the rest
    obtain ⟨hle, hbytes, hend⟩ := ih hlt
    refine ⟨hle, fun k hk hks => ?_, hend⟩
    rcases Nat.lt_or_eq_of_le hk with hik | rfl
    · exact hbytes k hik hks
    · exact ⟨(Bytes.groupAt?_eq hlt).trans (congrArg some hrun.1), hrun.2⟩
  | case2 i hlt hend =>
    -- the run ends at a byte of another group, or at a literal
    refine ⟨hi, fun k hk hks => by omega, fun hrun => hend ⟨?_, hrun.2⟩⟩
    exact Option.some.inj ((Bytes.groupAt?_eq hlt).symm.trans hrun.1)
  | case3 i hlt =>
    -- the run ends with the text
    refine ⟨hi, fun k hk hks => by omega, fun hrun => ?_⟩
    obtain ⟨c, hc, -⟩ := Bytes.exists_of_groupAt? hrun.1
    exact hlt (Array.getElem?_eq_some_iff.mp hc).1

/-- **A token that is no literal is a run of its group.** A group that joins goes on behind its
first byte, and any other is that byte alone. -/
theorem groupRun_groupTokenStop {b : Bytes} {i : Nat} (hi : i < b.size)
    (h : literalAt b i = none) : GroupRun b b[i].group i (groupTokenStop b b[i].group i) := by
  have hfirst : b.groupAt? i = some b[i].group ∧ literalAt b i = none :=
    ⟨Bytes.groupAt?_eq hi, h⟩
  have hlt := lt_groupTokenStop b b[i].group i
  cases hjoins : b[i].group.joins with
  | true =>
    -- the run goes on behind the first byte
    obtain ⟨hle, hbytes, hend⟩ := groupRunStop_spec b[i].group hi
    rw [groupTokenStop, if_pos hjoins] at hlt ⊢
    refine ⟨hlt, hle, fun k hk hks => ?_, fun hnot => ?_, fun _ => hend⟩
    · rcases Nat.lt_or_eq_of_le hk with hik | rfl
      · exact hbytes k hik hks
      · exact hfirst
    · simp [hjoins] at hnot
  | false =>
    rw [groupTokenStop, hjoins, if_neg Bool.false_ne_true] at hlt ⊢
    refine ⟨hlt, hi, fun k hk hks => ?_, fun _ => rfl, fun hyes => ?_⟩
    · obtain rfl : i = k := by omega
      exact hfirst
    · simp [hjoins] at hyes

namespace GroupRun

variable {b : Bytes} {g : CharGroup} {i stop : Nat}

theorem groupAt? (h : GroupRun b g i stop) : b.groupAt? i = some g :=
  (h.bytes i (Nat.le_refl i) h.lt).1

/-- No run starts with a quote, since a literal starts there. -/
theorem ne_quote (h : GroupRun b g i stop) : g ≠ .quote := by
  rintro rfl
  obtain ⟨c, hc, hquote⟩ := Bytes.exists_of_groupAt? h.groupAt?
  have hsome := literalAt_isSome_of_quote ((Bytes.satAt_of_getElem? hc _).trans hquote)
  rw [(h.bytes i (Nat.le_refl i) h.lt).2] at hsome
  simp at hsome

/-- **Where a run of a group that joins ends, no other one starts**, or it would go on. -/
theorem ne_stop (h : GroupRun b g i stop) (hjoins : g.joins = true) {j stop' : Nat}
    (h' : GroupRun b g j stop') : stop ≠ j := by
  rintro rfl
  exact h.maximal hjoins (h'.bytes stop (Nat.le_refl stop) h'.lt)

end GroupRun

/-! ### Tokens -/

/-- **The token is read off the text**: it is a literal, or a run of bytes of one group. -/
inductive Token.ReadFrom (b : Bytes) : Token → Prop where
  | literal {l : Literal} (h : literalAt b l.span.start = some l) :
      ReadFrom b (.at b (.literal l.kind) l.span)
  | group {g : CharGroup} {kind : TokenKind} {i stop : Nat} (hkind : kind.group? = some g)
      (h : GroupRun b g i stop) : ReadFrom b (.at b kind ⟨i, stop⟩)

/-- Every token is read off the text. The induction follows the lexer. -/
theorem readFrom_of_mem_tokensFrom {b : Bytes} {i : Nat} {t : Token} (h : t ∈ tokensFrom b i) :
    t.ReadFrom b := by
  fun_induction tokensFrom b i with
  | case1 i hi l hl ih =>
    rcases List.mem_cons.mp h with rfl | h
    · exact .literal ((start_of_literalAt hl).symm ▸ hl)
    · exact ih h
  | case2 i hi _ g stop _ ih => exact ih h
  | case3 i hi hnone g stop kind hkind ih =>
    rcases List.mem_cons.mp h with rfl | h
    · -- a run has no quotes in it, so its group determines the kind
      have hrun : GroupRun b g i stop := groupRun_groupTokenStop hi hnone
      exact .group (CharGroup.group?_of_tokenKind? hkind hrun.ne_quote) hrun
    · exact ih h
  | case4 => simp at h

namespace Token.ReadFrom

variable {b : Bytes} {t u : Token}

theorem bounds (h : t.ReadFrom b) : t.span.start < t.span.stop ∧ t.span.stop ≤ b.size := by
  cases h with
  | literal h => exact bounds_of_literalAt h
  | group hkind h => exact ⟨h.lt, h.le_size⟩

theorem text_eq (h : t.ReadFrom b) : t.text = t.span.text b := by
  cases h <;> rfl

/-- A token that is no literal is a run of its group. -/
theorem groupRun (h : t.ReadFrom b) {g : CharGroup} (hg : t.kind.group? = some g) :
    GroupRun b g t.span.start t.span.stop := by
  cases h with
  | literal h => simp [Token.at, TokenKind.group?] at hg
  | group hkind h =>
    obtain rfl := Option.some.inj (hkind.symm.trans hg)
    exact h

/-- A literal token is the literal that starts where it does. -/
theorem literalAt (h : t.ReadFrom b) {kind : LiteralKind} (hkind : t.kind = .literal kind) :
    ∃ l, TypeErasure.literalAt b t.span.start = some l ∧ l.kind = kind ∧ l.span = t.span := by
  cases h with
  | literal h => exact ⟨_, h, TokenKind.literal.inj hkind, rfl⟩
  | group hgroup h =>
    obtain rfl := (show _ = TokenKind.literal kind from hkind)
    simp [TokenKind.group?] at hgroup

end Token.ReadFrom

/-- **What is left out between tokens is blank.** The induction follows the lexer: a byte lies in
what one step takes, which is a token or whitespace, or further on. -/
theorem isBlank_or_mem_tokensFrom (b : Bytes) {i k : Nat} (hik : i ≤ k) (hk : k < b.size) :
    b.satAt k Byte.isBlank = true ∨
      ∃ t ∈ tokensFrom b i, t.span.start ≤ k ∧ k < t.span.stop := by
  fun_induction tokensFrom b i with
  | case1 i hi l hl ih =>
    -- the byte lies in the literal or behind it
    by_cases hstop : l.span.stop ≤ k
    · rcases ih hstop with hblank | ⟨t, ht, hspan⟩
      · exact .inl hblank
      · exact .inr ⟨t, List.mem_cons_of_mem _ ht, hspan⟩
    · exact .inr ⟨_, List.mem_cons_self, (start_of_literalAt hl).symm ▸ hik, Nat.lt_of_not_le hstop⟩
  | case2 i hi hnone g stop hkind ih =>
    have hrun : GroupRun b g i stop := groupRun_groupTokenStop hi hnone
    by_cases hstop : stop ≤ k
    · exact ih hstop
    · -- of all groups only whitespace makes no token
      have hwhite : g = .whitespace := by
        cases hg : g <;> rw [hg] at hkind <;> simp [CharGroup.tokenKind?] at hkind
      obtain ⟨c, hc, hblank⟩ := Bytes.exists_of_groupAt? (hrun.bytes k hik (by omega)).1
      rw [hwhite] at hblank
      exact .inl ((Bytes.satAt_of_getElem? hc _).trans hblank)
  | case3 i hi hnone g stop kind hkind ih =>
    -- a run that is a token
    by_cases hstop : stop ≤ k
    · rcases ih hstop with hblank | ⟨t, ht, hspan⟩
      · exact .inl hblank
      · exact .inr ⟨t, List.mem_cons_of_mem _ ht, hspan⟩
    · exact .inr ⟨_, List.mem_cons_self, hik, Nat.lt_of_not_le hstop⟩
  | case4 i hi => omega

/-- **The tokens are those of the text**: nothing is lost but blanks, and no token is cut short. -/
structure Lossless (b : Bytes) (tokens : List Token) : Prop where
  /-- No token is empty or reaches beyond the text, and each holds the text of its range. -/
  span : ∀ t ∈ tokens,
    t.span.start < t.span.stop ∧ t.span.stop ≤ b.size ∧ t.text = t.span.text b
  /-- Tokens stand one behind the other. -/
  ordered : tokens.Pairwise fun t u => t.span.start < u.span.start ∧ t.span.stop ≤ u.span.start
  /-- What lies in no token is a space or a tab. -/
  gaps : ∀ i, i < b.size → (∀ t ∈ tokens, ¬ (t.span.start ≤ i ∧ i < t.span.stop)) →
    b.satAt i (·.among [' ', '\t']) = true
  /-- A literal is the one that starts there. -/
  literals : ∀ t ∈ tokens, ∀ kind, t.kind = .literal kind →
    ∃ l, literalAt b t.span.start = some l ∧ l.kind = kind ∧ l.span = t.span
  /-- Any other token consists of bytes of its own group, at none of which a literal starts. -/
  groups : ∀ t ∈ tokens, (∃ kind, t.kind = .literal kind) ∨
    ∃ g, t.kind.group? = some g ∧ ∀ i, t.span.start ≤ i → i < t.span.stop →
      b.groupAt? i = some g ∧ literalAt b i = none
  /-- No quote is left over to be a separator. -/
  separators : ∀ t ∈ tokens, t.kind = .separator →
    b.satAt t.span.start (·.among ['?', ':', '=', ',', ';']) = true
  quotes : ∀ i, b.satAt i (·.among ['\'', '"', '`']) = true → (literalAt b i).isSome = true
  /-- Brackets and separators stand alone. -/
  single : ∀ t ∈ tokens, (t.kind = .separator ∨ ∃ shape, t.kind = .opening shape ∨
    t.kind = .closing shape) → t.span.stop = t.span.start + 1
  /-- Words, operators and line breaks of one kind are parted by something. -/
  maximal : ∀ t ∈ tokens, ∀ u ∈ tokens, t.kind = u.kind → t.kind ∈ [.word, .operator, .newline] →
    t.span.stop ≠ u.span.start

/-- **Cutting a text into tokens loses nothing and cuts nothing short.** What is said of each token
follows from how it is read off the text (`readFrom_of_mem_tokensFrom`). The order of the tokens and
the gaps between them are about the lexer as a whole. -/
theorem tokenize_lossless (b : Bytes) : Lossless b (tokenize b).toList := by
  have hread : ∀ t ∈ (tokenize b).toList, t.ReadFrom b := fun t ht => readFrom_of_mem_tokensFrom ht
  constructor
  case span =>
    exact fun t ht => ⟨(hread t ht).bounds.1, (hread t ht).bounds.2, (hread t ht).text_eq⟩
  case ordered =>
    refine (pairwise_tokensFrom b 0).imp_of_mem fun {t u} ht _ hle => ⟨?_, hle⟩
    exact Nat.lt_of_lt_of_le (hread t ht).bounds.1 hle
  case gaps =>
    intro i hi hout
    rcases isBlank_or_mem_tokensFrom b (Nat.zero_le i) hi with hblank | ⟨t, ht, hspan⟩
    · exact hblank
    · exact absurd hspan (hout t ht)
  case literals => exact fun t ht kind hkind => (hread t ht).literalAt hkind
  case groups =>
    intro t ht
    cases hread t ht with
    | literal h => exact .inl ⟨_, rfl⟩
    | group hkind h => exact .inr ⟨_, hkind, h.bytes⟩
  case separators =>
    intro t ht hkind
    have hrun := (hread t ht).groupRun (g := .separator) (by rw [hkind]; rfl)
    obtain ⟨c, hc, hsign⟩ := Bytes.exists_of_groupAt? hrun.groupAt?
    exact (Bytes.satAt_of_getElem? hc _).trans hsign
  case quotes => exact fun i => literalAt_isSome_of_quote
  case single =>
    rintro t ht (hkind | ⟨shape, hkind | hkind⟩)
    all_goals exact ((hread t ht).groupRun (by rw [hkind]; rfl)).single rfl
  case maximal =>
    intro t ht u hu hkind hjoins
    -- the three kinds are those of the groups that join
    obtain ⟨g, hg, hyes⟩ : ∃ g, t.kind.group? = some g ∧ g.joins = true := by
      simp only [List.mem_cons, List.not_mem_nil, or_false] at hjoins
      rcases hjoins with h | h | h <;> exact ⟨_, by rw [h]; rfl, rfl⟩
    exact ((hread t ht).groupRun hg).ne_stop hyes ((hread u hu).groupRun (hkind ▸ hg))

end TypeErasure
