import Mathlib.Data.List.Basic
import TypeErasure.Proofs.Grammar

/-!
# The first construct by start and precedence

The search for the next construct asks one kind of construct after the other, each only up to where
the best match so far starts. It finds what a search without that limit finds
(`Rules.nextMatch_eq_some_iff`): of the first matches of all kinds the one that starts first, and of
those that start at the same offset the one of highest precedence.

The limit does no harm to a construct that starts where it is given away, since what the search
misses starts too late. An annotation is given away by its colon, but may start at a marker before
it. `Sign` lists what gives each construct away. No sign but that of an annotation stands between a
marker and its colon, so that the limit never parts the two (`Sign.le_start`).

Main statement: `nextMatch_isFirst`.
-/

namespace TypeErasure

/-! ### Signs -/

/-- The keyword of a statement that holds nothing but types. -/
def Construct.keyword? : Construct → Option String
  | ambient => some "declare"
  | typeAlias => some "type"
  | interface => some "interface"
  | _ => none

theorem Construct.keyword?_spec {k : Construct} {w : String} (h : k.keyword? = some w) :
    (Bytes.ofString w).toList.all Byte.isLetter = true ∧ 0 < (Bytes.ofString w).size := by
  cases k <;> simp only [keyword?, Option.some.injEq, reduceCtorEq] at h <;> subst h <;>
    exact ⟨rfl, by decide⟩

/-- **What gives a construct away at offset `i`.** -/
inductive Sign (b : Bytes) (i : Nat) : Construct → Prop where
  /-- The first byte of a literal. -/
  | literal {kind : LiteralKind} (opens : b.satAt i Byte.opensInert = true) :
      Sign b i (.literal kind)
  /-- The keyword of a statement, with `export` before it or without. -/
  | statement {k : Construct} {w : String} {start : Nat} (keyword : k.keyword? = some w)
      (word : keywordAt b start w = true)
      (place : start = i ∨ keywordAt b i "export" = true ∧ start = b.skipBlanks (i + 6)) :
      Sign b i k
  /-- A keyword, a bracket, or the blank before a keyword, where there is a `class` to it. -/
  | classMembers {j : Nat} (word : keywordAt b j "class" = true)
      (first : b.satAt i (fun c => c.isLetter || c.is '{') = true ∨
        b.satAt i Byte.isBlank = true ∧ b.satAt (i + 1) Byte.isLetter = true) :
      Sign b i .classMembers
  /-- The opening bracket of a list. -/
  | typeArguments (angle : b.isAt i '<' = true) : Sign b i .typeArguments
  /-- A colon behind a parameter list. -/
  | returnType (colon : b.isAt i ':' = true) (follows : followsParameters b i = true) :
      Sign b i .returnType
  /-- A colon. -/
  | annotated (colon : b.isAt i ':' = true) : Sign b i .annotated
  /-- The blank before `as`. -/
  | cast (blank : b.satAt i Byte.isBlank = true) (word : keywordAt b (i + 1) "as" = true) :
      Sign b i .cast

/-- A statement that is found by its keyword has that as its sign. -/
private theorem sign_of_namedStatement {b : Bytes} {i after : Nat} {k : Construct} {w : String}
    (hk : k.keyword? = some w) (h : namedStatement b i w = some after) : Sign b i k := by
  obtain ⟨start, hword, -, hstart⟩ :=
    statementKeyword_cases (Option.filter_eq_some_iff.mp h).1
  exact .statement hk hword hstart

/-- A class header starts with `class`. The induction follows the search for the word backward, name
by name. -/
private theorem exists_class_of_endsClassHeader {b : Bytes} {k : Nat}
    (h : endsClassHeader b k = true) : ∃ j, keywordAt b j "class" = true := by
  fun_induction endsClassHeader b k with
  | case1 => simp at h
  | case2 => simp at h
  | case3 k p _ start _ ih =>
    rw [Bool.or_eq_true, Bool.and_eq_true] at h
    rcases h with h | h
    · exact ⟨start, h.2⟩
    · exact ih h

/-- The parts of a class are given away by `abstract`, by the bracket of a body or by the blank
before `implements`, and each of them asks for a `class`. -/
theorem sign_of_classMembersAt {b : Bytes} {i : Nat} {m : Match} (h : classMembersAt b i = some m) :
    Sign b i .classMembers := by
  have hletter {k : Nat} {w : String} (hword : keywordAt b k w = true)
      (hw : (Bytes.ofString w).toList.all Byte.isLetter = true)
      (hpos : 0 < (Bytes.ofString w).size) : b.satAt k Byte.isLetter = true :=
    isLetter_of_keywordAt hword hw hpos
  unfold classMembersAt at h
  rcases Option.or_eq_some_iff.mp h with h | ⟨-, h⟩
  · rcases Option.or_eq_some_iff.mp h with h | ⟨-, h⟩
    · -- `abstract` before `class`
      have hcond := (Option.ite_none_right_eq_some.mp h).1
      simp only [Bool.and_eq_true] at hcond
      exact .classMembers hcond.2 (.inl (Bytes.satAt_mono (hletter hcond.1.1 rfl (by decide))
        fun c hc => by rw [hc, Bool.true_or]))
    · -- the bracket of a body
      have hcond := (Option.ite_none_right_eq_some.mp h).1
      rw [Bool.and_eq_true] at hcond
      obtain ⟨j, hclass⟩ := exists_class_of_endsClassHeader hcond.2
      exact .classMembers hclass (.inl (Bytes.satAt_of_isAt hcond.1 _))
  · -- the blank before `implements`
    obtain ⟨hcond, h⟩ := Option.ite_none_right_eq_some.mp h
    have hbrace := (Option.ite_none_right_eq_some.mp h).1
    rw [Bool.and_eq_true] at hcond hbrace
    obtain ⟨j, hclass⟩ := exists_class_of_endsClassHeader hbrace.2
    exact .classMembers hclass (.inr ⟨hcond.1, hletter hcond.2 rfl (by decide)⟩)

/-- A return type is given away by a colon behind a parameter list. -/
private theorem sign_of_returnTypeAt {b : Bytes} {i : Nat} {m : Match}
    (h : returnTypeAt b i = some m) : Sign b i .returnType := by
  have hcond := (Option.ite_none_right_eq_some.mp h).1
  simp only [Bool.and_eq_true] at hcond
  obtain ⟨stop, hstop⟩ := Option.isSome_iff_exists.mp hcond.2
  unfold returnTypeStop at hstop
  exact .returnType hcond.1.1 (Option.ite_none_right_eq_some.mp hstop).1

/-- **Where a construct is given away, its sign stands.** One case for each kind of construct. -/
theorem sign_of_matchAt {b : Bytes} {cursor i : Nat} {k : Construct} {m : Match}
    (h : k.matchAt b cursor i = some m) : Sign b i k := by
  cases k with
  | literal kind =>
    -- a literal starts only at a byte that can open one
    obtain ⟨l, hl, -, -⟩ := matchAt_literal h
    refine .literal (eq_true_of_ne_false fun hnot => ?_)
    rw [literalAt_eq_none_of_not_opensInert hnot] at hl
    simp at hl
  | ambient =>
    obtain ⟨after, hafter, -⟩ := Option.map_eq_some_iff.mp h
    exact sign_of_namedStatement rfl hafter
  | typeAlias =>
    obtain ⟨after, hafter, -⟩ := Option.bind_eq_some_iff.mp h
    obtain ⟨start, hword, -, hstart⟩ := statementKeyword_cases hafter
    exact .statement rfl hword hstart
  | interface =>
    obtain ⟨after, hafter, -⟩ := Option.map_eq_some_iff.mp h
    exact sign_of_namedStatement rfl hafter
  | classMembers => exact sign_of_classMembersAt h
  | typeArguments =>
    have hcond := (Option.ite_none_right_eq_some.mp h).1
    simp only [Bool.and_eq_true] at hcond
    exact .typeArguments hcond.1.1.2
  | returnType => exact sign_of_returnTypeAt h
  | annotated =>
    obtain ⟨-, -, hcolon, -⟩ := annotationAt_cases h
    exact .annotated (isAt_of_isColon hcolon)
  | cast =>
    have hcond := (Option.ite_none_right_eq_some.mp h).1
    simp only [Bool.and_eq_true] at hcond
    exact .cast hcond.1.1.1.1.1 hcond.1.1.1.1.2

/-- Only an annotation can start before the place where it is given away. All others are laid out
from that place on. -/
theorem start_of_matchAt {b : Bytes} {cursor i : Nat} {k : Construct} {m : Match}
    (hk : k ≠ .annotated) (h : k.matchAt b cursor i = some m) : m.start = i := by
  cases k with
  | literal kind =>
    obtain ⟨l, hl, -, rfl⟩ := matchAt_literal h
    exact start_of_literalAt hl
  | ambient => exact (ambientPatch_fits h).2.1
  | typeAlias => exact (typeAliasPatch_fits h).2.1
  | interface => exact (interfacePatch_fits h).2.1
  | classMembers => exact (classMembersPatch_fits h).2.1
  | typeArguments => exact (typeArgumentsPatch_fits h).2.1
  | returnType => exact (returnTypePatch_fits h).2.1
  | annotated => exact (hk rfl).elim
  | cast => exact (castPatch_fits h).2.1

/-! ### Between a marker and its colon -/

/-- A parameter list ends with its bracket, and not with a marker or a name. Before the colon only
whitespace follows the ink, so that the trimmed text ends with it. -/
theorem not_followsParameters_of_ink {b : Bytes} {last colon : Nat} {p : Byte → Bool}
    (hlast : b.satAt last p = true) (hink : Byte.Excludes p Byte.isSpace)
    (hround : p (Byte.ofChar ')') = false) (hlt : last < colon)
    (hspace : ∀ j, last < j → j < colon → b.satAt j Byte.isSpace = true) :
    followsParameters b colon = false := by
  rw [Bool.eq_false_iff]
  intro hfollows
  simp only [followsParameters, Bytes.isBefore, Bool.and_eq_true, decide_eq_true_eq] at hfollows
  obtain ⟨⟨-, hclose⟩, -⟩ := hfollows
  -- the trimmed text ends at the ink or behind it
  have hstart := Bytes.lt_trimEnd_of_not_isSpace 0 hlt (Bytes.satAt_eq_false hlast hink)
  have hle := b.trimEnd_le 0 colon
  -- the bracket is the last ink, or stands in the whitespace behind it
  rcases Nat.lt_or_eq_of_le hstart with hgt | heq
  · rw [Bytes.isAt_eq_false (hspace _ (by omega) (by omega)) rfl] at hclose
    simp at hclose
  · rw [← heq, Nat.succ_sub_one, Bytes.isAt_eq_false hlast hround] at hclose
    simp at hclose

namespace Sign

variable {b : Bytes} {s : Nat} {q : Construct}

/-- **No sign but that of an annotation stands between a marker and its colon.** Such a sign would
stand in the whitespace between the two or at the colon. One case for each sign: most start with a
byte that is neither, a blank has a letter behind it, and a return type would have its colon behind
a marker. -/
theorem lt_of_marker (h : Sign b s q) (hq : q ≠ .annotated) {start colon : Nat}
    (hmark : b.satAt start (·.among ['?', '!']) = true)
    (hspace : ∀ j, start < j → j < colon → b.satAt j Byte.isSpace = true)
    (hcolon : b.isAt colon ':' = true) (hlt : start < s) : colon < s := by
  apply Nat.lt_of_not_le
  intro hle
  -- between the two there is whitespace only
  have hnot {j : Nat} {p : Byte → Bool} (hj : start < j) (hjc : j ≤ colon)
      (hp : b.satAt j p = true)
      (hspaces : [' ', '\t', '\n', '\x0c', '\r'].all (fun ch => !p (Byte.ofChar ch)) = true)
      (hsign : p (Byte.ofChar ':') = false) : False := by
    rcases Nat.lt_or_eq_of_le hjc with hjc | rfl
    · have hout := Bytes.satAt_eq_false hp (Byte.excludes_isSpace hspaces)
      rw [hspace j hj hjc] at hout
      simp at hout
    · rw [Bytes.isAt_eq_false hp hsign] at hcolon
      simp at hcolon
  -- a blank before a letter is not the last one before the colon
  have hblank (hs : b.satAt s Byte.isBlank = true) (hnext : b.satAt (s + 1) Byte.isLetter = true) :
      False := by
    have hne : s ≠ colon := by
      rintro rfl
      rw [Bytes.isAt_eq_false hs rfl] at hcolon
      simp at hcolon
    exact hnot (by omega) (by omega) hnext rfl rfl
  cases h with
  | literal opens => exact hnot hlt hle opens rfl rfl
  | statement keyword word place =>
    obtain ⟨hw, hpos⟩ := Construct.keyword?_spec keyword
    rcases place with rfl | ⟨hexport, -⟩
    · exact hnot hlt hle (isLetter_of_keywordAt word hw hpos) rfl rfl
    · exact hnot hlt hle (isLetter_of_keywordAt hexport rfl (by decide)) rfl rfl
  | classMembers word first =>
    rcases first with hfirst | ⟨hs, hnext⟩
    · exact hnot hlt hle hfirst rfl rfl
    · exact hblank hs hnext
  | typeArguments angle => exact hnot hlt hle (p := (·.is '<')) angle rfl rfl
  | returnType colon' follows =>
    -- no colon stands in the whitespace, so this one is the colon of the marker
    obtain rfl : s = colon := by
      apply Nat.le_antisymm hle
      apply Nat.le_of_not_lt
      intro hsc
      rw [Bytes.isAt_eq_false (hspace s hlt hsc) rfl] at colon'
      simp at colon'
    rw [not_followsParameters_of_ink hmark (Byte.excludes_isSpace rfl) rfl hlt hspace] at follows
    simp at follows
  | annotated => exact hq rfl
  | cast blank word => exact hblank blank (isLetter_of_keywordAt word rfl (by decide))

/-- **What is given away at or behind a sign starts at or behind it**, unless the sign is that of an
annotation. What is no annotation starts where it is given away, and for an annotation this is
`lt_of_marker`. -/
theorem le_start (h : Sign b s q) (hq : q ≠ .annotated) {k : Construct} {cursor j : Nat} {m : Match}
    (hat : k.matchAt b cursor j = some m) (hj : s ≤ j) : s ≤ m.start := by
  by_cases hk : k = .annotated
  · subst hk
    -- an annotation starts at its colon, or at a marker with only whitespace between the two
    obtain ⟨start, annotated, hcolon, hof, -, rfl, -⟩ := annotationAt_cases hat
    have his := isAt_of_isColon hcolon
    rcases annotationOf_cases hof (Nat.le_of_lt (Bytes.lt_size_of_isAt his)) with
      rfl | ⟨hmark, -, hspace⟩
    · exact hj
    · apply Nat.le_of_not_lt
      intro hlt
      have := h.lt_of_marker hq hmark hspace his hlt
      omega
  · rw [start_of_matchAt hk hat]
    exact hj

end Sign

/-! ### A narrower search -/

/-- **A narrower search finds what starts before its limit**, if nothing is given away behind the
limit that starts before it. Both searches go forward through the same offsets, so that they agree
up to the limit. -/
theorem Construct.detect_eq_filter {k : Construct} {b : Bytes} {cursor limit : Nat}
    (hlimit : limit ≤ b.size)
    (h : ∀ j m, k.matchAt b cursor j = some m → limit ≤ j → limit ≤ m.start) :
    k.detect b cursor limit = (k.detect b cursor b.size).filter (·.start < limit) := by
  cases hfull : k.detect b cursor b.size with
  | none =>
    -- the narrower search looks at fewer offsets
    rw [Option.filter_none, Option.eq_none_iff_forall_ne_some]
    intro m hm
    obtain ⟨j, hj, hlt, hat⟩ := exists_of_firstIn_eq_some hm
    rw [firstIn_eq_none hfull j hj (by omega)] at hat
    simp at hat
  | some m =>
    obtain ⟨j, hj, -, hat, hfirst⟩ := firstIn_eq_some_iff.mp hfull
    by_cases hlt : j < limit
    · -- the match is within the limit, and so is its start
      have hstart := (patchOf_layout hj hat).2.1
      rw [Option.filter_some, if_pos (decide_eq_true (by omega))]
      exact firstIn_eq_some_iff.mpr ⟨j, hj, hlt, hat, hfirst⟩
    · -- the match starts behind the limit, and nothing is given away before it
      have hstart := h j m hat (by omega)
      rw [Option.filter_some, if_neg (by simpa using hstart),
        Option.eq_none_iff_forall_ne_some]
      intro n hn
      obtain ⟨i, hi, hilt, hiat⟩ := exists_of_firstIn_eq_some hn
      rw [hfirst i hi (by omega)] at hiat
      simp at hiat

/-! ### The order of matches -/

/-- The place of the construct in the order of precedence. -/
def Construct.rank (k : Construct) : Nat :=
  all.idxOf k

/-- **The match comes first**: it starts earlier, or at the same offset and with no lower
precedence. -/
def Match.Precedes (m n : Match) : Prop :=
  m.start < n.start ∨ m.start = n.start ∧ m.kind.rank ≤ n.kind.rank

private theorem Construct.pairwise_rank_lt : all.Pairwise fun q k => q.rank < k.rank := by
  decide

private theorem Construct.rank_injective {q k : Construct} (h : q.rank = k.rank) : q = k :=
  (List.idxOf_inj (mem_all q)).mp h

/-- Literals come before all other constructs. -/
theorem Construct.rank_literal_lt {kind : LiteralKind} {k : Construct}
    (hk : k.literalKind? = none) : (literal kind).rank < k.rank := by
  cases k with
  | literal => simp [literalKind?] at hk
  | _ => cases kind <;> decide

/-- Two matches that precede each other are of one kind. -/
private theorem Match.Precedes.antisymm {m n : Match} (hmn : m.Precedes n) (hnm : n.Precedes m) :
    m.kind = n.kind := by
  unfold Precedes at hmn hnm
  exact Construct.rank_injective (by omega)

/-- A search for a construct finds matches of its kind. -/
private theorem kind_of_detect {k : Construct} {b : Bytes} {cursor limit : Nat} {m : Match}
    (h : k.detect b cursor limit = some m) : m.kind = k := by
  obtain ⟨j, -, -, hat⟩ := exists_of_firstIn_eq_some h
  exact kind_of_matchAt hat

/-- `best` comes first among the matches that the constructs `ks` have in the whole text. -/
structure Rules.IsFirst (r : Rules) (b : Bytes) (cursor : Nat) (ks : List Construct)
    (best : Option Match) : Prop where
  /-- It is one of these matches. -/
  found : ∀ m, best = some m →
    m.kind ∈ ks ∧ r.enables m.kind = true ∧ m.kind.detect b cursor b.size = some m
  /-- If there is any of these matches, it precedes it. -/
  precedes : ∀ k ∈ ks, r.enables k = true → ∀ n, k.detect b cursor b.size = some n →
    ∃ m, best = some m ∧ m.Precedes n

namespace Rules.IsFirst

variable {r : Rules} {b : Bytes} {cursor : Nat} {ks : List Construct} {best : Option Match}

/-- The limit lies within the text. -/
theorem limit_le (h : r.IsFirst b cursor ks best) : searchLimit b best ≤ b.size := by
  cases best with
  | none => exact Nat.le_refl _
  | some m =>
    obtain ⟨j, hj, hlt, hat⟩ := exists_of_firstIn_eq_some (h.found m rfl).2.2
    exact Nat.le_trans (patchOf_layout hj hat).2.1 (Nat.le_of_lt hlt)

/-- **The limit does not hide a match that starts before it.** It could hide one only if that
started before it and was given away behind it, which an annotation alone can do. When annotations
are searched for, the limit is the sign of another construct, and `Sign.le_start` says that nothing
reaches over it. -/
theorem detect_eq (h : r.IsFirst b cursor ks best) {k : Construct}
    (hk : ∀ q ∈ ks, q.rank < k.rank) :
    k.detect b cursor (searchLimit b best) =
      (k.detect b cursor b.size).filter (·.start < searchLimit b best) := by
  refine Construct.detect_eq_filter h.limit_le fun j n hat hj => ?_
  by_cases hann : k = .annotated
  · cases best with
    | none =>
      -- there is no colon behind the text
      subst hann
      obtain ⟨-, -, hcolon, -⟩ := annotationAt_cases hat
      have := Bytes.lt_size_of_isAt (isAt_of_isColon hcolon)
      exact absurd hj (Nat.not_le.mpr this)
    | some m =>
      obtain ⟨hmem, -, hdetect⟩ := h.found m rfl
      -- annotations are searched for last, so what was found is no annotation
      have hne : m.kind ≠ .annotated := by
        intro heq
        have := hk m.kind hmem
        rw [heq, hann] at this
        omega
      obtain ⟨i, -, -, hmat⟩ := exists_of_firstIn_eq_some hdetect
      obtain rfl := start_of_matchAt hne hmat
      exact (sign_of_matchAt hmat).le_start hne hat hj
  · rw [start_of_matchAt hann hat]
    exact hj

/-- One more construct is searched for. The new match takes the place of the best one if it starts
before it, and comes after it otherwise, since its precedence is lower than that of all before. -/
theorem improve (h : r.IsFirst b cursor ks best) {k : Construct}
    (hk : ∀ q ∈ ks, q.rank < k.rank) :
    r.IsFirst b cursor (ks ++ [k]) (r.improve b cursor best k) := by
  have hmem {q : Construct} : q ∈ ks ++ [k] ↔ q ∈ ks ∨ q = k := by simp
  -- if the new construct is not found, the best match stays
  have hstays (hnone : r.enables k = true → ∀ n, k.detect b cursor b.size = some n →
      ∃ m, best = some m ∧ m.Precedes n) : r.IsFirst b cursor (ks ++ [k]) best := by
    refine ⟨fun m hm => ?_, fun q hq hon n hn => ?_⟩
    · obtain ⟨hin, hfound⟩ := h.found m hm
      exact ⟨hmem.mpr (.inl hin), hfound⟩
    · rcases hmem.mp hq with hq | rfl
      · exact h.precedes q hq hon n hn
      · exact hnone hon n hn
  unfold Rules.improve
  by_cases hon : r.enables k = true
  · rw [if_pos hon, show best.elim b.size (·.start) = searchLimit b best from rfl, h.detect_eq hk]
    cases hfull : k.detect b cursor b.size with
    | none =>
      rw [Option.filter_none, Option.none_or]
      exact hstays fun _ n hn => by simp [hfull] at hn
    | some n =>
      have hkind := kind_of_detect hfull
      by_cases hlt : n.start < searchLimit b best
      · -- the new match starts before all others
        rw [Option.filter_some, if_pos (decide_eq_true hlt), Option.some_or]
        refine ⟨?_, fun q hq hqon n' hn' => ⟨n, rfl, ?_⟩⟩
        · intro m hm
          obtain rfl := Option.some.inj hm
          rw [hkind]
          exact ⟨hmem.mpr (.inr rfl), hon, hfull⟩
        · rcases hmem.mp hq with hq | rfl
          · obtain ⟨m, rfl, hprec⟩ := h.precedes q hq hqon n' hn'
            have hlt : n.start < m.start := hlt
            unfold Match.Precedes at hprec ⊢
            omega
          · obtain rfl := Option.some.inj (hfull.symm.trans hn')
            exact .inr ⟨rfl, Nat.le_refl _⟩
      · -- the best match starts no later, and it comes first by precedence
        rw [Option.filter_some, if_neg (by simpa using hlt), Option.none_or]
        refine hstays fun _ n' hn' => ?_
        obtain rfl := Option.some.inj (hfull.symm.trans hn')
        cases best with
        | none =>
          -- without a limit the search is that of the whole text
          obtain ⟨j, hj, hjlt, hat⟩ := exists_of_firstIn_eq_some hfull
          exact absurd (Nat.lt_of_le_of_lt (patchOf_layout hj hat).2.1 hjlt) hlt
        | some m =>
          have hle : m.start ≤ n.start := Nat.le_of_not_lt hlt
          have hrank := hk m.kind (h.found m rfl).1
          refine ⟨m, rfl, ?_⟩
          unfold Match.Precedes
          rw [hkind]
          omega
  · -- a construct that is switched off is not searched for
    rw [if_neg hon]
    exact hstays fun h' => absurd h' hon

/-- The constructs are searched for by precedence. By induction on the constructs that are left. -/
theorem foldl (h : r.IsFirst b cursor ks best) (more : List Construct)
    (hrank : (ks ++ more).Pairwise fun q k => q.rank < k.rank) :
    r.IsFirst b cursor (ks ++ more) (more.foldl (r.improve b cursor) best) := by
  induction more generalizing ks best with
  | nil => rwa [List.append_nil]
  | cons k more ih =>
    -- the constructs so far are those of higher precedence
    have hk : ∀ q ∈ ks, q.rank < k.rank := fun q hq =>
      (List.pairwise_append.mp hrank).2.2 q hq k List.mem_cons_self
    have := ih (h.improve hk) (by rwa [List.append_assoc])
    rwa [List.append_assoc] at this

theorem nil (r : Rules) (b : Bytes) (cursor : Nat) : r.IsFirst b cursor [] none :=
  ⟨fun m hm => by simp at hm, fun k hk => by simp at hk⟩

end Rules.IsFirst

/-! ### The next construct -/

private theorem Rules.nextMatch_isFirst_all (r : Rules) (b : Bytes) (cursor : Nat) :
    r.IsFirst b cursor Construct.all (r.nextMatch b cursor) :=
  (IsFirst.nil r b cursor).foldl Construct.all Construct.pairwise_rank_lt

/-- **The next construct is the first by start and precedence** of what a search of the whole text
finds. The match that the search gives is one such match, and there are no two of them. -/
theorem Rules.nextMatch_eq_some_iff {r : Rules} {b : Bytes} {cursor : Nat} {m : Match} :
    r.nextMatch b cursor = some m ↔
      (r.enables m.kind = true ∧ m.kind.detect b cursor b.size = some m) ∧
        ∀ k n, r.enables k = true → k.detect b cursor b.size = some n → m.Precedes n := by
  have hfirst := r.nextMatch_isFirst_all b cursor
  constructor
  · intro h
    refine ⟨(hfirst.found m h).2, fun k n hon hn => ?_⟩
    obtain ⟨m', hm', hprec⟩ := hfirst.precedes k (Construct.mem_all k) hon n hn
    obtain rfl := Option.some.inj (h.symm.trans hm')
    exact hprec
  · rintro ⟨⟨hon, hm⟩, hprec⟩
    obtain ⟨m', hm', hprec'⟩ := hfirst.precedes m.kind (Construct.mem_all _) hon m hm
    obtain ⟨-, hon', hfound⟩ := hfirst.found m' hm'
    -- two matches that precede each other are of one kind, and each kind has one first match
    have hkind := (hprec m'.kind m' hon' hfound).antisymm hprec'
    rw [← hkind, hm] at hfound
    rw [hm', hfound]

/-- **There is no next construct** if none is found in the whole text. -/
theorem Rules.nextMatch_eq_none_iff {r : Rules} {b : Bytes} {cursor : Nat} :
    r.nextMatch b cursor = none ↔
      ∀ k, r.enables k = true → k.detect b cursor b.size = none := by
  have hfirst := r.nextMatch_isFirst_all b cursor
  constructor
  · intro h k hon
    rw [Option.eq_none_iff_forall_ne_some]
    intro n hn
    obtain ⟨m, hm, -⟩ := hfirst.precedes k (Construct.mem_all k) hon n hn
    rw [h] at hm
    simp at hm
  · intro h
    rw [Option.eq_none_iff_forall_ne_some]
    intro m hm
    obtain ⟨-, hon, hfound⟩ := hfirst.found m hm
    rw [h m.kind hon] at hfound
    simp at hfound

/-- **Narrowing the search does not change its outcome.** The next construct is the first by start
and precedence of what each enabled construct has in the whole text, and there is none if there is
no such match. The limit at which annotations are searched for lies behind the colon of every
annotation that starts before it, so that none of these is missed. -/
theorem nextMatch_isFirst (r : Rules) (b : Bytes) (cursor : Nat) :
    (∀ m, r.nextMatch b cursor = some m ↔
      (r.enables m.kind = true ∧ m.kind.detect b cursor b.size = some m) ∧
        ∀ k n, r.enables k = true → k.detect b cursor b.size = some n → m.Precedes n) ∧
    (r.nextMatch b cursor = none ↔
      ∀ k, r.enables k = true → k.detect b cursor b.size = none) ∧
    let limit := searchLimit b
      ((Construct.all.takeWhile (· ≠ .annotated)).foldl (r.improve b cursor) none)
    ∀ m, Construct.annotated.detect b cursor b.size = some m → m.start < limit →
      m.stop ≤ limit ∧ Construct.annotated.detect b cursor limit = some m := by
  refine ⟨fun _ => Rules.nextMatch_eq_some_iff, Rules.nextMatch_eq_none_iff, ?_⟩
  intro limit m hm hlt
  -- what is searched for before annotations sets the limit
  have hbefore := (Rules.IsFirst.nil r b cursor).foldl
    (Construct.all.takeWhile (· ≠ .annotated)) (by decide)
  have hnarrow := hbefore.detect_eq (k := .annotated) (by decide)
  rw [hm, Option.filter_some, if_pos (decide_eq_true hlt)] at hnarrow
  refine ⟨?_, hnarrow⟩
  obtain ⟨j, -, hj, hat⟩ := exists_of_firstIn_eq_some hnarrow
  obtain ⟨start, -, -, -, -, rfl, -⟩ := annotationAt_cases hat
  exact hj

/-- An annotation whose marker is parted from its colon, with a list of type arguments right behind
it: the list sets the limit, and the annotation is still found. -/
theorem nextMatch_isFirst_marker :
    let b := Bytes.ofString "f(a ?\n :T<U>())"
    let m : Match := ⟨.annotated, ⟨4, 8⟩⟩
    let limit := searchLimit b
      ((Construct.all.takeWhile (· ≠ .annotated)).foldl (Rules.improve {} b 0) none)
    limit = 9 ∧ Construct.annotated.detect b 0 b.size = some m ∧
      Rules.nextMatch {} b 0 = some m ∧
      m.stop ≤ limit ∧ Construct.annotated.detect b 0 limit = some m := by
  intro b m limit
  have hlimit : limit = 9 := by decide +kernel
  have hm : Construct.annotated.detect b 0 b.size = some m := by decide +kernel
  have hnext : Rules.nextMatch {} b 0 = some m := by decide +kernel
  have hlt : m.start < limit := by
    rw [hlimit]
    decide
  exact ⟨hlimit, hm, hnext, (nextMatch_isFirst {} b 0).2.2 m hm hlt⟩

end TypeErasure
