import TypeErasure.Grammar
import TypeErasure.Proofs.Layout.Class

/-!
# The laws of a grammar

The next construct of a text is the first one that is given away at or after the cursor
(`Rules.nextMatch_best`), and its patch divides it (`patchOf_layout`). `Grammar.Lawful` collects
what a run relies on:

* the next construct starts at or after the cursor, and no string, template or comment starts before
  it, so that it stands on the path of a scan from the cursor;
* its patch divides the bytes from its start to its end, and there is at least one;
* unless it is a regular expression, its end is next to the path.

`Rules.grammar_lawful` proves them for every choice of rules. All else that is said about runs is
said about lawful grammars.
-/

namespace TypeErasure

/-! ### What is recognised at an offset -/

/-- A literal starts where it is found, and only a slash opens a regular expression. The tests of
`literalAt` are gone through once, and both facts are read off each branch; later proofs use this
lemma and do not unfold the classification again. -/
theorem literalAt_spec {b : Bytes} {i : Nat} {l : Literal} (h : literalAt b i = some l) :
    l.span.start = i ∧ (l.kind = .regex → b.isAt i '/' = true) := by
  -- a literal that is closed by a delimiter starts where it was looked for, and is no expression
  have hclosed {kind : LiteralKind} (hkind : kind ≠ .regex) {close : Option Nat}
      (h : some (Literal.closedBy kind b i close) = some l) :
      l.span.start = i ∧ (l.kind = .regex → b.isAt i '/' = true) := by
    obtain rfl := Option.some.inj h
    rw [Literal.start_closedBy, Literal.kind_closedBy]
    exact ⟨rfl, fun hregex => absurd hregex hkind⟩
  unfold literalAt at h
  split at h
  · simp at h
  · rename_i c hc
    -- the slash opens a comment or an expression, and each of the other delimiters a literal of its
    -- kind
    split at h
    · rename_i hslash
      refine ⟨?_, fun _ => (Bytes.satAt_of_getElem? hc (·.is '/')).trans hslash⟩
      split at h
      · obtain rfl := Option.some.inj h
        rfl
      · split at h
        · exact (hclosed (by simp) h).1
        · obtain ⟨stop, -, rfl⟩ := Option.map_eq_some_iff.mp h
          rfl
    · split at h
      · exact hclosed (by simp) h
      · split at h
        · exact hclosed (by simp) h
        · simp at h

/-- A literal starts where it is found, whatever its kind. -/
theorem start_of_literalAt {b : Bytes} {i : Nat} {l : Literal} (h : literalAt b i = some l) :
    l.span.start = i :=
  (literalAt_spec h).1

/-- Where the byte is no slash, quote or backtick, no literal of any kind starts: an inert one would
be seen by `inertStop`, and a regular expression starts with a slash. -/
theorem literalAt_eq_none_of_not_opensInert {b : Bytes} {i : Nat}
    (h : b.satAt i Byte.opensInert = false) : literalAt b i = none := by
  rw [Option.eq_none_iff_forall_ne_some]
  intro l hl
  -- a regular expression starts with a slash, and any other literal is inert
  by_cases hkind : l.kind = .regex
  · rw [Bytes.satAt_of_isAt ((literalAt_spec hl).2 hkind)] at h
    simp [Byte.ofChar, Byte.opensInert, Byte.among, Byte.is] at h
  · have hstop := inertStop_of_literalAt hl hkind
    rw [inertStop_eq_none h] at hstop
    simp at hstop

/-- A construct that has a kind of literal is the literal of that kind. -/
theorem Construct.eq_literal {k : Construct} {kind : LiteralKind} (h : k.literalKind? = some kind) :
    k = .literal kind := by
  cases k with
  | literal => simpa [literalKind?] using h
  | _ => simp [literalKind?] at h

/-- A literal that is recognised is the literal that starts there. The filter on the kind and the
map to a match are inverted once. -/
theorem matchAt_literal {b : Bytes} {cursor i : Nat} {kind : LiteralKind} {m : Match}
    (h : (Construct.literal kind).matchAt b cursor i = some m) :
    ∃ l, literalAt b i = some l ∧ l.kind = kind ∧ m = ⟨.literal kind, l.span⟩ := by
  obtain ⟨l, hl, rfl⟩ := Option.map_eq_some_iff.mp h
  obtain ⟨hat, hkind⟩ := Option.filter_eq_some_iff.mp hl
  exact ⟨l, hat, by simpa using hkind, rfl⟩

/-- What is done to an answer can be done behind the search. The induction follows the search, which
asks `f` at the same offsets on both sides. -/
private theorem firstIn_map {α β : Type} (f : Nat → Option α) (g : α → β) (lo hi : Nat) :
    firstIn (fun i => (f i).map g) lo hi = (firstIn f lo hi).map g := by
  fun_induction firstIn f lo hi with
  | case1 lo hlo a ha => rw [firstIn, if_pos hlo, ha]; rfl
  | case2 lo hlo hnone ih =>
    rw [firstIn, if_pos hlo, hnone]
    exact ih
  | case3 lo hlo => rw [firstIn, if_neg hlo]; rfl

/-- **The literals that a run detects are those that `findLiteral` finds**, with their spans. The
bound on the limit is what lets the search forget that it stops at the end of the text. -/
theorem detect_literal (b : Bytes) (cursor : Nat) {limit : Nat} (hlimit : limit ≤ b.size)
    (kind : LiteralKind) :
    (Construct.literal kind).detect b cursor limit =
      (findLiteral b kind cursor limit).map fun l => ⟨.literal kind, l.span⟩ := by
  rw [findLiteral, Nat.min_eq_left hlimit, ← firstIn_map]
  rfl

/-- A match has the kind of construct that was looked for. One case for each construct; each of the
lemmas on patches says so of its own kind. -/
theorem kind_of_matchAt {b : Bytes} {cursor i : Nat} {k : Construct} {m : Match}
    (h : k.matchAt b cursor i = some m) : m.kind = k := by
  cases k with
  | literal kind =>
    obtain ⟨l, -, -, rfl⟩ := matchAt_literal h
    rfl
  | ambient => exact (ambientPatch_fits h).1
  | typeAlias => exact (typeAliasPatch_fits h).1
  | interface => exact (interfacePatch_fits h).1
  | classMembers => exact (classMembersPatch_fits h).1
  | typeArguments => exact (typeArgumentsPatch_fits h).1
  | returnType => exact (returnTypePatch_fits h).1
  | annotated => exact (annotationPatch_fits h).1
  | cast => exact (castPatch_fits h).1

/-- **The patch of every construct but a regular expression fits.** One case for each construct. A
literal is one kept segment and one step of the path; the others have been dealt with in the modules
on layouts. A regular expression has to be left out, since a scan goes through it byte by byte and
need not come to its end. -/
theorem patchOf_fits {b : Bytes} {cursor i : Nat} {k : Construct} {m : Match} (hcursor : cursor ≤ i)
    (h : k.matchAt b cursor i = some m) (hk : k ≠ .literal .regex) :
    cursor ≤ m.start ∧ m.start ≤ i ∧ (patchOf b m).Fits b m.start := by
  -- most constructs start where they are given away
  have hat {q : Patch} (hspec : m.kind = k ∧ m.start = i ∧ q.Fits b i) (hq : patchOf b m = q) :
      cursor ≤ m.start ∧ m.start ≤ i ∧ (patchOf b m).Fits b m.start := by
    obtain ⟨-, rfl, hfits⟩ := hspec
    exact ⟨hcursor, Nat.le_refl _, hq ▸ hfits⟩
  cases k with
  | literal kind =>
    obtain ⟨l, hl, rfl, rfl⟩ := matchAt_literal h
    have hstart : (Match.mk (.literal l.kind) l.span).start = i := start_of_literalAt hl
    have hstop := lt_stop_of_literalAt hl
    have hscan := Scans.inert (inertStop_of_literalAt hl fun hregex => hk (by rw [hregex]))
    rw [hstart]
    refine ⟨hcursor, Nat.le_refl i, ?_, hstop, hscan.settles⟩
    show Layout b i i [.keep b l.span.start l.span.stop] l.span.stop
    rw [start_of_literalAt hl]
    exact .keep (Nat.le_of_lt hstop) (stop_le_of_literalAt hl) (.nil _)
  | ambient => exact hat (ambientPatch_fits h) (by rw [patchOf, (ambientPatch_fits h).1])
  | typeAlias => exact hat (typeAliasPatch_fits h) (by rw [patchOf, (typeAliasPatch_fits h).1])
  | interface => exact hat (interfacePatch_fits h) (by rw [patchOf, (interfacePatch_fits h).1])
  | classMembers =>
    exact hat (classMembersPatch_fits h) (by rw [patchOf, (classMembersPatch_fits h).1])
  | typeArguments =>
    exact hat (typeArgumentsPatch_fits h) (by rw [patchOf, (typeArgumentsPatch_fits h).1])
  | returnType => exact hat (returnTypePatch_fits h) (by rw [patchOf, (returnTypePatch_fits h).1])
  | annotated =>
    obtain ⟨hkind, hle, hi, hfits⟩ := annotationPatch_fits h
    exact ⟨hle, hi, by rw [patchOf, hkind]; exact hfits⟩
  | cast => exact hat (castPatch_fits h) (by rw [patchOf, (castPatch_fits h).1])

/-- **The patch of every construct divides it**, and a regular expression is kept as it is. A
regular expression does not fit, but its single segment still divides it; all else is part of
`patchOf_fits`. -/
theorem patchOf_layout {b : Bytes} {cursor i : Nat} {k : Construct} {m : Match}
    (hcursor : cursor ≤ i) (h : k.matchAt b cursor i = some m) :
    cursor ≤ m.start ∧ m.start ≤ i ∧
      Layout b m.start m.start (patchOf b m).segments (patchOf b m).stop ∧
      m.start < (patchOf b m).stop := by
  by_cases hk : k = .literal .regex
  · -- a regular expression is kept as it is, in one segment
    subst hk
    obtain ⟨l, hl, hkind, rfl⟩ := matchAt_literal h
    have hstart := start_of_literalAt hl
    have hstop : l.span.start < l.span.stop := hstart.symm ▸ lt_stop_of_literalAt hl
    exact ⟨Nat.le_trans hcursor (Nat.le_of_eq hstart.symm), Nat.le_of_eq hstart,
      .keep (Nat.le_of_lt hstop) (stop_le_of_literalAt hl) (.nil _), hstop⟩
  · obtain ⟨hle, hi, hfits⟩ := patchOf_fits hcursor h hk
    exact ⟨hle, hi, hfits.layout, hfits.lt_stop⟩

/-! ### The next construct -/

/-- A search without an answer found none anywhere in its range. -/
theorem firstIn_eq_none {α : Type} {f : Nat → Option α} {lo hi : Nat} (h : firstIn f lo hi = none) :
    ∀ i, lo ≤ i → i < hi → f i = none := by
  fun_induction firstIn f lo hi with
  | case1 _ _ a => simp at h
  | case2 lo _ hnone ih =>
    intro i hi hlt
    rcases Nat.eq_or_lt_of_le hi with rfl | hgt
    · exact hnone
    · exact ih h i hgt hlt
  | case3 => intro i _ _; omega

/-- Where the best match so far starts; without one, the end of the text. -/
def searchLimit (b : Bytes) (best : Option Match) : Nat :=
  best.elim b.size (·.start)

/-- `best` is the outcome of the search among the constructs `ks`: it is one of their matches, and
none of them is given away before it. -/
structure Rules.Best (r : Rules) (b : Bytes) (cursor : Nat) (ks : List Construct)
    (best : Option Match) : Prop where
  /-- The match is one of those that were searched for. -/
  found : ∀ m, best = some m →
    ∃ k i, r.enables k = true ∧ cursor ≤ i ∧ i < b.size ∧ k.matchAt b cursor i = some m
  /-- There is none before it. -/
  first : ∀ k ∈ ks, r.enables k = true → ∀ i, cursor ≤ i → i < searchLimit b best →
    k.matchAt b cursor i = none
  /-- The search ends within the text. -/
  limit_le : searchLimit b best ≤ b.size

/-- One more construct is searched for. This is the step of the induction that follows. The search
for the new construct ends where the best match so far starts, so a match that it finds is earlier,
and the other constructs have none before that either. -/
theorem Rules.Best.improve {r : Rules} {b : Bytes} {cursor : Nat} {ks : List Construct}
    {best : Option Match} (h : r.Best b cursor ks best) (k : Construct) :
    r.Best b cursor (ks ++ [k]) (r.improve b cursor best k) := by
  have hmem {q : Construct} (hq : q ∈ ks ++ [k]) : q ∈ ks ∨ q = k := by simpa using hq
  unfold Rules.improve
  -- a construct that is switched off changes nothing; of the others, only an earlier match counts
  by_cases hon : r.enables k = true
  · rw [if_pos hon]
    cases hfound : k.detect b cursor (best.elim b.size (·.start)) with
    | none =>
      rw [Option.none_or]
      -- nothing new before the limit, so the limit stays
      refine ⟨h.found, fun q hq hqon i hi hlt => ?_, h.limit_le⟩
      rcases hmem hq with hq | rfl
      · exact h.first q hq hqon i hi hlt
      · exact firstIn_eq_none hfound i hi hlt
    | some m =>
      rw [Option.some_or]
      obtain ⟨j, hj, hlim, hat, hnone⟩ := firstIn_eq_some_iff.mp hfound
      have hlim : j < searchLimit b best := hlim
      have hsize := Nat.lt_of_lt_of_le hlim h.limit_le
      -- the new match starts no later than where it is given away
      have hstart := (patchOf_layout hj hat).2.1
      refine ⟨?_, fun q hq hqon i hi hlt => ?_, Nat.le_trans hstart (Nat.le_of_lt hsize)⟩
      · intro m' hm'
        obtain rfl := Option.some.inj hm'
        exact ⟨k, j, hon, hj, hsize, hat⟩
      · have hij : i < j := Nat.lt_of_lt_of_le hlt hstart
        rcases hmem hq with hq | rfl
        · exact h.first q hq hqon i hi (Nat.lt_trans hij hlim)
        · exact hnone i hi hij
  · rw [if_neg hon]
    refine ⟨h.found, fun q hq hqon i hi hlt => ?_, h.limit_le⟩
    rcases hmem hq with hq | rfl
    · exact h.first q hq hqon i hi hlt
    · exact absurd hqon hon

/-- Any number of constructs is searched for, one after the other, and the outcome stays the best of
all. -/
theorem Rules.Best.foldl {r : Rules} {b : Bytes} {cursor : Nat} {ks : List Construct}
    {best : Option Match} (h : r.Best b cursor ks best) (more : List Construct) :
    r.Best b cursor (ks ++ more) (more.foldl (r.improve b cursor) best) := by
  induction more generalizing ks best with
  | nil => rwa [List.append_nil]
  | cons k more ih =>
    have := ih (h.improve k)
    rwa [List.append_assoc] at this

/-- **The next construct is the first one**, of all that the rules enable. The search starts with no
construct and no match, where nothing has to be shown, and is improved by each construct in turn. -/
theorem Rules.nextMatch_best (r : Rules) (b : Bytes) (cursor : Nat) :
    r.Best b cursor Construct.all (r.nextMatch b cursor) := by
  have hnone : r.Best b cursor [] none :=
    ⟨fun m hm => by simp at hm, fun k hk => by simp at hk, Nat.le_refl _⟩
  exact hnone.foldl Construct.all

/-- No literal starts between the cursor and the next construct. Literals are among the constructs,
and no rule switches them off. -/
theorem Rules.literalAt_eq_none_of_nextMatch {r : Rules} {b : Bytes} {cursor i : Nat} {m : Match}
    (h : r.nextMatch b cursor = some m) (hi : cursor ≤ i) (hlt : i < m.start) :
    literalAt b i = none := by
  have hbest := r.nextMatch_best b cursor
  rw [h] at hbest
  cases hl : literalAt b i with
  | none => rfl
  | some l =>
    -- literals are always enabled, so this one would have been found
    have := hbest.first (.literal l.kind) (Construct.mem_all _) rfl i hi hlt
    simp [Construct.matchAt, hl] at this

/-! ### The laws -/

/-- **What a run relies on.** -/
structure Grammar.Lawful (g : Grammar) : Prop where
  /-- The next construct does not start before the cursor. -/
  le_start : ∀ {b cursor m}, g.next b cursor = some m → cursor ≤ m.start
  /-- The patch of a construct divides it. -/
  layout : ∀ {b cursor m}, g.next b cursor = some m →
    Layout b m.start m.start (g.patch b m).segments (g.patch b m).stop
  /-- A construct is not empty. -/
  lt_stop : ∀ {b cursor m}, g.next b cursor = some m → m.start < (g.patch b m).stop
  /-- A construct starts within the text. -/
  lt_size : ∀ {b cursor m}, g.next b cursor = some m → m.start < b.size
  /-- No inert literal starts between the cursor and the construct. -/
  scans : ∀ {b cursor m}, g.next b cursor = some m → Scans b cursor m.start
  /-- Without regular expressions, the path goes on behind the construct. -/
  settles : ∀ {b cursor m}, g.next b cursor = some m → Clean b cursor →
    Settles b m.start (g.patch b m).stop

/-- **The grammar of typed source text is lawful**, whatever the rules. The next construct is a
match at some offset by `Rules.nextMatch_best`, so the laws on its place and its patch are those of
`patchOf_layout`. That it is on the path holds because no literal starts before it; that the path
goes on behind it is `patchOf_fits`, once regular expressions are excluded. -/
theorem Rules.grammar_lawful (r : Rules) : r.grammar.Lawful := by
  have hscan {b : Bytes} {cursor : Nat} {m : Match} (h : r.nextMatch b cursor = some m) :
      Scans b cursor m.start := by
    obtain ⟨k, i, -, hi, hsize, hat⟩ := (r.nextMatch_best b cursor).found m h
    obtain ⟨hle, hstart, -⟩ := patchOf_layout hi hat
    exact scans_of_forall hle (by omega) fun j hj hlt =>
      inertStop_of_literalAt_eq_none (Rules.literalAt_eq_none_of_nextMatch h hj hlt)
  constructor
  case scans => exact hscan
  case le_start => exact fun h => (hscan h).le
  case layout =>
    intro b cursor m h
    obtain ⟨k, i, -, hi, -, hat⟩ := (r.nextMatch_best b cursor).found m h
    exact (patchOf_layout hi hat).2.2.1
  case lt_stop =>
    intro b cursor m h
    obtain ⟨k, i, -, hi, -, hat⟩ := (r.nextMatch_best b cursor).found m h
    exact (patchOf_layout hi hat).2.2.2
  case lt_size =>
    intro b cursor m h
    obtain ⟨k, i, -, hi, hsize, hat⟩ := (r.nextMatch_best b cursor).found m h
    exact Nat.lt_of_le_of_lt (patchOf_layout hi hat).2.1 hsize
  case settles =>
    intro b cursor m h hclean
    obtain ⟨k, i, -, hi, -, hat⟩ := (r.nextMatch_best b cursor).found m h
    refine (patchOf_fits hi hat ?_).2.2.settles
    -- a regular expression is a slash on the path that opens no comment
    rintro rfl
    obtain ⟨l, hl, hkind, rfl⟩ := matchAt_literal hat
    have hstart := start_of_literalAt hl
    have hpath : Scans b cursor i := hstart ▸ hscan h
    have hinert := hclean i hpath ((literalAt_spec hl).2 hkind)
    rw [inertStop_of_regex hl hkind] at hinert
    simp at hinert

end TypeErasure
