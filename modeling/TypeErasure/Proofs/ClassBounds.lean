import TypeErasure.Proofs.Copy
import TypeErasure.Proofs.Cut
import TypeErasure.Proofs.Reach

/-!
# Literals in a class body

The walk through a class body computes the bounds of modifiers, names, types and initializers, and
none of them should fall inside a literal. Each of them is on the path of a scan from the bracket
of the body, or next to it (`BoundsSettle`, `walkMembers_settled`), and the path goes from literal
to literal as the lexer does, as long as it meets no regular expression (`Reads.of_scans`).

Main statement: up to the first regular expression of the body, no bound falls inside a literal, and
no computed name ends inside one, with a single exception: the whitespace at the end of the text is
no part of the last type or initializer, even if a literal that is never closed runs over it
(`classWalk_spares_literals`). A regular expression is read like any other expression, so a `;` in
it ends the initializer (`classWalk_cuts_regex`).
-/

namespace TypeErasure

/-! ### How far the lexer has read -/

/-- **The lexer that starts at offset `i` comes to offset `j`**: of the literals from `i` on, those
that are not found from `j` on end there or before. -/
def Reads (b : Bytes) (i j : Nat) : Prop :=
  ∃ front, literalTokens b i = front ++ literalTokens b j ∧ ∀ t ∈ front, t.span.stop ≤ j

namespace Reads

variable {b : Bytes} {i j k : Nat}

theorem refl (b : Bytes) (i : Nat) : Reads b i i :=
  ⟨[], rfl, fun t ht => by simp at ht⟩

/-- One stretch after another. -/
theorem trans (h₁ : Reads b i j) (h₂ : Reads b j k) (hjk : j ≤ k) : Reads b i k := by
  obtain ⟨front, hfront, hstop⟩ := h₁
  obtain ⟨mid, hmid, hstop'⟩ := h₂
  refine ⟨front ++ mid, by rw [hfront, hmid, List.append_assoc], fun t ht => ?_⟩
  rcases List.mem_append.mp ht with ht | ht
  · exact Nat.le_trans (hstop t ht) hjk
  · exact hstop' t ht

/-- Over bytes that start no literal. -/
theorem of_forall (hij : i ≤ j) (hj : j ≤ b.size)
    (h : ∀ k, i ≤ k → k < j → literalAt b k = none) : Reads b i j :=
  ⟨[], literalTokens_of_forall hij hj h, fun t ht => by simp at ht⟩

/-- Over a literal. -/
theorem of_literalAt {l : Literal} (h : literalAt b i = some l) : Reads b i l.span.stop := by
  refine ⟨[.at b (.literal l.kind) l.span], literalTokens_of_literalAt h, fun t ht => ?_⟩
  obtain rfl := List.mem_singleton.mp ht
  exact Nat.le_refl _

/-- **The lexer follows the path of a scan up to the first regular expression.** The induction is on
the path: a scan knows all literals but regular expressions, so its step is one of the lexer. -/
theorem of_scans (h : Scans b i j)
    (hregex : ∀ t ∈ literalTokens b i, t.kind = .literal .regex → j ≤ t.span.start) :
    Reads b i j := by
  induction h using Relation.ReflTransGen.head_induction_on with
  | refl => exact refl b j
  | @head i s hstep hrest ih =>
    obtain ⟨hi, rfl⟩ := hstep
    have hle : scanNext b i ≤ j := Scans.le hrest
    -- a step of the scan passes a byte or a literal, as the lexer does
    have hstep : Reads b i (scanNext b i) := by
      cases hl : literalAt b i with
      | none =>
        rw [scanNext_of_eq_none (inertStop_of_literalAt_eq_none hl)]
        exact ⟨[], literalTokens_succ hi hl, fun t ht => by simp at ht⟩
      | some l =>
        -- a regular expression at `i` would start before `j`
        have hkind : l.kind ≠ .regex := by
          intro hkind
          have hmem : .at b (.literal l.kind) l.span ∈ literalTokens b i := by
            rw [literalTokens_of_literalAt hl]
            exact List.mem_cons_self
          have hfirst : j ≤ l.span.start := hregex _ hmem (congrArg _ hkind)
          have := lt_scanNext b i
          have := start_of_literalAt hl
          omega
        rw [scanNext_of_inertStop (inertStop_of_literalAt hl hkind)]
        exact of_literalAt hl
    refine hstep.trans (ih fun t ht => hregex t ?_) hle
    obtain ⟨front, hfront, -⟩ := hstep
    rw [hfront]
    exact List.mem_append_right _ ht

end Reads

/-! ### Offsets inside a token -/

/-- Offset `x` lies strictly inside the token. -/
def Token.CutAt (t : Token) (x : Nat) : Prop :=
  t.span.start < x ∧ x < t.span.stop

instance (t : Token) (x : Nat) : Decidable (t.CutAt x) :=
  inferInstanceAs (Decidable (t.span.start < x ∧ x < t.span.stop))

/-- The token is a literal with a delimiter at its end. -/
def TokenKind.isDelimited : TokenKind → Bool
  | literal kind => kind != .lineComment
  | _ => false

/-- The token is a literal whose closing delimiter is missing. -/
def Token.unclosed (b : Bytes) (t : Token) : Bool :=
  match t.kind with
  | .literal kind => kind.unclosedAt b t.span.start
  | _ => false

/-- No regular expression starts at an offset from `i` up to `j`. -/
def NoRegexIn (b : Bytes) (i j : Nat) : Prop :=
  ∀ t ∈ (tokenize b).toList, t.kind = .literal .regex → i ≤ t.span.start → j ≤ t.span.start

/-- Delimited tokens are literals. -/
private theorem mem_literalTokens_of_isDelimited {b : Bytes} {t : Token}
    (ht : t ∈ (tokenize b).toList) (hkind : t.kind.isDelimited = true) : t ∈ literalTokens b 0 := by
  refine List.mem_filter.mpr ⟨ht, ?_⟩
  cases h : t.kind with
  | literal => rfl
  | _ => simp [h, TokenKind.isDelimited] at hkind

/-- A literal that ends with whitespace, and not with its line, is not terminated. One case for each
kind of literal: a closing delimiter is no whitespace. -/
private theorem not_terminated_of_isSpace {b : Bytes} {i : Nat} {l : Literal}
    (h : literalAt b i = some l) (hkind : l.kind ≠ .lineComment)
    (hspace : b.satAt (l.span.stop - 1) Byte.isSpace = true) :
    l.terminated = false := by
  -- a delimiter is no whitespace
  have hclosed {kind : LiteralKind} {close : Option Nat}
      (hlast : ∀ s, close = some s → b.satAt (s - 1) Byte.isSpace = false)
      (h : some (Literal.closedBy kind b i close) = some l) : l.terminated = false := by
    obtain rfl := Option.some.inj h
    cases close with
    | none => rfl
    | some s => exact absurd (hspace.symm.trans (hlast s rfl)) (by simp)
  -- and neither is a quote
  have hquoted {q : Byte} (hq : (q.isQuote || q.is '`') = true) (s : Nat)
      (hs : quoteClose b q (i + 1) = some s) : b.satAt (s - 1) Byte.isSpace = false := by
    have hlast : b.satAt (s - 1) (fun c => c.isQuote || c.is '`') = true :=
      (Bytes.satAt_of_getElem? (getElem?_of_quoteClose hs) _).trans hq
    exact Bytes.satAt_eq_false hlast (Byte.excludes_isSpace rfl)
  by_cases hregex : l.kind = .regex
  · -- a regular expression ends with a slash or a letter
    obtain ⟨close, hclose, hstop⟩ := regexClose_of_literalAt h hregex
    have hslash := isAt_of_regexClose hclose
    have hlast : b.satAt (l.span.stop - 1) (fun c => c.isLetter || c.is '/') = true := by
      rw [hstop]
      rcases Nat.lt_or_eq_of_le (b.le_skipWhile Byte.isLetter close) with hlt | heq
      · have hletter : b.satAt (b.skipWhile Byte.isLetter close - 1) Byte.isLetter = true :=
          Bytes.satAt_of_lt_skipWhile (i := close) (by omega) (by omega)
        exact Bytes.satAt_mono hletter fun c hc => by rw [hc, Bool.true_or]
      · rw [← heq]
        exact Bytes.satAt_mono hslash fun c hc => by rw [hc, Bool.or_true]
    exact absurd (hspace.symm.trans (Bytes.satAt_eq_false hlast (Byte.excludes_isSpace rfl)))
      (by simp)
  unfold literalAt at h
  split at h
  · simp at h
  · rename_i c hc
    split at h
    · split at h
      · obtain rfl := Option.some.inj h
        exact absurd rfl hkind
      · split at h
        · -- a block comment ends with a slash
          refine hclosed (fun s hs => ?_) h
          rw [Bytes.satAt_of_isAt (isAt_of_blockClose hs)]
          rfl
        · obtain ⟨stop, -, rfl⟩ := Option.map_eq_some_iff.mp h
          exact absurd rfl hregex
    · -- a string or a template ends with its quote
      split at h
      · rename_i hquote
        exact hclosed (hquoted (by rw [hquote]; rfl)) h
      · split at h
        · rename_i htick
          exact hclosed (hquoted (by rw [htick, Bool.or_true])) h
        · simp at h

section Inside

variable {b : Bytes} {c x : Nat} {t : Token}

/-- A place that the lexer comes to lies inside no literal: those before it have ended, and the
others start there or later. -/
private theorem Reads.not_cutAt (h : Reads b 0 x) (ht : t ∈ literalTokens b 0) : ¬ t.CutAt x := by
  obtain ⟨front, hfront, hstop⟩ := h
  rintro ⟨hstart, hend⟩
  rw [hfront] at ht
  rcases List.mem_append.mp ht with ht | ht
  · have := hstop t ht
    omega
  · have := le_start_of_mem_literalTokens ht
    omega

private theorem not_cutAt_size (ht : t ∈ literalTokens b 0) : ¬ t.CutAt b.size := by
  obtain ⟨l, hl, rfl⟩ := literalAt_of_mem_literalTokens ht
  exact fun hcut => Nat.not_lt.mpr (stop_le_of_literalAt hl) hcut.2

/-- A place on the path lies inside no literal, if no regular expression comes before it. -/
private theorem not_cutAt_of_scans (hc : Reads b 0 c) (hx : Scans b c x) (hregex : NoRegexIn b c x)
    (ht : t ∈ literalTokens b 0) : ¬ t.CutAt x := by
  refine (hc.trans (.of_scans hx fun u hu hkind => ?_) hx.le).not_cutAt ht
  have hmem : u ∈ literalTokens b 0 := by
    obtain ⟨front, hfront, -⟩ := hc
    rw [hfront]
    exact List.mem_append_right _ hu
  exact hregex u (List.mem_filter.mp hmem).1 hkind (le_start_of_mem_literalTokens hu)

/-- **A place next to the path lies inside no literal but one that is never closed**, and then only
whitespace is left of the text. Between the place and the path there is only whitespace, so a
literal that holds the place ends with whitespace, and has lost its delimiter. -/
theorem unclosed_of_cutAt (hc : Reads b 0 c) (hx : Settles b c x)
    (hregex : NoRegexIn b c x) (ht : t ∈ literalTokens b 0) (hkind : t.kind.isDelimited = true)
    (hcut : t.CutAt x) :
    t.unclosed b = true ∧ ∀ k, x ≤ k → k < b.size → b.satAt k Byte.isSpace = true := by
  obtain ⟨-, w, hw, hxw, hspace⟩ := hx
  obtain ⟨l, hl, rfl⟩ := literalAt_of_mem_literalTokens ht
  obtain ⟨hstart, hstop⟩ : l.span.start < x ∧ x < l.span.stop := hcut
  -- no regular expression starts with whitespace
  have hregex' : NoRegexIn b c w := by
    intro u hu hkind hcu
    refine Nat.le_of_not_lt fun hlt => ?_
    have hslash : b.isAt u.span.start '/' = true := by
      obtain ⟨l', hl', hu'⟩ := literalAt_of_mem_literalTokens
        (mem_literalTokens_of_isDelimited hu (by rw [hkind]; rfl))
      refine (literalAt_spec hl').2 ?_
      rw [hu'] at hkind
      exact TokenKind.literal.inj hkind
    have hblank := hspace _ (hregex u hu hkind hcu) hlt
    rw [Bytes.satAt_of_isAt hslash] at hblank
    exact absurd hblank (by decide)
  -- the literal ends before the path goes on, so it ends with whitespace
  have hle : l.span.stop ≤ w := by
    refine Nat.le_of_not_lt fun hlt => ?_
    exact not_cutAt_of_scans hc hw hregex' ht ⟨Nat.lt_of_lt_of_le hstart hxw, hlt⟩
  have hopen : l.terminated = false := by
    refine not_terminated_of_isSpace hl (fun hline => ?_) (hspace _ (by omega) (by omega))
    simp [Token.at, TokenKind.isDelimited, hline] at hkind
  obtain ⟨hunclosed, hend⟩ := unclosedAt_of_literalAt hl
  refine ⟨?_, fun k hk hlt => hspace k hk ?_⟩
  · exact hunclosed.trans (congrArg _ hopen)
  · have := hend hopen
    omega

end Inside

/-! ### The bounds of the walk -/

/-- **Every bound of the segments is next to the path from `c`.** -/
inductive BoundsSettle (b : Bytes) (c : Nat) : Nat → List Segment → Nat → Prop where
  | nil {i : Nat} (h : Settles b c i) : BoundsSettle b c i [] i
  | cons {i j k : Nat} {s : Segment} {rest : List Segment} (h : Settles b c i) (hij : i ≤ j)
      (hs : s.source = b.slice i j) (tail : BoundsSettle b c j rest k) :
      BoundsSettle b c i (s :: rest) k

namespace BoundsSettle

variable {b : Bytes} {c i j k : Nat} {segments rest : List Segment}

theorem left (h : BoundsSettle b c i segments j) : Settles b c i := by
  cases h with
  | nil h => exact h
  | cons h => exact h

theorem append (h : BoundsSettle b c i segments j) (hrest : BoundsSettle b c j rest k) :
    BoundsSettle b c i (segments ++ rest) k := by
  induction h with
  | nil => exact hrest
  | cons h hij hs _ ih => exact .cons h hij hs (ih hrest)

/-- A segment in front that the path leads over. -/
theorem scan {s : Segment} (h : Settles b c i) (hij : Scans b i j) (hs : s.source = b.slice i j)
    (tail : BoundsSettle b c j rest k) : BoundsSettle b c i (s :: rest) k :=
  .cons h hij.le hs tail

/-- The end of the first segments is next to the path. By induction on them, as each one starts
where the one before it ends. -/
private theorem settles_of_append {front back : List Segment}
    (h : BoundsSettle b c i (front ++ back) k)
    (hc : c ≤ b.size) : Settles b c (i + Segment.sizeOf front) := by
  induction front generalizing i with
  | nil => exact h.left
  | cons s front ih =>
    cases h with
    | @cons _ j _ _ _ _ hij hs tail =>
      -- the end of the segment is next to the path, so it lies in the text
      have hj : j ≤ b.size := by
        obtain ⟨-, w, hw, hjw, -⟩ := tail.left
        exact Nat.le_trans hjw (hw.le_size hc)
      have hsize : i + Segment.sizeOf (s :: front) = j + Segment.sizeOf front := by
        rw [Segment.sizeOf, List.foldr_cons, ← Segment.sizeOf, hs, Bytes.size_slice hj]
        omega
      rw [hsize]
      exact ih tail

end BoundsSettle

/-- The bounds of the modifiers from offset `k` on are next to the path. -/
def Modifiers.Settled (b : Bytes) (c k : Nat) : Modifiers → Prop
  | named segments start => BoundsSettle b c k segments start
  | foreign segments start => BoundsSettle b c k segments start
  | ghost => True

/-- A modifier in front that the path leads over. -/
theorem Modifiers.Settled.cons {b : Bytes} {c k next : Nat} {m : Modifiers} {s : Segment}
    (h : m.Settled b c next) (hk : Settles b c k) (hscan : Scans b k next)
    (hs : s.source = b.slice k next) : (m.cons s).Settled b c k := by
  cases m with
  | named => exact .scan hk hscan hs h
  | foreign => exact .scan hk hscan hs h
  | ghost => trivial

/-- **The bounds of modifiers are on the path.** The induction follows the modifiers: each of them
is a word and blanks. -/
private theorem modifiersAt_settled {b : Bytes} {c k : Nat} (h : Settles b c k) :
    (modifiersAt b k).Settled b c k := by
  fun_induction modifiersAt b k with
  | case1 => exact .nil h
  | case2 => trivial
  | case3 k next hnext _ _ ih =>
    have hscan := scans_modifierStop hnext
    exact (ih (h.trans_scans hscan)).cons h hscan rfl
  | case4 k next hnext _ _ _ ih =>
    have hscan := scans_modifierStop hnext
    exact (ih (h.trans_scans hscan)).cons h hscan rfl
  | case5 => exact .nil h

/-- The bounds of the type of a field: what is kept up to the marker or colon is on the path, and
the end of the type is next to it. -/
private theorem fieldType_settled {b : Bytes} {c name after colon : Nat} (hname : Settles b c name)
    (hsize : name ≤ b.size) (hafter : Scans b name after) (hcolon : Scans b after colon) :
    BoundsSettle b c name (fieldType b name after colon).1 (fieldType b name after colon).2 := by
  have hend := (fieldType_covers hname hsize hafter hcolon).settles
  -- a kept text up to `start`, and what is commented out from there on
  have hpair {start stop : Nat} (hstart : Scans b name start) (hstop : Settles b c stop)
      (hle : start ≤ stop) : BoundsSettle b c name [.keep b name start, .erase b start stop] stop :=
    .scan hname hstart rfl (.cons (hname.trans_scans hstart) hle rfl (.nil hstop))
  revert hend
  unfold fieldType
  split
  · -- a colon, with a marker before it or without
    rename_i his
    have hlt : colon + 1 ≤ fieldTypeStop b (colon + 1) := le_findStop (Bytes.lt_size_of_isAt his)
    have hle := hcolon.le
    dsimp only
    split
    · exact fun hend => hpair hafter hend (Bytes.le_trimEnd (by omega))
    · exact fun hend => hpair (hafter.trans hcolon) hend (Bytes.le_trimEnd (by omega))
  · -- a marker alone, or nothing
    split
    · exact fun hend => hpair hafter hend (Nat.le_succ after)
    · exact fun _ => .nil hname

/-- The bounds of an initializer, which starts behind its sign. -/
private theorem fieldInitializer_settled {b : Bytes} {c stop : Nat} (hstop : Settles b c stop)
    (hsize : stop ≤ b.size) :
    BoundsSettle b c stop (fieldInitializer b stop).1 (fieldInitializer b stop).2 := by
  have hend := (fieldInitializer_covers hstop hsize).settles
  revert hend
  unfold fieldInitializer
  dsimp only
  split
  · rename_i hassign
    have hsign := (Bool.and_eq_true_iff.mp hassign).1
    have hstart : Scans b stop (skipTrivia b stop + 1) :=
      (scans_skipTrivia b stop).trans (scans_isAt hsign rfl)
    exact fun hend => .scan hstop hstart rfl (.cons (hstop.trans_scans hstart)
      (le_initializerStop (Bytes.lt_size_of_isAt hsign)) rfl (.nil hend))
  · exact fun _ => .nil hstop

/-- The bounds of what the walk takes of a member are next to the path. -/
def Member.Settled (b : Bytes) (c i : Nat) : Member → Prop
  | field segments stop => BoundsSettle b c i segments stop
  | other segments stop => BoundsSettle b c i segments stop

/-- The bounds of a field: its modifiers, its name, its type and its initializer follow one
another. -/
private theorem namedMember_settled {b : Bytes} {c start k : Nat} {modifiers : List Segment}
    (h : BoundsSettle b c start modifiers k) (hk : Settles b c k) (hsize : k ≤ b.size) :
    (namedMember b modifiers k).Settled b c start := by
  unfold namedMember
  split
  · -- no name, so that only the modifiers are taken
    exact h
  · rename_i name hname
    dsimp only
    split
    · -- a method, of which no more is taken either
      exact h
    · -- a field
      have hscan := scans_memberNameStop hname
      have hend := hk.trans_scans hscan
      have hle := hscan.le_size hsize
      have hafter := scans_skipTrivia b name
      have hcolon := scans_skipMarker b (skipTrivia b name)
      have htype := fieldType_covers hend hle hafter hcolon
      have hinit := fieldInitializer_settled htype.settles (htype.layout.le_size hle)
      have hname : BoundsSettle b c k [.keep b k name] name := .scan hk hscan rfl (.nil hend)
      exact ((h.append hname).append (fieldType_settled hend hle hafter hcolon)).append hinit

/-- A member that is commented out whole has but two bounds. -/
private theorem ghostMember_settled {b : Bytes} {c start : Nat} (h : Settles b c start)
    (hghost : b.satAt start startsGhost = true) : (ghostMember b start).Settled b c start := by
  have hcovered := ghostMember_covered h hghost
  exact .cons h hcovered.layout.le rfl (.nil hcovered.settles)

/-- **The bounds of a member are next to the path.** One case for each thing that modifiers lead
to. -/
private theorem memberAt_settled {b : Bytes} {c start : Nat} (h : Settles b c start)
    (hsize : start ≤ b.size) : (memberAt b start).Settled b c start := by
  have hmods := modifiersAt_settled h
  have hcovers := modifiersAt_covered h
  unfold memberAt
  split
  · rename_i hm
    exact ghostMember_settled h (startsGhost_of_modifiersAt (by simp [hm]))
  · rename_i modifiers k hm
    rw [hm] at hmods
    exact hmods
  · rename_i modifiers k hm
    rw [hm] at hmods hcovers
    split
    · rename_i hindex
      exact ghostMember_settled h (startsGhost_of_isIndexSignature hm hindex)
    · exact namedMember_settled hmods hcovers.1.settles (hcovers.2.le_size hsize)

/-- **Every bound of the walk through a class body is next to the path.** The induction follows the
walk: the trivia before a member, the member, and the rest. -/
theorem walkMembers_settled {b : Bytes} {c i : Nat} (h : Settles b c i) (hi : i ≤ b.size) :
    BoundsSettle b c i (walkMembers b i).segments (walkMembers b i).stop := by
  fun_induction walkMembers b i with
  | case1 i start gap _ hsemi ih =>
    -- a `;` between two members
    have hgap : Scans b i start := scans_skipTrivia b i
    have hone : Scans b start (start + 1) := scans_isAt hsemi rfl
    have hrest := ih (h.trans_scans (hgap.trans hone)) (Bytes.lt_size_of_isAt hsemi)
    exact .scan h hgap rfl (.scan (h.trans_scans hgap) hone rfl hrest)
  | case2 i start gap hcond _ segments stop hmember =>
    -- the walk ends at what is no field
    have hgap : Scans b i start := scans_skipTrivia b i
    have hsettled := memberAt_settled (h.trans_scans hgap) (Nat.le_of_lt hcond.1)
    rw [hmember] at hsettled
    exact .scan h hgap rfl hsettled
  | case3 i start gap hcond _ segments stop hmember ih =>
    -- it goes on behind a field
    have hgap : Scans b i start := scans_skipTrivia b i
    have hstart := h.trans_scans hgap
    have hsettled := memberAt_settled hstart (Nat.le_of_lt hcond.1)
    have hcovered := memberAt_covered hstart (Nat.le_of_lt hcond.1)
    rw [hmember] at hsettled hcovered
    have hstop := hcovered.layout.le_size (Nat.le_of_lt hcond.1)
    exact .scan h hgap rfl (BoundsSettle.append hsettled (ih hcovered.settles hstop))
  | case4 i start gap =>
    -- the end of the body
    have hgap : Scans b i start := scans_skipTrivia b i
    exact .scan h hgap rfl (.nil (h.trans_scans hgap))

/-! ### The end of the walk -/

/-- A computed name is the name of a member. -/
private theorem scans_computedNameStop {b : Bytes} {k stop : Nat} (hopen : b.isAt k '[' = true)
    (h : computedNameStop b k = some stop) : Scans b k stop := by
  refine scans_memberNameStop ?_
  have hhash : ¬ b.isAt k '#' = true := by
    rw [Bytes.isAt_eq_satAt, Bytes.satAt_of_isAt hopen]
    exact Bool.false_ne_true
  have hquote : ¬ b.satAt k Byte.isQuote = true := by
    rw [Bytes.satAt_of_isAt hopen]
    exact Bool.false_ne_true
  rw [memberNameStop, if_neg hhash, if_neg hquote, if_pos hopen, h]

/-- No whitespace is left behind trivia. -/
private theorem not_isSpace_skipTrivia (b : Bytes) (i : Nat) :
    b.satAt (skipTrivia b i) Byte.isSpace = false := by
  fun_induction skipTrivia b i with
  | case1 i => exact b.satAt_skipWhile Byte.isSpace i
  | case2 _ _ _ _ ih => exact ih
  | case3 i => exact b.satAt_skipWhile Byte.isSpace i

/-- Behind trivia there is ink, so the place there is on the path. -/
theorem Settles.scans_skipTrivia {b : Bytes} {c i : Nat} (h : Settles b c i)
    (hsize : skipTrivia b i < b.size) : Scans b c (skipTrivia b i) := by
  refine h.scans_of_startsInk (TypeErasure.scans_skipTrivia b i) (.inl ?_)
  rw [Bytes.satAt_not hsize, not_isSpace_skipTrivia]
  rfl

/-- The walk stops at the name of a member that is no field, or at the last of its words. Up to
there it has read only modifiers. -/
private theorem scans_of_memberAt {b : Bytes} {start stop : Nat} {segments : List Segment}
    (h : memberAt b start = .other segments stop) : Scans b start stop := by
  have hmods := modifiersAt_covered (Scans.refl b start).settles
  unfold memberAt at h
  split at h
  · simp [ghostMember] at h
  · rename_i modifiers k hm
    rw [hm] at hmods
    obtain ⟨-, rfl⟩ := Member.other.inj h
    exact hmods.2
  · rename_i modifiers k hm
    rw [hm] at hmods
    split at h
    · simp [ghostMember] at h
    · -- the name of the member is where the modifiers end
      have hstop : k = stop := by
        unfold namedMember at h
        split at h
        · exact (Member.other.inj h).2
        · dsimp only at h
          split at h
          · exact (Member.other.inj h).2
          · simp at h
      exact hstop ▸ hmods.2

/-- **The walk ends on the path**, or with the text. The induction follows the walk. -/
theorem scans_walkMembers {b : Bytes} {c i : Nat} (h : Settles b c i) (hi : i ≤ b.size) :
    Scans b c (walkMembers b i).stop ∨ (walkMembers b i).stop = b.size := by
  fun_induction walkMembers b i with
  | case1 i start gap _ hsemi ih =>
    have hgap : Scans b i (start + 1) := (scans_skipTrivia b i).trans (scans_isAt hsemi rfl)
    exact ih (h.trans_scans hgap) (Bytes.lt_size_of_isAt hsemi)
  | case2 i start gap hcond _ segments stop hmember =>
    -- a member that the walk does not read ends it
    exact .inl ((h.scans_skipTrivia hcond.1).trans (scans_of_memberAt hmember))
  | case3 i start gap hcond _ segments stop hmember ih =>
    have hcovered := memberAt_covered (h.trans_scans (scans_skipTrivia b i)) (Nat.le_of_lt hcond.1)
    rw [hmember] at hcovered
    exact ih hcovered.settles (hcovered.layout.le_size (Nat.le_of_lt hcond.1))
  | case4 i start gap hcond =>
    -- the bracket of the body ends it, or the text
    rcases Nat.lt_or_eq_of_le ((scans_skipTrivia b i).le_size hi) with hlt | heq
    · exact .inl (h.scans_skipTrivia hlt)
    · exact .inr heq

/-- A class that is recognised by its bracket is matched there: what starts the other two forms is
no bracket. -/
private theorem eq_of_classMembersAt {b : Bytes} {i : Nat} {m : Match}
    (h : classMembersAt b i = some m)
    (hbrace : b.isAt i '{' = true) : m = ⟨.classMembers, ⟨i, i + 1⟩⟩ := by
  unfold classMembersAt at h
  rcases Option.or_eq_some_iff.mp h with h | ⟨-, h⟩
  · rcases Option.or_eq_some_iff.mp h with h | ⟨-, h⟩
    · -- an `abstract` starts with a letter
      unfold abstractAt at h
      dsimp only at h
      rw [Option.ite_none_right_eq_some] at h
      simp only [Bool.and_eq_true] at h
      have hletter := isLetter_of_keywordAt h.1.1.1 rfl (by decide)
      rw [Bytes.isAt_eq_false hletter rfl] at hbrace
      simp at hbrace
    · unfold classBraceAt at h
      rw [Option.ite_none_right_eq_some] at h
      exact (Option.some.inj h.2).symm
  · -- an `implements` clause starts with a blank
    unfold implementsAt at h
    rw [Option.ite_none_right_eq_some, Bool.and_eq_true] at h
    rw [Bytes.isAt_eq_false h.1.1 rfl] at hbrace
    simp at hbrace

/-- **The patch of a class body** has its bounds next to the path from the bracket, and ends on it
or with the text. It is the walk behind the bracket, with the bracket in front. -/
theorem classMembersPatch_settled {b : Bytes} {i : Nat} (hbrace : b.isAt i '{' = true) :
    let patch := classMembersPatch b ⟨.classMembers, ⟨i, i + 1⟩⟩
    BoundsSettle b i i patch.segments patch.stop ∧
      (Scans b i patch.stop ∨ patch.stop = b.size) := by
  have hone : Scans b i (i + 1) := scans_isAt hbrace rfl
  have hsize : i + 1 ≤ b.size := Bytes.lt_size_of_isAt hbrace
  -- the match starts with its bracket, so it has neither `abstract` nor a clause
  have hstart : ¬ b.isAt i 'a' = true := by
    rw [Bytes.isAt_eq_satAt, Bytes.satAt_of_isAt hbrace]
    exact Bool.false_ne_true
  have hclause : clauseSegments b i i = [] := if_neg (Nat.lt_irrefl i)
  simp only [classMembersPatch, Match.start, Match.stop, Nat.add_sub_cancel, if_neg hstart, hclause,
    List.nil_append]
  exact ⟨.scan (Scans.refl b i).settles hone rfl (walkMembers_settled hone.settles hsize),
    scans_walkMembers hone.settles hsize⟩

/-! ### The rounds before the class -/

/-- A literal that is next is found by the lexer too, as nothing before it is a literal. -/
private theorem Rules.reads_of_nextMatch {r : Rules} {b : Bytes} {cursor : Nat} {m : Match}
    (h : r.nextMatch b cursor = some m) : Reads b cursor m.start := by
  have hg := r.grammar_lawful
  refine .of_forall (hg.le_start h) (Nat.le_of_lt (hg.lt_size h)) fun k hk hlt => ?_
  exact Rules.literalAt_eq_none_of_nextMatch h hk hlt

/-- **A run that has only met literals has come as far as the lexer**, and its text is unchanged. By
induction on the rounds before: each of them keeps a literal as it is, and the lexer passes over
it. -/
theorem Rules.exists_cursor_of_literals {r : Rules} {done rest : Bytes} {e : Erasure}
    {before after : List Round} {round : Round} (hrun : r.grammar.runFrom done rest = .ok e)
    (hrounds : e.rounds = before ++ round :: after)
    (hliteral : ∀ q ∈ before, q.found.kind.literalKind?.isSome = true) :
    ∃ cursor, r.nextMatch (done ++ rest) cursor = some round.found ∧
      Reads (done ++ rest) done.size cursor ∧ done.size ≤ cursor ∧
      round.stop = (patchOf (done ++ rest) round.found).stop := by
  have hg := r.grammar_lawful
  induction before generalizing done rest e with
  | nil =>
    rcases hg.runFrom_cases hrun with ⟨-, rfl⟩ | ⟨m, f, e', hnext, -, -, rfl⟩
    · simp at hrounds
    · obtain rfl := (List.cons.inj hrounds).1
      exact ⟨done.size, hnext, .refl _ _, Nat.le_refl _, rfl⟩
  | cons q before ih =>
    rcases hg.runFrom_cases hrun with ⟨-, rfl⟩ | ⟨m, f, e', hnext, hf, hrest, rfl⟩
    · simp at hrounds
    · obtain ⟨rfl, hafter⟩ := List.cons.inj hrounds
      -- the first round takes a literal
      obtain ⟨kind, hkind⟩ := Option.isSome_iff_exists.mp (hliteral _ List.mem_cons_self)
      obtain ⟨k, i, -, hi, -, hat⟩ := (r.nextMatch_best (done ++ rest) done.size).found m hnext
      obtain rfl : k = .literal kind :=
        (kind_of_matchAt hat).symm.trans (Construct.eq_literal hkind)
      obtain ⟨l, hl, rfl, rfl⟩ := matchAt_literal hat
      obtain rfl := start_of_literalAt hl
      obtain rfl : f = ⟨[.kept ((done ++ rest).slice l.span.start l.span.stop)], []⟩ :=
        Filled.eq_of_pieces (l := [.kept _]) hf
      -- and leaves the text as it is
      have hkept : Piece.outputOf [.kept ((done ++ rest).slice l.span.start l.span.stop)] =
          (done ++ rest).slice l.span.start l.span.stop := by
        simp [Piece.outputOf, Piece.output]
      obtain ⟨htext, hdone⟩ := hg.doneAfter_of_kept (f := ⟨[.kept _], []⟩) hnext hkept
      obtain ⟨cursor, hfound, hreads, hle, hstop⟩ :=
        ih hrest hafter fun q hq => hliteral q (List.mem_cons_of_mem _ hq)
      rw [htext] at hfound hreads hstop
      rw [hdone] at hreads hle
      have hle : l.span.stop ≤ cursor := hle
      have hlt := lt_stop_of_literalAt hl
      have hfirst : Reads (done ++ rest) done.size l.span.stop :=
        (Rules.reads_of_nextMatch hnext).trans (.of_literalAt hl) (Nat.le_of_lt hlt)
      exact ⟨cursor, hfound, hfirst.trans hreads hle, by omega, hstop⟩

/-- **Up to its first regular expression, the walk through a class body cuts no literal.** Let the
class be the first construct of a run that is no literal. If no regular expression starts between
its bracket and an offset that the walk comes to, then that offset lies inside no string, template,
comment or regular expression: neither the end of the walk, nor the end of a computed name. A bound
of a segment, such as the end of an initializer, lies inside a literal only if that is never closed,
and only whitespace is left of the text. -/
theorem classWalk_spares_literals {r : Rules} {text : Bytes} {e : Erasure}
    {before after : List Round} {round : Round} (hrun : erase r text = .ok e)
    (hrounds : e.rounds = before ++ round :: after)
    (hliteral : ∀ q ∈ before, q.found.kind.literalKind?.isSome = true)
    (hkind : round.found.kind = .classMembers)
    (hbrace : text.isAt round.found.start '{' = true) :
    let start := round.found.start
    let patch := patchOf text round.found
    round.stop = patch.stop ∧
      ∀ t ∈ (tokenize text).toList, t.kind.isDelimited = true →
        (NoRegexIn text start round.stop → ¬ t.CutAt round.stop) ∧
        ∀ front back, patch.segments = front ++ back →
          let bound := start + Segment.sizeOf front
          (NoRegexIn text start bound → t.CutAt bound →
            t.unclosed text = true ∧
              ∀ k, bound ≤ k → k < text.size → text.satAt k Byte.isSpace = true) ∧
          ∀ stop, text.isAt bound '[' = true → computedNameStop text bound = some stop →
            NoRegexIn text start stop → ¬ t.CutAt stop := by
  have hrunFrom : r.grammar.runFrom #[] text = .ok e := hrun
  obtain ⟨cursor, hnext, hreads, -, hstop⟩ :=
    Rules.exists_cursor_of_literals hrunFrom hrounds hliteral
  rw [Array.empty_append] at hnext hreads hstop
  -- the match is the bracket
  obtain ⟨k, i, -, -, -, hat⟩ := (r.nextMatch_best text cursor).found _ hnext
  obtain rfl : k = .classMembers := (kind_of_matchAt hat).symm.trans hkind
  have hat : classMembersAt text i = some round.found := hat
  obtain rfl : round.found.start = i := (classMembersPatch_fits hat).2.1
  have hmatch := eq_of_classMembersAt hat hbrace
  have hsize : round.found.start ≤ text.size := Nat.le_of_lt (Bytes.lt_size_of_isAt hbrace)
  have hstart : Reads text 0 round.found.start :=
    hreads.trans (Rules.reads_of_nextMatch hnext) (r.grammar_lawful.le_start hnext)
  have hpatch : patchOf text round.found =
      classMembersPatch text ⟨.classMembers, ⟨round.found.start, round.found.start + 1⟩⟩ := by
    rw [patchOf, hkind]
    exact congrArg (classMembersPatch text) hmatch
  obtain ⟨hsettled, hend⟩ := classMembersPatch_settled hbrace
  rw [← hpatch] at hsettled hend
  intro start patch
  refine ⟨hstop, fun t ht hdelimited => ?_⟩
  have hmem := mem_literalTokens_of_isDelimited ht hdelimited
  refine ⟨fun hregex => ?_, fun front back hsplit => ?_⟩
  · -- the walk ends on the path or with the text, and both lie inside no literal
    rw [hstop] at hregex ⊢
    rcases hend with hscan | hsize
    · exact not_cutAt_of_scans hstart hscan hregex hmem
    · rw [hsize]
      exact not_cutAt_size hmem
  · have hbound : Settles text start (start + Segment.sizeOf front) :=
      BoundsSettle.settles_of_append (hsplit ▸ hsettled) hsize
    refine ⟨fun hregex => unclosed_of_cutAt hstart hbound hregex hmem hdelimited,
      fun stop hopen hname hregex => ?_⟩
    -- a bracket is ink, so the path leads through it and over the computed name
    have hscan : Scans text start stop :=
      (hbound.scans_of_startsInk (Scans.refl text _) (startsInk_of_isAt hopen rfl)).trans
        (scans_computedNameStop hopen hname)
    exact not_cutAt_of_scans hstart hscan hregex hmem

/-- A body behind a literal, with signs in its literals that would end a name or an initializer. -/
theorem classWalk_spares_literals_signs :
    let text := Bytes.ofString "'\x7b'; class A \x7b ['];'] = `;\x7d`; m() \x7b\x7d \x7d"
    ∃ e first round after, erase {} text = .ok e ∧ e.rounds = [first] ++ round :: after ∧
      (∀ q ∈ [first], q.found.kind.literalKind?.isSome = true) ∧
      round.found.kind = .classMembers ∧ text.isAt round.found.start '{' = true ∧
      .nested (Bytes.ofString " `;\x7d`") ∈ (patchOf text round.found).segments ∧
      ∀ t ∈ (tokenize text).toList, t.kind.isDelimited = true →
        ¬ t.CutAt round.stop ∧
        ∀ front back, (patchOf text round.found).segments = front ++ back →
          ¬ t.CutAt (round.found.start + Segment.sizeOf front) := by
  intro text
  -- the runs are computed, and everything else is read off them
  have hfound : (erase {} text).toOption.map (fun e => e.rounds.map (·.found)) =
      some [⟨.literal .string, ⟨0, 3⟩⟩, ⟨.classMembers, ⟨13, 14⟩⟩] := by
    decide +kernel
  obtain ⟨e, he, hmap⟩ := Option.map_eq_some_iff.mp hfound
  have hrun : erase {} text = .ok e := by
    obtain ⟨e', he', -⟩ := (Rules.grammar_lawful {}).exists_runFrom #[] text
    have he' : erase {} text = .ok e' := he'
    rw [he'] at he ⊢
    exact congrArg _ (Option.some.inj he)
  obtain ⟨first, behind, hrounds, hfirst, hbehind⟩ := List.map_eq_cons_iff.mp hmap
  obtain ⟨round, after, rfl, hround, -⟩ := List.map_eq_cons_iff.mp hbehind
  have hliteral : ∀ q ∈ [first], q.found.kind.literalKind?.isSome = true := by
    intro q hq
    rw [List.mem_singleton.mp hq, hfirst]
    rfl
  have hkind : round.found.kind = .classMembers := by rw [hround]
  have hbrace : text.isAt round.found.start '{' = true := by
    rw [hround]
    decide +kernel
  -- no literal of the text is a regular expression or unclosed
  have hregex : ∀ t ∈ (tokenize text).toList, t.kind ≠ .literal .regex := by decide +kernel
  have hclosed : ∀ t ∈ (tokenize text).toList, t.unclosed text = false := by decide +kernel
  have hnone (i j : Nat) : NoRegexIn text i j := fun t ht h => absurd h (hregex t ht)
  refine ⟨e, first, round, after, hrun, hrounds, hliteral, hkind, hbrace, ?_,
    fun t ht hdelimited => ?_⟩
  · rw [hround]
    decide +kernel
  · obtain ⟨hstop, hbounds⟩ :=
      (classWalk_spares_literals hrun hrounds hliteral hkind hbrace).2 t ht hdelimited
    refine ⟨hstop (hnone _ _), fun front back hsplit hcut => ?_⟩
    have hunclosed := ((hbounds front back hsplit).1 (hnone _ _) hcut).1
    rw [hclosed t ht] at hunclosed
    exact Bool.false_ne_true hunclosed

/-- **A regular expression is cut where it holds a sign.** Its `;` ends the initializer, and the
walk stops inside of it, so that the field behind it keeps its type. Of a string that is never
closed, the whitespace at its end is cut off. -/
theorem classWalk_cuts_regex :
    let text := Bytes.ofString "class A \x7b x = /;/; y: T; \x7d"
    let unclosed := Bytes.ofString "class A \x7b x = 'abc "
    let found : Match := ⟨.classMembers, ⟨8, 9⟩⟩
    (erase {} text).toOption.map (fun e => (e.output, e.rounds.map fun q => (q.found, q.stop))) =
        some (text, [(found, 16)]) ∧
      .nested (Bytes.ofString " /") ∈ (patchOf text found).segments ∧
      (∃ t ∈ (tokenize text).toList, t.kind = .literal .regex ∧ t.CutAt 15 ∧ t.CutAt 16) ∧
      .nested (Bytes.ofString " 'abc") ∈ (patchOf unclosed found).segments ∧
      ∃ t ∈ (tokenize unclosed).toList, t.kind = .literal .string ∧ t.CutAt 18 := by
  decide +kernel

end TypeErasure
