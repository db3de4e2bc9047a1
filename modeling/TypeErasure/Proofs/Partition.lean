import TypeErasure.Proofs.Run

/-!
# Erasure only comments out

The pieces of an erasure divide the source. What is kept stands in the output as it is, and what is
erased stands there as a block comment, which ends where it should: `literalAt_commentOut` says that
the comment is read back as one terminated literal, whatever stands around it.

A round reports its construct as erased if it was changed at all. So the bytes outside of the
reported constructs lie in kept pieces (`Erasure.exists_kept`), and apart from slashes, stars and
spaces the output has the bytes of the source in their order (`Piece.filter_outputOf`).

`Erasure.CommentsOut` collects this, and `erase_commentsOut` proves it of every erasure.
-/

namespace TypeErasure

/-! ### The comment that holds a text -/

/-- Breaking up closing delimiters does not change the first byte. -/
theorem head?_breakClosers (cs : List Byte) : (breakClosers cs).head? = cs.head? := by
  fun_cases breakClosers cs <;> rfl

/-- **No `*/` is left in the text of a comment.** The induction follows the definition, with the
offset left free: a star that was followed by a slash is now followed by a space, and any other star
keeps the byte behind it. -/
theorem not_closer_breakClosers (cs : List Byte) (k : Nat)
    (h : (breakClosers cs)[k]?.any (·.is '*') = true) :
    (breakClosers cs)[k + 1]?.any (·.is '/') = false := by
  fun_induction breakClosers cs generalizing k with
  | case1 => simp at h
  | case2 c rest _ ih =>
    -- a star with the space behind it
    cases k with
    | zero => exact (by decide : (32 : Byte).is '/' = false)
    | succ k =>
      rw [List.getElem?_cons_succ] at h ⊢
      cases k with
      | zero => exact absurd h (by decide : ¬ (32 : Byte).is '*' = true)
      | succ k =>
        rw [List.getElem?_cons_succ] at h ⊢
        exact ih k h
  | case3 c rest hnot ih =>
    cases k with
    | zero =>
      -- the byte behind the star is the first one of the rest, which the test has found to be no
      -- slash
      rw [List.getElem?_cons_succ, ← List.head?_eq_getElem?, head?_breakClosers]
      have hstar : c.is '*' = true := by simpa using h
      simpa [hstar] using hnot
    | succ k =>
      rw [List.getElem?_cons_succ] at h ⊢
      exact ih k h

namespace Bytes

/-- The text of the comment, between its delimiters. -/
def commentBody (b : Bytes) : Bytes :=
  (breakClosers b.toList).toArray

/-- The comment in its three parts, bracketed to the right so that offsets behind the opening
delimiter come out plain. -/
theorem commentOut_eq (b : Bytes) :
    b.commentOut = ofString "/*" ++ (b.commentBody ++ ofString "*/") :=
  Array.append_assoc

theorem size_commentOut (b : Bytes) : b.commentOut.size = b.commentBody.size + 4 := by
  have hopen : (ofString "/*").size = 2 := rfl
  have hclose : (ofString "*/").size = 2 := rfl
  rw [commentOut_eq, Array.size_append, Array.size_append, hopen, hclose]
  omega

/-- The bytes behind the opening delimiter. -/
theorem getElem?_commentOut (b : Bytes) (k : Nat) :
    b.commentOut[2 + k]? = (b.commentBody ++ ofString "*/")[k]? := by
  rw [commentOut_eq]
  exact getElem?_append_add (ofString "/*") _ k

/-- A comment starts with its opening delimiter. -/
theorem isAt_commentOut_open (b : Bytes) :
    b.commentOut.isAt 0 '/' = true ∧ b.commentOut.isAt 1 '*' = true := by
  have h (k : Nat) (hk : k < (ofString "/*").size) :
      b.commentOut[k]? = (ofString "/*")[k]? := by
    rw [commentOut_eq, Array.getElem?_append_left hk]
  exact ⟨isAt_congr (h 0 (by decide)) '/', isAt_congr (h 1 (by decide)) '*'⟩

/-- A comment ends with its closing delimiter. -/
theorem isAt_commentOut_close (b : Bytes) :
    b.commentOut.isAt (2 + b.commentBody.size) '*' = true ∧
      b.commentOut.isAt (2 + b.commentBody.size + 1) '/' = true := by
  have h (k : Nat) : b.commentOut[2 + b.commentBody.size + k]? = (ofString "*/")[k]? := by
    rw [Nat.add_assoc, getElem?_commentOut, getElem?_append_add]
  exact ⟨isAt_congr (h 0) '*', isAt_congr (h 1) '/'⟩

/-- Only the last `*/` of a comment closes it. Within the text this is `not_closer_breakClosers`,
and the last byte of the text stands before the star of the delimiter, which is no slash. -/
private theorem not_closer_commentOut (b : Bytes) {k : Nat} (hk : k < b.commentBody.size) :
    (b.commentOut.isAt (2 + k) '*' && b.commentOut.isAt (2 + k + 1) '/') = false := by
  have hbody {j : Nat} (hj : j < b.commentBody.size) :
      b.commentOut[2 + j]? = (breakClosers b.toList)[j]? := by
    rw [getElem?_commentOut, Array.getElem?_append_left hj]
    exact List.getElem?_toArray
  rw [Bool.and_eq_false_imp]
  intro hstar
  rw [isAt, hbody hk] at hstar
  have hnot := not_closer_breakClosers b.toList k hstar
  by_cases hlast : k + 1 < b.commentBody.size
  · rw [isAt, Nat.add_assoc, hbody hlast]
    exact hnot
  · -- the last byte of the text stands before a star
    rw [show 2 + k + 1 = 2 + b.commentBody.size by omega]
    exact satAt_of_isAt (isAt_commentOut_close b).1 (·.is '/')

/-- The bytes of a comment, in the text around it. So a comment can be reasoned about by itself. -/
theorem isAt_append_commentOut (x s y : Bytes) {k : Nat} (hk : k < s.commentOut.size) (ch : Char) :
    (x ++ s.commentOut ++ y).isAt (x.size + k) ch = s.commentOut.isAt k ch := by
  refine isAt_congr ?_ ch
  rw [Array.append_assoc, getElem?_append_add, Array.getElem?_append_left hk]

end Bytes

/-- **A comment is read back as one literal**, whatever stands around it. The search for the closing
delimiter finds the one at the end by `blockClose_eq_some_iff`: the delimiter stands there, and none
stands before it. -/
theorem literalAt_commentOut (x s y : Bytes) :
    literalAt (x ++ s.commentOut ++ y) x.size =
      some ⟨.blockComment, ⟨x.size, x.size + s.commentOut.size⟩, true⟩ := by
  have hat := @Bytes.isAt_append_commentOut x s y
  have hsize := s.size_commentOut
  -- only the bytes of the comment are needed from here on, not how the text is put together
  generalize x ++ s.commentOut ++ y = b at hat
  have hopen := s.isAt_commentOut_open
  rw [← hat (by omega), ← hat (by omega)] at hopen
  have hclose : blockClose b (x.size + 2) = some (x.size + s.commentOut.size) := by
    rw [blockClose_eq_some_iff]
    refine ⟨by omega, ?_, fun k hk hlt => ?_⟩
    · -- the delimiter at the end closes the comment
      have hend := s.isAt_commentOut_close
      rw [← hat (by omega), ← hat (by omega)] at hend
      rw [show x.size + s.commentOut.size - 2 = x.size + (2 + s.commentBody.size) by omega,
        show x.size + s.commentOut.size - 1 = x.size + (2 + s.commentBody.size + 1) by omega,
        hend.1, hend.2]
      rfl
    · -- and none before it does
      have hnot := s.not_closer_commentOut (k := k - x.size - 2) (by omega)
      rw [← hat (by omega), ← hat (by omega)] at hnot
      rwa [show x.size + (2 + (k - x.size - 2)) = k by omega,
        show x.size + (2 + (k - x.size - 2) + 1) = k + 1 by omega] at hnot
  -- the second byte is a star, so it is no second slash
  have hnot : b.isAt (x.size + 1) '/' = false := Bytes.satAt_of_isAt hopen.2 (·.is '/')
  have hlt := Bytes.lt_size_of_isAt hopen.1
  have hslash := hopen.1
  rw [Nat.add_zero] at hslash hlt
  rw [Bytes.isAt, Array.getElem?_eq_getElem hlt, Option.any_some] at hslash
  simp only [literalAt, Array.getElem?_eq_getElem hlt, hslash, hnot, hopen.2, hclose, if_true,
    Bool.false_eq_true, if_false, Literal.closedBy]

/-! ### What else the output holds -/

/-- Breaking up closing delimiters adds only spaces, so a class without the space sees no
difference. The induction follows the definition. -/
private theorem filter_breakClosers {p : Byte → Bool} (hp : p 32 = false) (cs : List Byte) :
    (breakClosers cs).filter p = cs.filter p := by
  fun_induction breakClosers cs with
  | case1 => rfl
  | case2 c rest _ ih =>
    rw [List.filter_cons, List.filter_cons, List.filter_cons, hp, ih]
    rfl
  | case3 c rest _ ih => rw [List.filter_cons, List.filter_cons, ih]

/-- A comment adds only slashes, stars and spaces. The delimiters are made of the first two, and
breaking up the text adds the third. -/
private theorem Bytes.filter_commentOut {p : Byte → Bool}
    (hp : Byte.Excludes p (·.among ['/', '*', ' '])) (b : Bytes) :
    b.commentOut.toList.filter p = b.toList.filter p := by
  -- none of the added bytes passes the filter
  have hnot {c : Byte} (hc : c.among ['/', '*', ' '] = true) : p c = false := by
    cases hpc : p c with
    | false => rfl
    | true =>
      have hnot : c.among ['/', '*', ' '] = false := hp c hpc
      rw [hc] at hnot
      simp at hnot
  have hdelimiter {w : String}
      (hw : (ofString w).toList.all (·.among ['/', '*', ' ']) = true) :
      (ofString w).toList.filter p = [] := by
    rw [List.filter_eq_nil_iff]
    intro c hc
    rw [hnot (List.all_eq_true.mp hw c hc)]
    exact Bool.false_ne_true
  rw [commentOut, Array.toList_append, Array.toList_append, List.filter_append, List.filter_append,
    hdelimiter rfl, hdelimiter rfl, List.nil_append, List.append_nil,
    filter_breakClosers (hnot (by decide))]

/-- **Apart from slashes, stars and spaces, the output has the bytes of the source in order.** By
induction on the pieces. In particular the line breaks of the source are those of the output. -/
theorem Piece.filter_outputOf {p : Byte → Bool}
    (hp : Byte.Excludes p (·.among ['/', '*', ' '])) (ps : List Piece) :
    (outputOf ps).toList.filter p = (sourceOf ps).toList.filter p := by
  induction ps with
  | nil => rfl
  | cons q ps ih =>
    rw [outputOf_cons, sourceOf_cons, Array.toList_append, Array.toList_append, List.filter_append,
      List.filter_append, ih]
    cases q with
    | kept => rfl
    | erased text => exact congrArg (· ++ _) (Bytes.filter_commentOut hp text)

/-! ### The piece that holds a byte -/

/-- The middle of three texts is the slice between their bounds. -/
theorem Bytes.slice_append_mid (x y z : Bytes) :
    (x ++ y ++ z).slice x.size (x.size + y.size) = y := by
  rw [slice, Array.extract_append, Array.extract_append]
  simp

namespace Piece

/-- The piece that holds the byte at offset `i` of the source. -/
def holding : List Piece → Nat → Option Piece
  | [], _ => none
  | p :: rest, i => if i < p.source.size then some p else holding rest (i - p.source.size)

/-- The piece is kept. -/
def isKept : Piece → Bool
  | kept _ => true
  | erased _ => false

/-- A byte of the first pieces is held by one of them, whatever follows. -/
private theorem holding_append_left {ps qs : List Piece} {i : Nat} (h : i < (sourceOf ps).size) :
    holding (ps ++ qs) i = holding ps i := by
  induction ps generalizing i with
  | nil => simp [sourceOf_nil] at h
  | cons p ps ih =>
    rw [sourceOf_cons, Array.size_append] at h
    rw [List.cons_append, holding, holding]
    split
    · rfl
    · exact ih (by omega)

/-- A byte behind the first pieces is held by one of the others, counted from there. -/
private theorem holding_append_right {ps qs : List Piece} {i : Nat} :
    holding (ps ++ qs) ((sourceOf ps).size + i) = holding qs i := by
  induction ps generalizing i with
  | nil => simp [sourceOf_nil]
  | cons p ps ih =>
    rw [List.cons_append, holding, sourceOf_cons, Array.size_append, if_neg (by omega),
      show p.source.size + (sourceOf ps).size + i - p.source.size = (sourceOf ps).size + i by omega]
    exact ih

/-- If all pieces are kept, so is the one that holds a byte. By induction on the pieces, moving the
offset back over each piece that does not hold it. -/
private theorem exists_holding_of_all_isKept {ps : List Piece} {i : Nat} (h : ps.all isKept = true)
    (hi : i < (sourceOf ps).size) : ∃ s, holding ps i = some (.kept s) := by
  induction ps generalizing i with
  | nil => simp [sourceOf_nil] at hi
  | cons p ps ih =>
    rw [List.all_cons, Bool.and_eq_true] at h
    rw [sourceOf_cons, Array.size_append] at hi
    rw [holding]
    split
    · cases p with
      | kept s => exact ⟨s, rfl⟩
      | erased => simp [isKept] at h
    · exact ih h.2 (by omega)

/-- An erased piece is longer in the output. By induction on the pieces: one of them gains its
delimiters, and none loses a byte. -/
private theorem size_lt_of_not_all_isKept {ps : List Piece} (h : ¬ ps.all isKept = true) :
    (sourceOf ps).size < (outputOf ps).size := by
  induction ps with
  | nil => simp at h
  | cons p ps ih =>
    have hrest := size_sourceOf_le_outputOf ps
    have hp := p.size_source_le_output
    rw [sourceOf_cons, outputOf_cons, Array.size_append, Array.size_append]
    cases p with
    | kept s =>
      -- the erased piece is further on
      have := ih (by simpa [isKept] using h)
      omega
    | erased s =>
      have : (erased s).source.size < (erased s).output.size := s.size_lt_commentOut
      omega

end Piece

/-! ### The constructs of a run in the source -/

/-- The event reports a construct as erased. -/
def Event.isErased : Event → Bool
  | erased .. => true
  | _ => false

/-- Each round with the offset at which its construct starts, if the source of the first round
starts at offset `start`. -/
def sitesFrom (start : Nat) : List Round → List (Nat × Round)
  | [] => []
  | r :: rest => (start + r.gap.size, r) :: sitesFrom (start + r.gap.size + r.replaced.size) rest

/-- **Where in the source the constructs of a run were found.** -/
def Erasure.sites (e : Erasure) : List (Nat × Round) :=
  sitesFrom 0 e.rounds

/-- The pieces of each round make up its construct. -/
def Erasure.Divides (e : Erasure) : Prop :=
  ∀ r ∈ e.rounds, Piece.sourceOf r.pieces = r.replaced

/-- The pieces of every round of a run make up its construct, by induction along the run and the
layout of each patch. -/
theorem Grammar.Lawful.divides {g : Grammar} (hg : g.Lawful) {done rest : Bytes} {e : Erasure}
    (h : g.runFrom done rest = .ok e) : e.Divides := by
  refine hg.run_induction (P := fun _ _ e => e.Divides) ?_ ?_ h
  · intro done rest _ r hr
    simp at hr
  · intro done rest m f e hnext hf _ ih r hr
    rcases List.mem_cons.mp hr with rfl | hr
    · exact (hg.layout hnext).sourceOf_filled (hf.mono fun _ _ h => h.1)
    · exact ih r hr

/-- A construct that is not reported as erased was kept whole. The event compares the replacement
with the construct, and an erased piece would make the replacement longer. -/
theorem Round.all_isKept {r : Round} (hsource : Piece.sourceOf r.pieces = r.replaced)
    (h : r.event.isErased = false) : r.pieces.all Piece.isKept = true := by
  have heq : r.replacement = r.replaced := by
    unfold Round.event at h
    split at h
    · assumption
    · simp [Event.isErased] at h
  cases hall : r.pieces.all Piece.isKept with
  | true => rfl
  | false =>
    -- an erased piece would make the replacement longer than the construct
    have hlt := Piece.size_lt_of_not_all_isKept (by rw [hall]; exact Bool.false_ne_true)
    rw [hsource, ← heq] at hlt
    exact absurd hlt (Nat.lt_irrefl _)

namespace Erasure

/-- The construct of a round stands at its site. By induction on the rounds, with the text before
them left free, since each round adds its gap and its construct to it. -/
private theorem slice_site {rounds : List Round} {rest : Bytes} (h : Divides ⟨rounds, rest⟩)
    (x : Bytes) {start : Nat} {r : Round} (hr : (start, r) ∈ sitesFrom x.size rounds) :
    (x ++ Piece.sourceOf (pieces ⟨rounds, rest⟩)).slice start (start + r.replaced.size) =
      r.replaced := by
  induction rounds generalizing x with
  | nil => simp [sitesFrom] at hr
  | cons q rounds ih =>
    have hq := h q List.mem_cons_self
    rw [pieces_cons, Piece.sourceOf_cons, Piece.sourceOf_append, hq, Piece.source,
      ← Array.append_assoc, ← Array.append_assoc]
    rcases List.mem_cons.mp hr with heq | hr
    · obtain ⟨rfl, rfl⟩ := Prod.mk.inj heq
      rw [← Array.size_append]
      exact Bytes.slice_append_mid _ _ _
    · -- the round and what is before it are the text before the rest of the run
      refine ih (fun p hp => h p (List.mem_cons_of_mem _ hp)) (x ++ q.gap ++ q.replaced) ?_
      rw [Array.size_append, Array.size_append]
      exact hr

/-- **A byte outside of all constructs that are reported as erased is kept.** By induction on the
rounds, with the offset of the first one left free. The byte lies in the gap, which is kept, or in
the construct, which is kept whole if it is not reported, or further on. -/
theorem exists_kept {rounds : List Round} {rest : Bytes} (h : Divides ⟨rounds, rest⟩)
    (start : Nat) {i : Nat} (hi : i < (Piece.sourceOf (pieces ⟨rounds, rest⟩)).size)
    (hout : ∀ q r, (q, r) ∈ sitesFrom start rounds → r.event.isErased = true →
      ¬ (q ≤ start + i ∧ start + i < q + r.replaced.size)) :
    ∃ s, Piece.holding (pieces ⟨rounds, rest⟩) i = some (.kept s) := by
  induction rounds generalizing start i with
  | nil => exact Piece.exists_holding_of_all_isKept rfl hi
  | cons r rounds ih =>
    have hr := h r List.mem_cons_self
    rw [pieces_cons, Piece.sourceOf_cons, Piece.sourceOf_append, hr, Array.size_append,
      Array.size_append, Piece.source] at hi
    rw [pieces_cons, Piece.holding, Piece.source]
    -- the gap before the construct, the construct, or the rest of the run
    by_cases hgap : i < r.gap.size
    · rw [if_pos hgap]
      exact ⟨r.gap, rfl⟩
    · rw [if_neg hgap]
      by_cases hin : i - r.gap.size < r.replaced.size
      · -- the byte belongs to the construct, so that is not reported as erased
        have hevent : r.event.isErased = false := by
          cases hevent : r.event.isErased with
          | false => rfl
          | true => exact absurd ⟨by omega, by omega⟩ (hout _ r List.mem_cons_self hevent)
        rw [← hr] at hin
        rw [Piece.holding_append_left hin]
        exact Piece.exists_holding_of_all_isKept (Round.all_isKept hr hevent) hin
      · obtain ⟨j, hj⟩ : ∃ j, i - r.gap.size = (Piece.sourceOf r.pieces).size + j := by
          rw [hr]
          exact ⟨i - r.gap.size - r.replaced.size, by omega⟩
        rw [hj, Piece.holding_append_right]
        rw [hr] at hj
        refine ih (fun p hp => h p (List.mem_cons_of_mem _ hp))
          (start + r.gap.size + r.replaced.size) (by omega) fun q p hp herased => ?_
        rw [show start + r.gap.size + r.replaced.size + j = start + i by omega]
        exact hout q p (List.mem_cons_of_mem _ hp) herased

end Erasure

/-! ### The main statement -/

/-- **The erasure `e` of a text only comments out.** -/
structure Erasure.CommentsOut (e : Erasure) (text : Bytes) : Prop where
  /-- The pieces are consecutive and make up the source. -/
  source : (e.pieces.map Piece.source).foldr (· ++ ·) #[] = text
  /-- The output has the same pieces in the same order, the erased ones as comments. -/
  output : e.output = (e.pieces.map fun
    | .kept s => s
    | .erased s => s.commentOut).foldr (· ++ ·) #[]
  /-- The constructs were found at their sites. -/
  site : ∀ start r, (start, r) ∈ e.sites →
    text.slice start (start + r.replaced.size) = r.replaced
  /-- A byte outside of the constructs that are reported as erased lies in a kept piece. -/
  kept : ∀ i, i < text.size →
    (∀ start r, (start, r) ∈ e.sites → r.event.isErased = true →
      ¬ (start ≤ i ∧ i < start + r.replaced.size)) →
    ∃ s, Piece.holding e.pieces i = some (.kept s)
  /-- An erased piece is one terminated block comment of the output. -/
  comment : ∀ before s behind, e.pieces = before ++ .erased s :: behind →
    literalAt e.output (Piece.outputOf before).size =
      some ⟨.blockComment, ⟨(Piece.outputOf before).size,
        (Piece.outputOf before).size + s.commentOut.size⟩, true⟩
  /-- The output has the line breaks of the source. -/
  lineBreaks : e.output.toList.filter (·.among ['\n', '\r']) =
    text.toList.filter (·.among ['\n', '\r'])

/-- **Erasure only comments out**, whatever the text and the rules. The run exists by
`exists_runFrom`, and each field is the lemma proved for it above. -/
theorem erase_commentsOut (r : Rules) (text : Bytes) :
    ∃ e, erase r text = .ok e ∧ e.CommentsOut text := by
  have hg := r.grammar_lawful
  obtain ⟨e, hrun, hsource⟩ := hg.exists_runFrom #[] text
  have hdivides := hg.divides hrun
  refine ⟨e, hrun, hsource, ?_, ?_, ?_, ?_, ?_⟩
  · -- the output, with the two kinds of pieces written out
    have hmap : Piece.output = fun | .kept s => s | .erased s => s.commentOut := by
      funext p
      cases p <;> rfl
    rw [← hmap]
    rfl
  · -- the sites
    intro start q hq
    have := Erasure.slice_site hdivides #[] hq
    rwa [Array.empty_append, hsource] at this
  · -- the bytes outside of reported constructs
    intro i hi hout
    refine Erasure.exists_kept hdivides 0 (by rwa [hsource]) fun start q hq herased => ?_
    rw [Nat.zero_add]
    exact hout start q hq herased
  · -- the comments
    intro before s behind heq
    rw [Erasure.output, heq, Piece.outputOf_append, Piece.outputOf_cons, ← Array.append_assoc]
    exact literalAt_commentOut _ s _
  · -- the line breaks
    rw [Erasure.output, Piece.filter_outputOf (Byte.excludes_among rfl), hsource]

end TypeErasure
