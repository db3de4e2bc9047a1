import TypeErasure.Proofs.Heading.Class
import TypeErasure.Proofs.Partition
import TypeErasure.Proofs.Idle
import TypeErasure.Proofs.Quiet
import TypeErasure.Proofs.Text

/-!
# Runs behind a heading

The first round of a run on a text with a heading copies the comment. From then on the run goes in
step with the run on the text alone: in every round both see the same text, one of them behind the
heading, find the same construct, and patch it in the same way.

The step lemma is `Heading.nextMatch_append`. It needs that no cast takes the heading for its
operand. At the start of the run this is assumed; after a round it holds because what was written
in that round has ink in it (`exists_ink_of_filled`). The run lemma is `Heading.exists_runFrom`.
-/

namespace TypeErasure

/-! ### Ink -/

/-- A search downward finds nothing if nothing is there. By induction on the offset that it starts
from. -/
theorem lastBelow_eq_none_iff {p : Nat → Bool} {i : Nat} :
    lastBelow p i = none ↔ ∀ k, k < i → p k = false := by
  induction i with
  | zero => simp [lastBelow]
  | succ n ih =>
    rw [lastBelow]
    constructor
    · intro h k hk
      -- nothing was found at any offset, by the steps of the search
      split at h
      · simp at h
      · rename_i hn
        obtain hlt | rfl : k < n ∨ k = n := by omega
        · exact ih.mp h k hlt
        · simpa using hn
    · intro h
      rw [if_neg (by simp [h n (Nat.lt_succ_self n)])]
      exact ih.mpr fun k hk => h k (Nat.lt_succ_of_lt hk)

/-- The text holds something other than whitespace. -/
def Bytes.Inked (b : Bytes) : Prop :=
  ∃ c ∈ b, c.isSpace = false

private theorem Bytes.Inked.append_left {b : Bytes} (h : b.Inked) (a : Bytes) : (a ++ b).Inked := by
  obtain ⟨c, hc, hink⟩ := h
  exact ⟨c, Array.mem_append_right a hc, hink⟩

/-- Behind a text with ink there is ink before every place. So the assumption about casts holds
there: its premise fails. -/
private theorem Bytes.Inked.asFollowsInk {done : Bytes} (h : done.Inked) (rest : Bytes) {i : Nat}
    (hi : done.size ≤ i) : AsFollowsInk (done ++ rest) i := by
  intro hnone
  obtain ⟨c, hc, hink⟩ := h
  obtain ⟨k, hk, rfl⟩ := Array.mem_iff_getElem.mp hc
  -- a byte of ink would be found
  have hspace := lastBelow_eq_none_iff.mp hnone k (by omega)
  rw [satAt, Array.getElem?_append_left hk, Array.getElem?_eq_getElem hk, Option.any_some,
    hink] at hspace
  exact absurd hspace (by decide)

/-- What a piece writes is written. By induction on the pieces. -/
private theorem Piece.mem_outputOf {p : Piece} {ps : List Piece} (hp : p ∈ ps) {c : Byte}
    (hc : c ∈ p.output) : c ∈ outputOf ps := by
  induction ps with
  | nil => simp at hp
  | cons q ps ih =>
    rw [outputOf_cons]
    rcases List.mem_cons.mp hp with rfl | hps
    · exact Array.mem_append_left _ hc
    · exact Array.mem_append_right _ (ih hps)

/-- A piece that is commented out leaves ink. -/
private theorem Piece.inked_of_erased {s : Bytes} {ps : List Piece} (hs : .erased s ∈ ps) :
    (outputOf ps).Inked := by
  -- a comment starts with a slash
  have hslash : Byte.ofChar '/' ∈ (Piece.erased s).output := by
    have hopen : (Bytes.ofString "/*")[0]? = some (Byte.ofChar '/') := by decide
    rw [output, Bytes.commentOut_eq]
    exact Array.mem_append_left _ (Array.mem_of_getElem? hopen)
  exact ⟨_, mem_outputOf hs hslash, by decide⟩

/-- So does a piece that keeps a byte of ink. -/
private theorem Piece.inked_of_kept {b : Bytes} {i j : Nat} (hij : i < j)
    (hink : b.satAt i (fun c => !c.isSpace) = true) {ps : List Piece}
    (hs : .kept (b.slice i j) ∈ ps) : (outputOf ps).Inked := by
  have hi := Bytes.lt_size_of_satAt hink
  rw [Bytes.satAt, Array.getElem?_eq_getElem hi, Option.any_some, Bool.not_eq_true'] at hink
  -- the first byte of the slice is ink
  have hfirst : (b.slice i j)[0]? = some b[i] := by
    rw [Bytes.slice, Array.getElem?_extract, if_pos (by omega), Nat.add_zero,
      Array.getElem?_eq_getElem hi]
  exact ⟨b[i], mem_outputOf hs (Array.mem_of_getElem? hfirst), hink⟩

/-- The match of a class body ends with the bracket of the body. The two places where a class is
recognised otherwise both end their match there. -/
private theorem isAt_brace_of_classMembersAt {b : Bytes} {i : Nat} {m : Match}
    (h : classMembersAt b i = some m) (hfirst : b.isAt m.start 'a' = false) :
    b.isAt (m.stop - 1) '{' = true := by
  -- the match is no `abstract`
  have hnone : abstractAt b i = none := by
    rw [Alike.isAt_of_classMembersAt h] at hfirst
    simpa using hfirst
  rw [classMembersAt, hnone, Option.none_or, Option.or_eq_some_iff] at h
  rcases h with hbrace | ⟨-, hclause⟩
  · rw [classBraceAt] at hbrace
    split at hbrace
    · rename_i hopen
      obtain rfl := Option.some.inj hbrace
      exact (Bool.and_eq_true_iff.mp hopen).1
    · simp at hbrace
  · rw [implementsAt] at hclause
    split at hclause
    · dsimp only at hclause
      split at hclause
      · rename_i hopen
        obtain rfl := Option.some.inj hclause
        exact (Bool.and_eq_true_iff.mp hopen).1
      · simp at hclause
    · simp at hclause

/-- **What is written for a construct has ink in it**: the first byte of a literal, the bracket of a
class body, or a comment mark. Of a class either the keyword `abstract` is commented out or the
bracket of the body is kept; every other construct but a literal has a piece that is commented
out. -/
theorem exists_ink_of_filled {b : Bytes} {cursor i : Nat} {k : Construct} {m : Match}
    (hat : k.matchAt b cursor i = some m) {Q : Bytes → Erasure → Prop} {f : Filling}
    (hf : Filled Q (patchOf b m).segments f) : (Piece.outputOf f.pieces).Inked := by
  have hkind := kind_of_matchAt hat
  by_cases hclass : k = .classMembers
  · subst hclass
    have hpatch : patchOf b m = classMembersPatch b m := by rw [patchOf, hkind]
    rw [hpatch, classMembersPatch] at hf
    -- `abstract` is commented out, and a body keeps its bracket
    cases hfirst : b.isAt m.start 'a' with
    | true =>
      rw [hfirst] at hf
      exact Piece.inked_of_erased (hf.mem_pieces (List.mem_singleton.mpr rfl))
    | false =>
      have hbrace := isAt_brace_of_classMembersAt hat hfirst
      rw [hfirst] at hf
      refine Piece.inked_of_kept (Nat.lt_succ_self _) (Bytes.satAt_of_isAt hbrace _)
        (hf.mem_pieces (List.mem_append_right _ (List.mem_cons_self ..)))
  · cases hliteral : k.literalKind? with
    | none =>
      obtain ⟨s, hs⟩ := patchOf_erases_piece b (m := m) (hkind ▸ hliteral) (hkind ▸ hclass)
      exact Piece.inked_of_erased (hf.mem_pieces hs)
    | some kind =>
      -- a literal is kept from its first byte on
      obtain rfl := Construct.eq_literal hliteral
      obtain ⟨l, hl, -, rfl⟩ := matchAt_literal hat
      have hstart := start_of_literalAt hl
      have hopens : b.satAt i Byte.opensInert = true := by
        cases sign_of_matchAt hat with
        | literal opens => exact opens
        | statement keyword => simp [Construct.keyword?] at keyword
      have hspace : Byte.Excludes Byte.opensInert Byte.isSpace := Byte.excludes_isSpace rfl
      have hink : b.satAt l.span.start (fun c => !c.isSpace) = true := by
        rw [hstart]
        exact Bytes.satAt_mono hopens fun c hc => by rw [hspace c hc]; rfl
      exact Piece.inked_of_kept (hstart ▸ lt_stop_of_literalAt hl) hink
        (hf.mem_pieces (List.mem_singleton.mpr rfl))

/-! ### The next construct -/

namespace Heading

variable {x : Bytes} {r : Rules}

/-- If every search behind the heading finds what the search in the text finds, then the next
construct is the same. The constructs are tried one after the other, and the limit of each search is
the best match so far. -/
private theorem nextMatch_of_detect {b : Bytes} {cursor c : Nat}
    (hdetect : ∀ (k : Construct) (limit : Nat), k.detect (x ++ b) c (x.size + limit) =
      (k.detect b cursor limit).map (Match.shift x.size)) :
    r.nextMatch (x ++ b) c = (r.nextMatch b cursor).map (Match.shift x.size) := by
  have himprove (best : Option Match) (k : Construct) :
      r.improve (x ++ b) c (best.map (Match.shift x.size)) k =
        (r.improve b cursor best k).map (Match.shift x.size) := by
    -- without a match the limit is the end of the text, which is further on too
    have hlimit : (best.map (Match.shift x.size)).elim (x ++ b).size (·.start) =
        x.size + best.elim b.size (·.start) := by
      cases best with
      | none => exact Array.size_append
      | some m => rfl
    rw [Rules.improve, Rules.improve, hlimit, hdetect, ← Option.map_or]
    split <;> rfl
  -- the constructs are gone through in the same order
  have hfold (ks : List Construct) (best : Option Match) :
      ks.foldl (r.improve (x ++ b) c) (best.map (Match.shift x.size)) =
        (ks.foldl (r.improve b cursor) best).map (Match.shift x.size) := by
    induction ks generalizing best with
    | nil => rfl
    | cons k ks ih => rw [List.foldl_cons, List.foldl_cons, himprove, ih]
  exact hfold Construct.all none

/-- The search for one construct behind the heading finds what the search in the text finds, by
`matchAt_append` at each offset. -/
private theorem detect_append (h : Heading x) {b : Bytes} {cursor : Nat}
    (hink : ∀ i, cursor ≤ i → AsFollowsInk b i) (k : Construct) (limit : Nat) :
    k.detect (x ++ b) (x.size + cursor) (x.size + limit) =
      (k.detect b cursor limit).map (Match.shift x.size) :=
  firstIn_shift (fun i hi => h.matchAt_append (hink i hi) k) limit

/-- **The next construct behind a heading** is that of the text. -/
theorem nextMatch_append (h : Heading x) {b : Bytes} {cursor : Nat}
    (hink : ∀ i, cursor ≤ i → AsFollowsInk b i) :
    r.nextMatch (x ++ b) (x.size + cursor) = (r.nextMatch b cursor).map (Match.shift x.size) :=
  nextMatch_of_detect (h.detect_append hink)

/-- Nothing is given away by the line break of the heading. Every construct has a sign of its own at
the offset where it is recognised, and the line break is none of these signs. -/
private theorem matchAt_line (h : Heading x) (b : Bytes) (cursor : Nat) (k : Construct) :
    k.matchAt (x ++ b) cursor (x.size - 1) = none := by
  have hat (p : Byte → Bool) := h.satAt_line b p
  -- no word starts with a line break
  have hword (w : String) (hw : (Bytes.ofString w).toList.all Byte.isLetter = true)
      (hpos : 0 < (Bytes.ofString w).size) : keywordAt (x ++ b) (x.size - 1) w = false := by
    rw [← Bool.not_eq_true]
    intro hkeyword
    have hletter := Bytes.satAt_of_hasAt (hasAt_of_keywordAt hkeyword) hpos hw
    rw [Nat.add_zero, hat] at hletter
    exact absurd hletter (by decide)
  rw [Option.eq_none_iff_forall_ne_some]
  intro m hm
  cases sign_of_matchAt hm with
  | literal opens =>
    -- a literal starts with a slash or a quote
    rw [hat] at opens
    exact absurd opens (by decide)
  | @statement k w start keyword word place =>
    -- a statement starts with its keyword, or with `export`
    obtain ⟨hletters, hpos⟩ := Construct.keyword?_spec keyword
    rcases place with rfl | ⟨hexport, -⟩
    · rw [hword w hletters hpos] at word
      exact absurd word (by decide)
    · rw [hword "export" (by decide) (by decide)] at hexport
      exact absurd hexport (by decide)
  | classMembers word first =>
    -- a class starts with a letter, a bracket or a blank
    rcases first with hfirst | ⟨hblank, -⟩
    · rw [hat] at hfirst
      exact absurd hfirst (by decide)
    · rw [hat] at hblank
      exact absurd hblank (by decide)
  | typeArguments angle =>
    exact absurd ((hat (·.is '<')).symm.trans angle) (by decide)
  | returnType colon follows =>
    exact absurd ((hat (·.is ':')).symm.trans colon) (by decide)
  | annotated colon =>
    exact absurd ((hat (·.is ':')).symm.trans colon) (by decide)
  | cast blank word =>
    rw [hat] at blank
    exact absurd blank (by decide)

/-- An annotation does not start with the line break, so that the cursor can stand before it. The
other constructs do not look at the cursor. -/
private theorem matchAt_cursor_line (h : Heading x) (b : Bytes) (i : Nat) (k : Construct) :
    k.matchAt (x ++ b) (x.size - 1) (x.size + i) =
      k.matchAt (x ++ b) (x.size + 0) (x.size + i) := by
  cases k with
  | annotated =>
    show annotationAt _ _ _ = annotationAt _ _ _
    rw [annotationAt, annotationAt, h.annotationOf_append]
    cases annotationOf b i with
    | none => rfl
    | some found =>
      have hfrom (c : Nat) (hc : c ≤ x.size + 0) : c ≤ x.size + found.1 :=
        Nat.le_trans hc (by omega)
      dsimp only [Option.map_some, Prod.map]
      rw [if_pos (hfrom _ (by omega)), if_pos (hfrom _ (Nat.le_refl _))]
  | _ => rfl

/-- The next construct is the same if the search starts with the line break. The search makes one
step over the line break, and then it is that of `nextMatch_append`. -/
private theorem nextMatch_line (h : Heading x) {b : Bytes} (hink : ∀ i, AsFollowsInk b i) :
    r.nextMatch (x ++ b) (x.size - 1) = (r.nextMatch b 0).map (Match.shift x.size) := by
  have hlong := h.long
  refine nextMatch_of_detect fun k limit => ?_
  rw [Construct.detect, firstIn, if_pos (by omega), h.matchAt_line,
    show x.size - 1 + 1 = x.size + 0 by omega]
  refine firstIn_shift (fun i _ => ?_) limit
  rw [h.matchAt_cursor_line, h.matchAt_append (hink i)]

/-! ### The run -/

/-- The comment of the heading is the first literal. It ends with the heading's second slash,
because there is no other behind the first. -/
private theorem literalAt_comment (h : Heading x) (b : Bytes) :
    literalAt (x ++ b) 0 = some ⟨.blockComment, ⟨0, x.size - 1⟩, true⟩ := by
  have hlong := h.long
  have hat {k : Nat} (hk : k < x.size) (ch : Char) : (x ++ b).isAt k ch = x.isAt k ch :=
    satAt_of_lt b hk _
  have hclose : blockClose (x ++ b) 2 = some (x.size - 1) := by
    rw [blockClose_eq_some_iff]
    refine ⟨by omega, ?_, fun k hk hlt => ?_⟩
    · rw [show x.size - 1 - 2 = x.size - 3 by omega, show x.size - 1 - 1 = x.size - 2 by omega,
        hat (by omega), hat (by omega), h.star, h.slash]
      rfl
    · -- a slash in the middle would be a third one
      have hslash : x.isAt (k + 1) '/' = false := by
        rw [← Bool.not_eq_true]
        intro hslash
        have := h.slashes (k + 1) hslash
        omega
      rw [hat (show k + 1 < x.size by omega), hslash, Bool.and_false]
  have hfst : (x ++ b).isAt 0 '/' = true := (hat (by omega) '/').trans h.fst
  have hsnd : (x ++ b).isAt 1 '*' = true := (hat (by omega) '*').trans h.snd
  have hnot : (x ++ b).isAt 1 '/' = false := Bytes.satAt_of_isAt hsnd (·.is '/')
  have hlt := Bytes.lt_size_of_isAt hfst
  rw [Bytes.isAt, Array.getElem?_eq_getElem hlt, Option.any_some] at hfst
  simp only [literalAt, Array.getElem?_eq_getElem hlt, hfst, hnot, hsnd, hclose, if_true,
    Bool.false_eq_true, if_false, Literal.closedBy]

/-- The run on the text behind the heading, from any place where it sees the same construct next,
writes the same. -/
def InStep (x : Bytes) (r : Rules) (done rest : Bytes) (e : Erasure) : Prop :=
  r.grammar.runFrom done rest = .ok e ∧
    ∀ done' rest' : Bytes, done' ++ rest' = x ++ (done ++ rest) → done'.size ≤ x.size + done.size →
      r.nextMatch (x ++ (done ++ rest)) done'.size =
        (r.nextMatch (done ++ rest) done.size).map (Match.shift x.size) →
      ∃ e', r.grammar.runFrom done' rest' = .ok e' ∧ done' ++ e'.output = x ++ (done ++ e.output)

section Round

variable {done rest done' rest' : Bytes} {m : Match} {f : Filling}

/-- Behind a heading a round writes the same. What was kept before the construct is the text up to
it, so that both sides are the text up to the construct and its replacement. -/
private theorem doneAfter_append (heq : done' ++ rest' = x ++ (done ++ rest))
    (hle : done'.size ≤ x.size + done.size) (hstart : done.size ≤ m.start) :
    Grammar.doneAfter done' rest' (m.shift x.size) f = x ++ Grammar.doneAfter done rest m f := by
  -- what is kept before the construct makes up the text up to it
  have hkept (a b : Bytes) {k : Nat} (hk : a.size ≤ k) :
      a ++ (a ++ b).slice a.size k = (a ++ b).slice 0 k := by
    calc a ++ (a ++ b).slice a.size k
        = (a ++ b).slice 0 a.size ++ (a ++ b).slice a.size k := by rw [Bytes.slice_append_left]
      _ = (a ++ b).slice 0 k := Bytes.slice_append_slice _ (Nat.zero_le _) hk
  have hwhole : (x ++ (done ++ rest)).slice 0 (x.size + m.start) =
      x ++ (done ++ rest).slice 0 m.start := by
    rw [← hkept x (done ++ rest) (Nat.le_add_right _ _)]
    exact congrArg (x ++ ·) (Bytes.slice_append_add x (done ++ rest) 0 m.start)
  have hshift : (m.shift x.size).start = x.size + m.start := rfl
  rw [Grammar.doneAfter, Grammar.doneAfter, hshift, hkept done' rest' (by omega),
    hkept done rest hstart, heq, hwhole, Array.append_assoc]

/-- Behind a heading a round leaves the same. The patch is the same, so its end is at the same
distance. -/
private theorem restAfter_append (heq : done' ++ rest' = x ++ (done ++ rest))
    (hpatch : patchOf (x ++ (done ++ rest)) (m.shift x.size) =
      (patchOf (done ++ rest) m).shift x.size) :
    r.grammar.restAfter done' rest' (m.shift x.size) = r.grammar.restAfter done rest m := by
  have hstop : (r.grammar.patch (x ++ (done ++ rest)) (m.shift x.size)).stop =
      x.size + (r.grammar.patch (done ++ rest) m).stop := congrArg Patch.stop hpatch
  rw [Grammar.restAfter, Grammar.restAfter, heq, hstop, Array.size_append,
    Bytes.slice_append_add]

end Round

/-- **A run behind a heading goes in step** with the run on the text. By induction on the run on the
text alone, whose rounds are copied one by one. The invariant does not say where the output of the
other run ends, only that it sees the same construct next: after the first round it is the comment
without its line break. -/
theorem exists_runFrom (h : Heading x) (r : Rules) (done rest : Bytes) :
    ∃ e, InStep x r done rest e := by
  have hg := r.grammar_lawful
  refine (hg.exists_run (P := InStep x r) ?_ ?_ done rest).imp fun e he => he.2.2
  · -- no construct is found in either text
    intro done rest hnone
    refine ⟨Grammar.runFrom_of_next_eq_none hnone, fun done' rest' heq hle hnext => ?_⟩
    have hnone' : r.grammar.next (done' ++ rest') done'.size = none := by
      rw [heq]
      exact hnext.trans (congrArg (Option.map _) hnone)
    exact ⟨⟨[], rest'⟩, Grammar.runFrom_of_next_eq_none hnone', by
      rw [Erasure.output_nil, Erasure.output_nil, heq]⟩
  · -- one round, and what the rest of the run does
    intro done rest m f e hnext hf _ ih
    have hrun : Filled (fun t e => r.grammar.run t = .ok e)
        (r.grammar.patch (done ++ rest) m).segments f := hf.mono fun t e hq => hq.2.1
    refine ⟨hg.runFrom_round hnext hrun ih.1, fun done' rest' heq hle hnext' => ?_⟩
    -- the same construct is found, with the same patch
    obtain ⟨k, i, -, -, -, hat⟩ := (r.nextMatch_best (done ++ rest) done.size).found m hnext
    have hpatch := h.patchOf_append hat
    have hshifted : r.grammar.next (done' ++ rest') done'.size = some (m.shift x.size) := by
      rw [heq]
      exact hnext'.trans (congrArg (Option.map _) hnext)
    have hdone := doneAfter_append (f := f) heq hle (hg.le_start hnext)
    have hrest := restAfter_append (r := r) heq hpatch
    -- what was written has ink, so that no cast can take the heading for its operand
    have hink : (Grammar.doneAfter done rest m f).Inked :=
      (exists_ink_of_filled hat hf).append_left _
    obtain ⟨e', hrun', hout⟩ := ih.2 (x ++ Grammar.doneAfter done rest m f)
      (r.grammar.restAfter done rest m) (Array.append_assoc ..)
      (Nat.le_of_eq Array.size_append) (by
        rw [Array.size_append]
        exact h.nextMatch_append fun i hi => hink.asFollowsInk _ hi)
    have hsegments : (r.grammar.patch (done' ++ rest') (m.shift x.size)).segments =
        (r.grammar.patch (done ++ rest) m).segments := by
      rw [heq]
      show (patchOf (x ++ (done ++ rest)) (m.shift x.size)).segments = _
      rw [hpatch]
      rfl
    have hnested : Filled (fun t e => r.grammar.run t = .ok e)
        (r.grammar.patch (done' ++ rest') (m.shift x.size)).segments f := hsegments ▸ hrun
    refine ⟨_, hg.runFrom_round (e := e') hshifted hnested (by rw [hdone, hrest]; exact hrun'), ?_⟩
    rw [Erasure.output_cons, Erasure.output_cons]
    calc done' ++ ((done' ++ rest').slice done'.size (m.shift x.size).start ++
            (Piece.outputOf f.pieces ++ e'.output))
        = Grammar.doneAfter done' rest' (m.shift x.size) f ++ e'.output := by
          rw [Grammar.doneAfter]
          simp only [Array.append_assoc]
      _ = x ++ (Grammar.doneAfter done rest m f ++ e.output) := by rw [hdone, hout]
      _ = x ++ (done ++ ((done ++ rest).slice done.size m.start ++
            (Piece.outputOf f.pieces ++ e.output))) := by
          rw [Grammar.doneAfter]
          simp only [Array.append_assoc]

/-- **A heading stays in front of the output**, and changes nothing about the rest. The first round
of the run on the longer text copies the comment, and then the two runs go in step. -/
theorem erase_append (h : Heading x) (r : Rules) {s : Bytes} (hink : ∀ i, AsFollowsInk s i) :
    ∃ e e', erase r s = .ok e ∧ erase r (x ++ s) = .ok e' ∧ e'.output = x ++ e.output := by
  have hlong := h.long
  have hg := r.grammar_lawful
  obtain ⟨e, hrun, hstep⟩ := h.exists_runFrom r #[] s
  -- the first round copies the comment
  have hsize : x.size - 1 ≤ (x ++ s).size := by rw [Array.size_append]; omega
  let comment := (x ++ s).slice 0 (x.size - 1)
  let behind := (x ++ s).slice (x.size - 1) (x ++ s).size
  let first : Match := ⟨.literal .blockComment, ⟨0, x.size - 1⟩⟩
  let filling : Filling := ⟨[.kept comment], []⟩
  have hnext : r.grammar.next (#[] ++ (x ++ s)) (#[] : Bytes).size = some first := by
    rw [Array.empty_append]
    exact Rules.Quiet.nextMatch (fun _ _ i _ hi => absurd hi (Nat.not_lt_zero i)) (Nat.le_refl 0)
      (h.literalAt_comment s)
  have hfilled : Filled (fun t e => r.grammar.run t = .ok e)
      (r.grammar.patch (#[] ++ (x ++ s)) first).segments filling := by
    rw [Array.empty_append]
    exact .piece .nil
  have hdone : Grammar.doneAfter #[] (x ++ s) first filling = comment := by
    rw [Grammar.doneAfter, Array.empty_append, Array.empty_append]
    show (x ++ s).slice 0 0 ++ (comment ++ #[]) = comment
    rw [Bytes.slice_self, Array.empty_append, Array.append_empty]
  have hrest : r.grammar.restAfter #[] (x ++ s) first = behind := by
    rw [Grammar.restAfter, Array.empty_append]
    rfl
  -- then the line break is before the cursor of one run and behind that of the other
  have hwhole : comment ++ behind = x ++ (#[] ++ s) := by
    rw [Bytes.slice_append_slice _ (Nat.zero_le _) hsize, Array.empty_append]
    exact Array.extract_size
  have hcursor : comment.size = x.size - 1 := Bytes.size_slice hsize
  obtain ⟨e', hrun', hout⟩ := hstep comment behind hwhole (by omega) (by
    rw [hcursor, Array.empty_append]
    exact h.nextMatch_line hink)
  rw [← hdone, ← hrest] at hrun'
  refine ⟨e, _, hrun, hg.runFrom_round (e := e') hnext hfilled hrun', ?_⟩
  calc (Erasure.mk (r.grammar.round #[] (x ++ s) first filling :: e'.rounds) e'.rest).output
      = Grammar.doneAfter #[] (x ++ s) first filling ++ e'.output := by
        rw [Erasure.output_cons, Grammar.doneAfter, Array.empty_append, Array.append_assoc]
        rfl
    _ = x ++ (#[] ++ e.output) := by rw [hdone, hout]
    _ = x ++ e.output := by rw [Array.empty_append]

end Heading

end TypeErasure
