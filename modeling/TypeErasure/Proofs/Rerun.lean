import TypeErasure.Proofs.Quiet
import TypeErasure.Proofs.Token

/-!
# Erasing an erased text

A second run over the output of a run finds nothing to erase, if

* the rules look back only (`Rules.LooksBack`), and
* each slash of the text stands in a comment, a string or a template.

The proof follows the first run from its end. `Settled` says of a state that the run from there on
changes nothing when it is made again, and that its output parts from its source where the first
construct is commented out. A round keeps this:

* A literal is copied. The text before it was quiet and still is, so the second run copies the same
  literal (`settled_literal`).
* A construct is commented out. The text before it was quiet and still is, so the second run finds
  the comment that was written for it and copies that. In a list it goes on through the text between
  the items, where nothing is given away (`settled_erased`).

Neither condition can be left out. A line that ends with a comment reads as if it ended with an
operator, so a return type may go on in the next line. The walk through the fields of a class stops
at an alias and passes the comment that is written for it. And a slash outside of literals joins
with the comment that is written behind it.
-/

namespace TypeErasure

/-! ### Runs that change nothing -/

/-- **The run on `out` changes nothing**, where `done` is the output so far. -/
def Fixed (r : Rules) (done out : Bytes) : Prop :=
  ∃ e, r.grammar.runFrom done out = .ok e ∧ e.output = out

namespace Fixed

variable {r : Rules} {done out gap lit : Bytes}

private theorem of_none (h : r.nextMatch (done ++ out) done.size = none) : Fixed r done out :=
  ⟨⟨[], out⟩, Grammar.runFrom_of_next_eq_none h, Erasure.output_nil out⟩

/-- **A literal stays as it is.** The first round copies the text before it and the literal, and the
run goes on behind it. -/
theorem literal {kind : LiteralKind}
    (hnext : r.nextMatch (done ++ (gap ++ (lit ++ out))) done.size =
      some ⟨.literal kind, ⟨(done ++ gap).size, (done ++ gap ++ lit).size⟩⟩)
    (h : Fixed r (done ++ gap ++ lit) out) : Fixed r done (gap ++ (lit ++ out)) := by
  obtain ⟨e, hrun, hout⟩ := h
  generalize htext : done ++ (gap ++ (lit ++ out)) = text at hnext
  -- the text around the cursor, cut at the ends of the gap and of the literal
  have hgap : text.slice done.size (done ++ gap).size = gap := by
    rw [← htext, ← Array.append_assoc, Array.size_append]
    exact Bytes.slice_append_mid _ _ _
  have hlit : text.slice (done ++ gap).size (done ++ gap ++ lit).size = lit := by
    have hsize : (done ++ gap ++ lit).size = (done ++ gap).size + lit.size := Array.size_append
    rw [← htext, ← Array.append_assoc, ← Array.append_assoc, hsize]
    exact Bytes.slice_append_mid _ _ _
  have hrest : text.slice (done ++ gap ++ lit).size text.size = out := by
    rw [← htext, ← Array.append_assoc, ← Array.append_assoc]
    exact Bytes.slice_append_right _ _
  -- the patch of a literal keeps it whole
  have hsegments : (patchOf text ⟨.literal kind,
      ⟨(done ++ gap).size, (done ++ gap ++ lit).size⟩⟩).segments = [.piece (.kept lit)] := by
    simp only [patchOf, literalPatch, Segment.keep, Match.start, Match.stop, hlit]
  have hkept : Piece.outputOf [.kept lit] = lit := by
    simp [Piece.outputOf, Piece.output]
  rw [← htext] at hnext
  refine ⟨_, r.grammar_lawful.runFrom_round (f := ⟨[.kept lit], []⟩) (e := e) hnext ?_ ?_, ?_⟩
  · rw [htext]
    exact hsegments ▸ .piece .nil
  · rw [Grammar.doneAfter, Grammar.restAfter, htext]
    simp only [Match.start, hgap, hkept]
    exact hrest ▸ hrun
  · rw [Erasure.output_cons, hout, Grammar.round, htext]
    simp only [Match.start, hgap, hkept]

/-- **A comment behind quiet text stays as it is.** It is the next construct, since the text before
it is quiet, and it is a literal. -/
theorem comment {s : Bytes}
    (hquiet : r.Quiet (done ++ (gap ++ (s.commentOut ++ out))) done.size (done ++ gap).size)
    (h : Fixed r (done ++ gap ++ s.commentOut) out) :
    Fixed r done (gap ++ (s.commentOut ++ out)) := by
  have hliteral := literalAt_commentOut (done ++ gap) s out
  have hle : done.size ≤ (done ++ gap).size := by rw [Array.size_append]; omega
  rw [← Array.size_append, Array.append_assoc, Array.append_assoc] at hliteral
  exact literal (hquiet.nextMatch hle hliteral) h

end Fixed

/-! ### The ends of a comment -/

private theorem Bytes.isAt_commentOut (x s y : Bytes) :
    (x ++ (s.commentOut ++ y)).isAt x.size '/' = true := by
  have hsize := s.size_commentOut
  rw [← Array.append_assoc]
  exact (isAt_append_commentOut x s y (k := 0) (by omega) '/').trans s.isAt_commentOut_open.1

/-- A comment cuts no arrow in two. It ends with a slash, and arrows have none. -/
private theorem arrowFree_commentOut (x s y : Bytes) :
    ArrowFree (x ++ s.commentOut ++ y) (x ++ s.commentOut).size := by
  have hsize := s.size_commentOut
  have hlast := (Bytes.isAt_append_commentOut x s y (by omega) '/').trans s.isAt_commentOut_close.2
  have hend : (x ++ s.commentOut).size = x.size + (2 + s.commentBody.size + 1) + 1 := by
    rw [Array.size_append]
    omega
  rw [hend]
  exact .succ (p := (·.is '/')) hlast rfl

/-- **What is written for a list stays as it is.** By induction on the list. -/
theorem ItemList.fixed {r : Rules} (hr : r.LooksBack) {b : Bytes} {i j : Nat}
    {segments : List Segment} (h : ItemList b i segments j) {Q : Bytes → Erasure → Prop}
    {f : Filling} (hf : Filled Q segments f) {done out : Bytes}
    (hrest : Fixed r (done ++ Piece.outputOf f.pieces) out) :
    Fixed r done (Piece.outputOf f.pieces ++ out) := by
  induction h generalizing f done with
  | nil i =>
    cases hf
    simpa [Piece.outputOf] using hrest
  | @cons i start stop j rest hstart text henclosed tail ih =>
    obtain _ | ⟨_ | @⟨_, _, f, hf⟩⟩ := hf
    simp only [Piece.outputOf_cons, Piece.output, Array.append_assoc] at hrest ⊢
    -- between the items nothing is given away, and then the comment comes next
    refine Fixed.comment ?_ (ih hf (by simpa only [Array.append_assoc] using hrest))
    have hslash := Bytes.isAt_commentOut (done ++ b.slice i start) (b.slice start stop)
      (Piece.outputOf f.pieces ++ out)
    rw [Array.append_assoc] at hslash
    rw [Array.size_append] at hslash ⊢
    exact (text.of_slice hstart).quiet hslash hr

/-- What is written for a list ends with a comment. By induction on the list. -/
theorem ItemList.ends {b : Bytes} {i j : Nat} {segments : List Segment}
    (h : ItemList b i segments j) {Q : Bytes → Erasure → Prop} {f : Filling}
    (hf : Filled Q segments f) (x s : Bytes) :
    ∃ y u : Bytes, x ++ s.commentOut ++ Piece.outputOf f.pieces = y ++ u.commentOut := by
  induction h generalizing f x s with
  | nil i =>
    cases hf
    exact ⟨x, s, by simp [Piece.outputOf]⟩
  | @cons i start stop j rest hstart text henclosed tail ih =>
    obtain _ | ⟨_ | @⟨_, _, f, hf⟩⟩ := hf
    -- the comment that is written for this item is the last one so far
    obtain ⟨y, u, heq⟩ := ih hf (x ++ s.commentOut ++ b.slice i start) (b.slice start stop)
    refine ⟨y, u, ?_⟩
    rw [← heq]
    simp only [Piece.outputOf_cons, Piece.output, Array.append_assoc]

/-! ### A round and its second run -/

/-- The output is the source, or parts from it where the first construct was erased. -/
def Diverges (t o : Bytes) (c : Nat) : Prop :=
  t = o ∨ ∃ n, Forks t o c n

/-- What heads an alias in the output heads one in the source. -/
theorem Diverges.headsAlias {t o : Bytes} {c d : Nat} (h : Diverges t o c) (hclean : Clean t c)
    (hat : HeadsAlias o d c) : HeadsAlias t d c := by
  rcases h with rfl | ⟨n, h⟩
  · exact hat
  · exact h.headsAlias hclean h.scans.le (Scans.refl t c) hat

/-- Where source and output part does not depend on the place that one looks from. -/
theorem Diverges.rebase {t o : Bytes} {c c' : Nat} (h : Diverges t o c') (hc : Scans t c c') :
    Diverges t o c := by
  rcases h with rfl | ⟨n, h⟩
  · exact .inl rfl
  · exact .inr ⟨n, h.rebase hc⟩

/-- **The run from a state on changes nothing when it is made again.** -/
structure Settled (r : Rules) (done rest out : Bytes) : Prop where
  fixed : Fixed r done out
  diverges : Diverges (done ++ rest) (done ++ out) done.size

section Round

variable {r : Rules} {done rest : Bytes} {m : Match} {f : Filling} {Q : Bytes → Erasure → Prop}

/-- The text behind a construct is clean, whatever was written for the construct. -/
private theorem clean_restAfter (hnext : r.nextMatch (done ++ rest) done.size = some m)
    (hclean : Clean (done ++ rest) done.size) (x : Bytes) :
    Clean (x ++ r.grammar.restAfter done rest m) x.size := by
  have hg := r.grammar_lawful
  have hstop := (hclean.of_scans (hg.scans hnext)).of_settles (hg.settles hnext hclean)
  exact Clean.append_right (i := 0) |>.mpr (hstop.rest (hg.stop_le_size hnext))

/-- A comment is written for the first item of a construct, and its list goes on behind it. -/
private theorem outputOf_erased {b : Bytes} {i j : Nat} {segments rest : List Segment}
    (hsegments : segments = .erase b i j :: rest ∨
      segments = .keep b i i :: .erase b i j :: rest) (hf : Filled Q segments f) :
    ∃ (u : Bytes) (f' : Filling), Filled Q rest f' ∧
      Piece.outputOf f.pieces = u.commentOut ++ Piece.outputOf f'.pieces := by
  rcases hsegments with rfl | rfl
  · obtain _ | @⟨_, _, f', hf'⟩ := hf
    exact ⟨_, f', hf', Piece.outputOf_cons _ _⟩
  · -- an annotation keeps an empty text before its first item
    obtain _ | ⟨_ | @⟨_, _, f', hf'⟩⟩ := hf
    refine ⟨b.slice i j, f', hf', ?_⟩
    rw [Piece.outputOf_cons, Piece.outputOf_cons, Piece.output, Piece.output, Bytes.slice_self,
      Array.empty_append]

/-- On a clean path, a literal that comes next is no regular expression. -/
private theorem inertStop_of_nextMatch {b : Bytes} {c : Nat} {kind : LiteralKind}
    (hnext : r.nextMatch b c = some m) (hkind : m.kind = .literal kind) (hclean : Clean b c) :
    inertStop b m.start = some m.stop := by
  have hscan := r.grammar_lawful.scans hnext
  obtain ⟨k, i, -, -, -, hat⟩ := (r.nextMatch_best b c).found m hnext
  obtain rfl := (kind_of_matchAt hat).symm.trans hkind
  obtain ⟨l, hl, -, rfl⟩ := matchAt_literal hat
  have hstart : l.span.start = i := start_of_literalAt hl
  show inertStop b l.span.start = some l.span.stop
  rw [show (Match.mk (.literal kind) l.span).start = i from hstart] at hscan
  rw [hstart]
  -- the slash of a regular expression would stand on a clean path and open no comment
  refine inertStop_of_literalAt hl fun hregex => ?_
  have hinert := hclean i hscan ((literalAt_spec hl).2 hregex)
  rw [inertStop_of_regex hl hregex] at hinert
  simp at hinert

/-- **A round that copies a literal**, made again. What follows is settled, so that source and
output agree up to the end of the literal at least. Hence both hold it, and before it the output is
as quiet as the source. -/
theorem settled_literal (hr : r.LooksBack)
    (hnext : r.nextMatch (done ++ rest) done.size = some m) {kind : LiteralKind}
    (hkind : m.kind = .literal kind) (hf : Filled Q (patchOf (done ++ rest) m).segments f)
    (hclean : Clean (done ++ rest) done.size) {out : Bytes}
    (ih : Settled r (Grammar.doneAfter done rest m f) (r.grammar.restAfter done rest m) out) :
    Settled r done rest
      ((done ++ rest).slice done.size m.start ++ (Piece.outputOf f.pieces ++ out)) := by
  have hstop := inertStop_of_nextMatch hnext hkind hclean
  have hscan := r.grammar_lawful.scans hnext
  -- the text falls into what is done, the gap, the construct and the rest
  obtain ⟨gap, src, hgap, hsrc, hstart, hend, htext⟩ :=
    r.grammar_lawful.round_parts hnext
  rw [show r.grammar.patch = patchOf from rfl] at hsrc hend
  have hpatch : patchOf (done ++ rest) m = literalPatch (done ++ rest) m := by
    rw [patchOf, hkind]
  have hpieces : Piece.outputOf f.pieces = src := by
    rw [hpatch] at hf hsrc
    rw [Filled.eq_of_pieces (l := [.kept _]) hf, ← hsrc]
    simp [Piece.outputOf, Piece.output, literalPatch]
  rw [Grammar.doneAfter, hgap, hpieces] at ih
  rw [hgap, hpieces]
  have hout : done ++ (gap ++ (src ++ out)) = done ++ gap ++ src ++ out := by
    simp only [Array.append_assoc]
  have hsame := ih.diverges
  rw [← htext, ← hout] at hsame
  have hmstop : (done ++ gap ++ src).size = m.stop := by rw [hend, hpatch]; rfl
  have hpath : Scans (done ++ rest) done.size (done ++ gap ++ src).size := by
    rw [hmstop]
    exact hscan.trans (.inert hstop)
  refine ⟨?_, hsame.rebase hpath⟩
  -- the output holds the same literal, behind quiet text
  obtain ⟨kind', hnext'⟩ : ∃ kind', r.nextMatch (done ++ (gap ++ (src ++ out))) done.size =
      some ⟨.literal kind', ⟨m.start, m.stop⟩⟩ := by
    rcases hsame with heq | ⟨n, hforks⟩
    · exact ⟨kind, by rw [← heq, hnext, ← hkind]; rfl⟩
    · -- the texts part behind the literal, so both hold it
      have hlt := lt_of_inertStop hstop
      have hle := hforks.scans.le
      replace hforks := hforks.rebase hpath
      have hquiet := hforks.quiet hclean hr hnext (by omega)
      have hinert := (hforks.inertStop_eq hclean hscan (by omega)).trans hstop
      obtain ⟨l, hl, hlstop⟩ := Option.map_eq_some_iff.mp hinert
      have hat := (Option.filter_eq_some_iff.mp hl).1
      refine ⟨l.kind, ?_⟩
      rw [hquiet.nextMatch hscan.le hat, ← hlstop, ← start_of_literalAt hat]
  rw [← hstart, ← hmstop] at hnext'
  exact Fixed.literal hnext' ih.fixed

/-- **Where a construct is commented out, source and output part**, with the comment `u` and what is
written for the rest of its list. The one thing to show is that what heads an alias behind the
comment does so in the source: it is followed through the list, and behind it is what is left of the
source. -/
theorem forks_of_erased {t x src rest u out : Bytes} {c stop : Nat} {segments : List Segment}
    (htext : t = x ++ src ++ rest) (hscan : Scans t c x.size) (hstarts : StartsErased t x.size)
    (harrow : ArrowFree t (x ++ src).size) (henclosed : Enclosed t x.size stop)
    (hlist : ItemList t stop segments (x ++ src).size) (hf : Filled Q segments f)
    (hclean : Clean (x ++ u.commentOut ++ Piece.outputOf f.pieces ++ rest)
      (x ++ u.commentOut ++ Piece.outputOf f.pieces).size)
    (hdiverges : Diverges (x ++ u.commentOut ++ Piece.outputOf f.pieces ++ rest)
      (x ++ u.commentOut ++ Piece.outputOf f.pieces ++ out)
      (x ++ u.commentOut ++ Piece.outputOf f.pieces).size) :
    Forks t (x ++ u.commentOut ++ Piece.outputOf f.pieces ++ out) c x.size where
  agree := by
    rw [htext, Array.append_assoc, Array.append_assoc, Array.append_assoc]
    exact .append _ _ _
  scans := hscan
  comment := by
    rw [Array.append_assoc, Array.append_assoc]
    exact Bytes.isAt_commentOut _ _ _
  starts := hstarts
  heads := fun d hat => by
    -- the comment is passed over in the output
    have hfirst : HeadsAlias (x ++ u.commentOut ++ Piece.outputOf f.pieces ++ out) d
        (x ++ u.commentOut).size := by
      rw [Array.append_assoc, Array.append_assoc] at hat ⊢
      exact (headsAlias_commentOut _ _ _ d).mp hat
    refine henclosed.headsAlias (hlist.headsAlias hf rfl (fun hlast => ?_) hfirst)
    -- behind the list, the output goes on with the output of what is left of the source
    obtain ⟨y, v, hends⟩ := hlist.ends hf x u
    have hcomment : ArrowFree (x ++ u.commentOut ++ Piece.outputOf f.pieces ++ rest)
        (x ++ u.commentOut ++ Piece.outputOf f.pieces).size := by
      rw [hends]
      exact arrowFree_commentOut y v rest
    have hleft : HeadsAlias rest d 0 :=
      (headsAlias_append_right hcomment d 0).mp (hdiverges.headsAlias hclean hlast)
    rw [htext] at harrow ⊢
    exact (headsAlias_append_right harrow d 0).mpr hleft

/-- **A round that comments out a construct**, made again. The output parts from the source at the
comment that is written for the construct (`forks_of_erased`). Before it the output is as quiet as
the source, so that the second run finds the comment first. -/
theorem settled_erased (hr : r.LooksBack)
    (hnext : r.nextMatch (done ++ rest) done.size = some m)
    (herases : (patchOf (done ++ rest) m).Erases (done ++ rest) m.start)
    (hf : Filled Q (patchOf (done ++ rest) m).segments f)
    (hclean : Clean (done ++ rest) done.size) {out : Bytes}
    (ih : Settled r (Grammar.doneAfter done rest m f) (r.grammar.restAfter done rest m) out) :
    Settled r done rest
      ((done ++ rest).slice done.size m.start ++ (Piece.outputOf f.pieces ++ out)) := by
  obtain ⟨stop, segments, hsegments, henclosed, hlist⟩ := herases.segments
  obtain ⟨gap, src, hgap, hsrc, hstart, hend, htext⟩ :=
    r.grammar_lawful.round_parts hnext
  rw [show r.grammar.patch = patchOf from rfl] at hsrc hend
  obtain ⟨u, f', hf', hpieces⟩ := outputOf_erased hsegments hf
  have hscan := r.grammar_lawful.scans hnext
  have hrest := clean_restAfter hnext hclean
    (done ++ gap ++ u.commentOut ++ Piece.outputOf f'.pieces)
  have hdone : Grammar.doneAfter done rest m f =
      done ++ gap ++ u.commentOut ++ Piece.outputOf f'.pieces := by
    rw [Grammar.doneAfter, hgap, hpieces, ← Array.append_assoc]
  rw [hdone] at ih
  rw [hgap, hpieces]
  have hout : done ++ (gap ++ (u.commentOut ++ Piece.outputOf f'.pieces ++ out)) =
      done ++ gap ++ u.commentOut ++ Piece.outputOf f'.pieces ++ out := by
    simp only [Array.append_assoc]
  have hforks : Forks (done ++ rest)
      (done ++ (gap ++ (u.commentOut ++ Piece.outputOf f'.pieces ++ out))) done.size m.start := by
    have hstarts := herases.starts
    have harrow := herases.arrow
    rw [← hstart] at hscan hstarts henclosed ⊢
    rw [← hend] at harrow hlist
    rw [hout]
    -- from the end of the construct on, the fork is that of the rest of the run
    exact forks_of_erased htext hscan hstarts harrow henclosed hlist hf' hrest ih.diverges
  refine ⟨?_, .inr ⟨m.start, hforks⟩⟩
  -- the second run copies the comment, and behind it what is written for the rest of the list
  have hquiet := hforks.quiet hclean hr hnext (Nat.le_refl _)
  rw [← hstart] at hquiet
  rw [Array.append_assoc] at hquiet ⊢
  exact Fixed.comment hquiet (hlist.fixed hr hf' ih.fixed)

end Round

/-- **A run under rules that look back changes nothing when it is made again.** A construct that
such rules enable is a literal, or it is commented out. -/
theorem settled_of_runFrom {r : Rules} (hr : r.LooksBack) {done rest : Bytes} {e : Erasure}
    (hrun : r.grammar.runFrom done rest = .ok e) (hclean : Clean (done ++ rest) done.size) :
    Settled r done rest e.output := by
  -- the induction is on the rounds of the run, and a round is settled if what follows it is
  refine r.grammar_lawful.run_induction (P := fun done rest e =>
    Clean (done ++ rest) done.size → Settled r done rest e.output) ?_ ?_ hrun hclean
  · -- where nothing is found
    intro done rest hnone _
    rw [Erasure.output_nil]
    exact ⟨.of_none hnone, .inl rfl⟩
  · intro done rest m f e hnext hf _ ih hclean
    rw [Erasure.output_cons]
    have hsettled := ih (clean_restAfter hnext hclean _)
    obtain ⟨k, i, hk, -, -, hat⟩ := (r.nextMatch_best _ _).found m hnext
    cases hliteral : k.literalKind? with
    | none =>
      have herases := patchOf_erases hliteral (hr.ne hk).1 (hr.ne hk).2 hat
      exact settled_erased hr hnext herases hf hclean hsettled
    | some kind =>
      have hkind : m.kind = .literal kind := by
        rw [kind_of_matchAt hat, Construct.eq_literal hliteral]
      exact settled_literal hr hnext hkind hf hclean hsettled

/-- **Erasure is idempotent** under rules that look back: the output of a run is left as it is by a
second run. -/
theorem erase_idempotent (r : Rules) (hreturn : r.returnTypes = false)
    (hclass : r.classMembers = false) (text : Bytes) (h : SlashesCovered text) :
    ∃ e e', erase r text = .ok e ∧ erase r e.output = .ok e' ∧ e'.output = e.output := by
  obtain ⟨e, hrun, -⟩ := r.grammar_lawful.exists_runFrom #[] text
  have hclean : Clean (#[] ++ text) (#[] : Bytes).size := by
    rw [Array.empty_append]
    exact h.clean
  obtain ⟨e', hrun', hout⟩ := (settled_of_runFrom ⟨hreturn, hclass⟩ hrun hclean).fixed
  exact ⟨e, e', hrun, hrun', hout⟩

/-- An alias whose parameters hold a cast, and a list with a comment between its items. -/
theorem erase_idempotent_list :
    SlashesCovered (.ofString "type P<Q as R> = S\nf(a?: T<U>, /* , c: V */ ...b: W) as X // : Y") ∧
      ∃ e e', erase { returnTypes := false, classMembers := false }
          (.ofString "type P<Q as R> = S\nf(a?: T<U>, /* , c: V */ ...b: W) as X // : Y") = .ok e ∧
        erase { returnTypes := false, classMembers := false } e.output = .ok e' ∧
        e'.output = e.output := by
  have h : SlashesCovered
      (.ofString "type P<Q as R> = S\nf(a?: T<U>, /* , c: V */ ...b: W) as X // : Y") := by
    decide +kernel
  exact ⟨h, erase_idempotent _ rfl rfl _ h⟩

/-- **Erasure is not idempotent in general.** A second run erases more if the rules look for return
types, if they look for class members, and if a slash stands outside of literals. -/
theorem erase_not_idempotent :
    let branch := Bytes.ofString
      "switch (x) \x7b\n  case f(a): y = b as C\n  if (y) \x7b\x7d\n\x7d\n"
    let branch' := Bytes.ofString
      "switch (x) \x7b\n  case f(a): y = b/* as C*/\n  if (y) \x7b\x7d\n\x7d\n"
    let fields := Bytes.ofString "class A\x7btype B=C;x:D\x7d"
    let fields' := Bytes.ofString "class A\x7b/*type B=C;*/x:D\x7d"
    let quotient := Bytes.ofString "a/ as \x7b\n(x: T)\n\x7d"
    let quotient' := Bytes.ofString "a//* as \x7b\n(x: T)\n\x7d*/"
    (SlashesCovered branch ∧ ∀ classMembers,
      (erase { classMembers } branch).toOption.map (·.output) = some branch' ∧
        (erase { classMembers } branch').toOption.map (·.output) = some (.ofString
          "switch (x) \x7b\n  case f(a)/*: y = b/* as C* /\n  if (y)*/ \x7b\x7d\n\x7d\n")) ∧
    (SlashesCovered fields ∧
      (erase { returnTypes := false } fields).toOption.map (·.output) = some fields' ∧
        (erase { returnTypes := false } fields').toOption.map (·.output) =
          some (.ofString "class A\x7b/*type B=C;*/x/*:D*/\x7d")) ∧
    (erase { returnTypes := false, classMembers := false } quotient).toOption.map (·.output) =
        some quotient' ∧
      (erase { returnTypes := false, classMembers := false } quotient').toOption.map (·.output) =
        some (.ofString "a//* as \x7b\n(x/*: T*/)\n\x7d*/") := by
  decide +kernel

end TypeErasure
