import TypeErasure.Erasure
import TypeErasure.Proofs.Grammar

/-!
# Runs of a lawful grammar

A run of a lawful grammar never stalls, and its pieces make up the source. Both are shown in one
induction (`Grammar.Lawful.exists_run`): a round moves on because its replacement is not empty, and
the replacement is not empty because its pieces make up the text of the construct.

The same induction carries any other property of runs. `Grammar.Lawful.run_induction` is the form in
which the rest of the theory uses it: a property that holds where nothing is left to do, and that a
round passes on from its inner runs and from the rest of the run, holds of every run.

Main statements:

* `erase_ok` — the erasure of a text is never refused;
* `rounds_consume` — every round takes bytes off the source, and so does every step inside.
-/

namespace TypeErasure

/-! ### Slices -/

namespace Bytes

/-- A slice between equal offsets is empty, wherever they are. -/
theorem slice_self (b : Bytes) (i : Nat) : b.slice i i = #[] := by
  rw [slice, Array.extract_eq_empty_iff]
  omega

theorem slice_append_slice {i j k : Nat} (b : Bytes) (hij : i ≤ j) (hjk : j ≤ k) :
    b.slice i j ++ b.slice j k = b.slice i k := by
  rw [slice, slice, Array.extract_append_extract, Nat.min_eq_left hij, Nat.max_eq_right hjk, slice]

/-- The size of a slice that ends within the text. No bound on its start is needed, since the
subtraction stops at zero. -/
theorem size_slice {b : Bytes} {i j : Nat} (hj : j ≤ b.size) : (b.slice i j).size = j - i := by
  rw [slice, Array.size_extract, Nat.min_eq_left hj]

/-- The second of two texts is what follows the first. -/
theorem slice_append_right (x y : Bytes) : (x ++ y).slice x.size (x ++ y).size = y := by
  rw [slice, Array.extract_append, Array.extract_eq_empty_of_le (by simp), Array.empty_append,
    Nat.sub_self, Array.size_append, Nat.add_sub_cancel_left, Array.extract_size]

end Bytes

/-! ### The text of consecutive pieces -/

namespace Piece

theorem sourceOf_nil : sourceOf [] = #[] := rfl

theorem outputOf_nil : outputOf [] = #[] := rfl

theorem sourceOf_cons (p : Piece) (ps : List Piece) :
    sourceOf (p :: ps) = p.source ++ sourceOf ps := rfl

theorem outputOf_cons (p : Piece) (ps : List Piece) :
    outputOf (p :: ps) = p.output ++ outputOf ps := rfl

/-- The source of pieces that follow each other is that of the first ones and that of the others. -/
theorem sourceOf_append (ps qs : List Piece) :
    sourceOf (ps ++ qs) = sourceOf ps ++ sourceOf qs := by
  induction ps with
  | nil => rw [List.nil_append, sourceOf_nil, Array.empty_append]
  | cons p ps ih => rw [List.cons_append, sourceOf_cons, ih, sourceOf_cons, Array.append_assoc]

/-- The output of pieces that follow each other is that of the first ones and that of the others. -/
theorem outputOf_append (ps qs : List Piece) :
    outputOf (ps ++ qs) = outputOf ps ++ outputOf qs := by
  induction ps with
  | nil => exact Array.empty_append.symm
  | cons p ps ih => rw [List.cons_append, outputOf_cons, ih, outputOf_cons, Array.append_assoc]

end Piece

private theorem length_le_breakClosers (cs : List Byte) : cs.length ≤ (breakClosers cs).length := by
  fun_induction breakClosers cs with
  | case1 => exact Nat.le_refl _
  | case2 c rest _ ih => simp only [List.length_cons]; omega
  | case3 c rest _ ih => simp only [List.length_cons]; omega

/-- A comment is longer than the text that it holds. -/
theorem Bytes.size_lt_commentOut (b : Bytes) : b.size < b.commentOut.size := by
  have hopen : (Bytes.ofString "/*").size = 2 := rfl
  have hbody := length_le_breakClosers b.toList
  rw [Array.length_toList, ← List.size_toArray] at hbody
  rw [commentOut, Array.size_append, Array.size_append, hopen]
  omega

/-- A piece is not shorter in the output: a kept one is the same, and an erased one gains its
delimiters. -/
theorem Piece.size_source_le_output (p : Piece) : p.source.size ≤ p.output.size := by
  cases p with
  | kept => exact Nat.le_refl _
  | erased text => exact Nat.le_of_lt text.size_lt_commentOut

/-- Nothing that is written is shorter than what it stands for. By induction on the pieces, each of
which is not shorter in the output. -/
theorem Piece.size_sourceOf_le_outputOf (ps : List Piece) :
    (sourceOf ps).size ≤ (outputOf ps).size := by
  induction ps with
  | nil => exact Nat.le_refl _
  | cons p ps ih =>
    rw [sourceOf_cons, outputOf_cons, Array.size_append, Array.size_append]
    exact Nat.add_le_add p.size_source_le_output ih

/-! ### Inner runs -/

/-- The segments are filled with the outcomes of inner runs, each of which satisfies `Q`. -/
inductive Filled (Q : Bytes → Erasure → Prop) : List Segment → Filling → Prop where
  | nil : Filled Q [] ⟨[], []⟩
  | piece {p : Piece} {rest : List Segment} {f : Filling} (tail : Filled Q rest f) :
      Filled Q (.piece p :: rest) ⟨p :: f.pieces, f.events⟩
  | nested {t : Bytes} {e : Erasure} {rest : List Segment} {f : Filling} (inner : Q t e)
      (tail : Filled Q rest f) :
      Filled Q (.nested t :: rest) ⟨e.pieces ++ f.pieces, e.events ++ f.events⟩

/-- If no inner run stalls, the filling does not. By induction on the segments. The property `Q` of
the inner runs is recorded in the filling, so that later proofs have it at hand wherever they meet a
nested text. -/
theorem exists_fill {run : Bytes → Except Stall Erasure} {Q : Bytes → Erasure → Prop}
    {segments : List Segment}
    (h : ∀ t, .nested t ∈ segments → ∃ e, run t = .ok e ∧ Q t e) :
    ∃ f, fill run segments = .ok f ∧ Filled Q segments f := by
  induction segments with
  | nil => exact ⟨⟨[], []⟩, rfl, .nil⟩
  | cons s rest ih =>
    -- the segments behind are filled already, whatever the first one is
    obtain ⟨f, hfill, hfilled⟩ := ih fun t ht => h t (List.mem_cons_of_mem _ ht)
    cases s with
    | piece p => exact ⟨⟨p :: f.pieces, f.events⟩, by rw [fill, hfill], .piece hfilled⟩
    | nested t =>
      obtain ⟨e, hrun, hq⟩ := h t List.mem_cons_self
      exact ⟨⟨e.pieces ++ f.pieces, e.events ++ f.events⟩, by rw [fill, hrun]; simp only [hfill],
        .nested hq hfilled⟩

/-- A filling keeps every property that follows from the one its inner runs have. -/
theorem Filled.mono {Q R : Bytes → Erasure → Prop} {segments : List Segment} {f : Filling}
    (h : Filled Q segments f) (hqr : ∀ t e, Q t e → R t e) : Filled R segments f := by
  induction h with
  | nil => exact .nil
  | piece _ ih => exact .piece ih
  | nested inner _ ih => exact .nested (hqr _ _ inner) ih

/-- A patch without nested texts is filled with its own pieces. By induction on the pieces; no case
for a nested text can arise. -/
theorem Filled.eq_of_pieces {Q : Bytes → Erasure → Prop} {l : List Piece} {f : Filling}
    (h : Filled Q (l.map .piece) f) : f = ⟨l, []⟩ := by
  induction l generalizing f with
  | nil =>
    cases h
    rfl
  | cons p rest ih =>
    cases h with
    | piece tail => rw [ih tail]

/-- Conversely a patch without nested texts is filled, whatever is asked of inner runs. -/
theorem Filled.of_pieces (Q : Bytes → Erasure → Prop) (ps : List Piece) :
    Filled Q (ps.map .piece) ⟨ps, []⟩ := by
  induction ps with
  | nil => exact .nil
  | cons p rest ih => exact .piece ih

/-- **The pieces of a filled patch make up the text of the construct.** By induction on the layout:
the source of a nested text is what its inner run makes up, by assumption, and the other segments
are slices. -/
theorem Layout.sourceOf_filled {b : Bytes} {c i j : Nat} {segments : List Segment} {f : Filling}
    (h : Layout b c i segments j)
    (hf : Filled (fun t e => Piece.sourceOf e.pieces = t) segments f) :
    Piece.sourceOf f.pieces = b.slice i j := by
  -- each segment is a slice that goes on where the one before it ends
  induction h generalizing f with
  | nil i =>
    cases hf
    rw [Piece.sourceOf_nil, Bytes.slice_self]
  | keep hij hj htail ih =>
    cases hf with
    | piece hrest =>
      rw [Piece.sourceOf_cons, ih hrest]
      exact b.slice_append_slice hij htail.le
  | erase hij hj _ _ _ htail ih =>
    cases hf with
    | piece hrest =>
      rw [Piece.sourceOf_cons, ih hrest]
      exact b.slice_append_slice (Nat.le_of_lt hij) htail.le
  | nested hij hj _ _ _ _ htail ih =>
    cases hf with
    | nested hinner hrest =>
      rw [Piece.sourceOf_append, hinner, ih hrest]
      exact b.slice_append_slice hij htail.le

/-! ### Rounds -/

/-- The pieces of a run are those of its first round and those of the rest of the run. -/
theorem Erasure.pieces_cons (r : Round) (rounds : List Round) (rest : Bytes) :
    pieces ⟨r :: rounds, rest⟩ = .kept r.gap :: (r.pieces ++ pieces ⟨rounds, rest⟩) := by
  simp only [pieces, List.flatMap_cons, List.cons_append, List.append_assoc]

/-- The output of a run without rounds is what was left. -/
theorem Erasure.output_nil (out : Bytes) : (Erasure.mk [] out).output = out := by
  simp [Erasure.output, Erasure.pieces, Piece.outputOf, Piece.output]

/-- The output of a run is its first gap, the replacement of its first construct and the output of
the rest. -/
theorem Erasure.output_cons (round : Round) (e : Erasure) :
    (Erasure.mk (round :: e.rounds) e.rest).output =
      round.gap ++ (Piece.outputOf round.pieces ++ e.output) := by
  rw [Erasure.output, Erasure.pieces_cons, Piece.outputOf_cons, Piece.outputOf_append]
  rfl

/-- The events of a run are the notices of its first round, the event of that round and those of the
rest. -/
theorem Erasure.events_cons (round : Round) (rounds : List Round) (rest : Bytes) :
    events ⟨round :: rounds, rest⟩ = round.notices ++ round.event :: events ⟨rounds, rest⟩ := by
  simp only [events, List.flatMap_cons, List.append_assoc, List.singleton_append]

namespace Grammar

/-- The record of the round that takes the construct `m`, whose patch is filled with `f`. -/
def round (g : Grammar) (done rest : Bytes) (m : Match) (f : Filling) : Round where
  gap := (done ++ rest).slice done.size m.start
  found := m
  stop := (g.patch (done ++ rest) m).stop
  replaced := (done ++ rest).slice m.start (g.patch (done ++ rest) m).stop
  pieces := f.pieces
  notices := f.events ++ (g.patch (done ++ rest) m).notices

/-- The source behind the construct `m`. -/
def restAfter (g : Grammar) (done rest : Bytes) (m : Match) : Bytes :=
  (done ++ rest).slice (g.patch (done ++ rest) m).stop (done ++ rest).size

/-- The output so far, after the construct `m` has been replaced. -/
def doneAfter (done rest : Bytes) (m : Match) (f : Filling) : Bytes :=
  done ++ (done ++ rest).slice done.size m.start ++ Piece.outputOf f.pieces

/-- A run ends where there is no next construct. -/
theorem runFrom_of_next_eq_none {g : Grammar} {done rest : Bytes}
    (h : g.next (done ++ rest) done.size = none) : g.runFrom done rest = .ok ⟨[], rest⟩ := by
  rw [Grammar.runFrom]
  simp only [h]

namespace Lawful

variable {g : Grammar} {done rest : Bytes} {m : Match}

/-- A construct ends within the text, as its layout does. -/
theorem stop_le_size (hg : g.Lawful) {b : Bytes} {cursor : Nat} (h : g.next b cursor = some m) :
    (g.patch b m).stop ≤ b.size :=
  (hg.layout h).le_size (Nat.le_of_lt (hg.lt_size h))

/-- The gap before a construct, the construct and what is left make up the source. The three slices
follow each other and end with the text, so they join to what stands behind the output so far. -/
theorem append_restAfter (hg : g.Lawful) (h : g.next (done ++ rest) done.size = some m)
    (f : Filling) :
    (g.round done rest m f).gap ++ (g.round done rest m f).replaced ++ g.restAfter done rest m =
      rest := by
  have hlt := hg.lt_stop h
  unfold round restAfter
  rw [Bytes.slice_append_slice _ (hg.le_start h) (Nat.le_of_lt hlt),
    Bytes.slice_append_slice _ (Nat.le_trans (hg.le_start h) (Nat.le_of_lt hlt))
      (hg.stop_le_size h), Bytes.slice_append_right]

/-- The text of a round, in its parts. The slices of the definitions are replaced by two texts whose
sizes are known. Proofs about runs rewrite with this equation instead of unfolding the slices. -/
theorem round_parts (hg : g.Lawful) (h : g.next (done ++ rest) done.size = some m) :
    ∃ gap src : Bytes, (done ++ rest).slice done.size m.start = gap ∧
      (done ++ rest).slice m.start (g.patch (done ++ rest) m).stop = src ∧
      (done ++ gap).size = m.start ∧
      (done ++ gap ++ src).size = (g.patch (done ++ rest) m).stop ∧
      done ++ rest = done ++ gap ++ src ++ g.restAfter done rest m := by
  -- the slices are named once, so that later proofs need not know them
  have hparts : (done ++ rest).slice done.size m.start ++
      (done ++ rest).slice m.start (g.patch (done ++ rest) m).stop ++
      g.restAfter done rest m = rest := hg.append_restAfter h ⟨[], []⟩
  have hgap : (done ++ (done ++ rest).slice done.size m.start).size = m.start := by
    rw [Array.size_append, Bytes.size_slice (Nat.le_of_lt (hg.lt_size h))]
    exact Nat.add_sub_cancel' (hg.le_start h)
  refine ⟨_, _, rfl, rfl, hgap, ?_, ?_⟩
  · rw [Array.size_append, hgap, Bytes.size_slice (hg.stop_le_size h)]
    exact Nat.add_sub_cancel' (Nat.le_of_lt (hg.lt_stop h))
  · refine (congrArg (done ++ ·) hparts.symm).trans ?_
    simp only [Array.append_assoc]

/-- **A round takes at least one byte off the source.** The run ends because of this, and the
induction along a run is on this size. -/
theorem size_restAfter_lt (hg : g.Lawful) (h : g.next (done ++ rest) done.size = some m) :
    (g.restAfter done rest m).size < rest.size := by
  have hle := hg.le_start h
  have hlt := hg.lt_stop h
  have hsize := hg.stop_le_size h
  -- the construct starts behind the output so far, and each of its bytes is taken off the rest
  rw [Array.size_append] at hsize
  rw [restAfter, Bytes.size_slice (Nat.le_refl _), Array.size_append]
  omega

/-- A nested text is shorter than the source that is left. The text of an inner run starts behind
the start of the construct, which in turn is not before the cursor. -/
theorem size_nested_lt (hg : g.Lawful) (h : g.next (done ++ rest) done.size = some m) {t : Bytes}
    (ht : .nested t ∈ (g.patch (done ++ rest) m).segments) : t.size < rest.size := by
  have hlt := (hg.layout h).size_lt_of_nested ht
  have hle := hg.le_start h
  rw [Array.size_append] at hlt
  omega

/-- **A construct is replaced by some text**, since its pieces make it up. The definition of a run
guards against a replacement that is empty; this lemma says that the guard never fails. -/
theorem replacement_pos (hg : g.Lawful) {b : Bytes} {cursor : Nat} (h : g.next b cursor = some m)
    {f : Filling}
    (hf : Filled (fun t e => Piece.sourceOf e.pieces = t) (g.patch b m).segments f) :
    0 < (Piece.outputOf f.pieces).size := by
  have hlt := hg.lt_stop h
  -- the pieces of a filled patch are as long as the construct, and what is written is no shorter
  have hsource := congrArg Array.size ((hg.layout h).sourceOf_filled hf)
  rw [Bytes.size_slice (hg.stop_le_size h)] at hsource
  have := Piece.size_sourceOf_le_outputOf f.pieces
  omega

/-! ### Every run succeeds -/

/-- The pieces of a run make up the source if those of its inner runs make up the nested texts and
those of its rest make up what is left. -/
private theorem sourceOf_round (hg : g.Lawful) (h : g.next (done ++ rest) done.size = some m)
    {f : Filling} {e : Erasure}
    (hf : Filled (fun t e => Piece.sourceOf e.pieces = t) (g.patch (done ++ rest) m).segments f)
    (he : Piece.sourceOf e.pieces = g.restAfter done rest m) :
    Piece.sourceOf (Erasure.pieces ⟨g.round done rest m f :: e.rounds, e.rest⟩) = rest := by
  rw [Erasure.pieces_cons, Piece.sourceOf_cons, Piece.sourceOf_append,
    show (g.round done rest m f).pieces = f.pieces from rfl, (hg.layout h).sourceOf_filled hf, he,
    ← Array.append_assoc]
  exact hg.append_restAfter h f

/-- **A run never stalls**, its pieces make up the source, and it has every property that its rounds
pass on. The induction is on the size of the source that is left. Inner runs and the rest of the run
are both shorter, so the induction hypothesis serves twice: for the segments of the patch through
`exists_fill`, and for what follows the construct. -/
theorem exists_run (hg : g.Lawful) {P : Bytes → Bytes → Erasure → Prop}
    (stop : ∀ {done rest}, g.next (done ++ rest) done.size = none → P done rest ⟨[], rest⟩)
    (round : ∀ {done rest m f e}, g.next (done ++ rest) done.size = some m →
      Filled (fun t e => Piece.sourceOf e.pieces = t ∧ P #[] t e)
        (g.patch (done ++ rest) m).segments f →
      Piece.sourceOf e.pieces = g.restAfter done rest m →
      P (doneAfter done rest m f) (g.restAfter done rest m) e →
      P done rest ⟨g.round done rest m f :: e.rounds, e.rest⟩)
    (done rest : Bytes) :
    ∃ e, g.runFrom done rest = .ok e ∧ Piece.sourceOf e.pieces = rest ∧ P done rest e := by
  rw [Grammar.runFrom]
  cases hnext : g.next (done ++ rest) done.size with
  | none => exact ⟨⟨[], rest⟩, rfl, Array.append_empty, stop hnext⟩
  | some m =>
    -- the inner runs are shorter than this one
    obtain ⟨f, hfill, hfilled⟩ : ∃ f,
        fill (fun t => if t.size < rest.size then g.runFrom #[] t else .error ⟨m.kind, m.start⟩)
          (g.patch (done ++ rest) m).segments = .ok f ∧
        Filled (fun t e => Piece.sourceOf e.pieces = t ∧ P #[] t e)
          (g.patch (done ++ rest) m).segments f := by
      refine exists_fill fun t ht => ?_
      have hlt : t.size < rest.size := hg.size_nested_lt hnext ht
      rw [if_pos hlt]
      exact hg.exists_run stop round #[] t
    have hsource := hfilled.mono fun _ _ h => h.1
    have hpos := hg.replacement_pos hnext hsource
    -- and so is the rest of it
    have hlt : (g.restAfter done rest m).size < rest.size := hg.size_restAfter_lt hnext
    obtain ⟨e, hrun, he, hp⟩ :=
      hg.exists_run stop round (doneAfter done rest m f) (g.restAfter done rest m)
    refine ⟨⟨g.round done rest m f :: e.rounds, e.rest⟩, ?_, hg.sourceOf_round hnext hsource he,
      round hnext hfilled he hp⟩
    -- the guard of the round holds, so the run goes on to the rest
    simp only [hfill]
    rw [dif_pos ⟨hg.le_start hnext, hg.lt_stop hnext, hg.stop_le_size hnext, hpos⟩]
    rw [doneAfter, restAfter] at hrun
    simp only [hrun]
    rfl
termination_by rest.size

/-- A run never stalls, and its pieces make up its source. This is `exists_run` without a property
to carry. -/
theorem exists_runFrom (hg : g.Lawful) (done rest : Bytes) :
    ∃ e, g.runFrom done rest = .ok e ∧ Piece.sourceOf e.pieces = rest := by
  obtain ⟨e, hrun, hsource, -⟩ := hg.exists_run (P := fun _ _ _ => True) (fun _ => trivial)
    (fun _ _ _ _ => trivial) done rest
  exact ⟨e, hrun, hsource⟩

/-- **Induction along a run.** Runs are functions of their source, so what `exists_run` says of the
run that it finds holds of every run that is given. -/
theorem run_induction (hg : g.Lawful) {P : Bytes → Bytes → Erasure → Prop}
    (stop : ∀ {done rest}, g.next (done ++ rest) done.size = none → P done rest ⟨[], rest⟩)
    (round : ∀ {done rest m f e}, g.next (done ++ rest) done.size = some m →
      Filled (fun t e => Piece.sourceOf e.pieces = t ∧ P #[] t e)
        (g.patch (done ++ rest) m).segments f →
      Piece.sourceOf e.pieces = g.restAfter done rest m →
      P (doneAfter done rest m f) (g.restAfter done rest m) e →
      P done rest ⟨g.round done rest m f :: e.rounds, e.rest⟩)
    {done rest : Bytes} {e : Erasure} (h : g.runFrom done rest = .ok e) : P done rest e := by
  -- the run that exists is the run that is given
  obtain ⟨e', hrun, -, hp⟩ := hg.exists_run stop round done rest
  obtain rfl : e = e' := Except.ok.inj (h.symm.trans hrun)
  exact hp

/-- The inner runs of a construct succeed. Unlike in a run, their size is not looked at. -/
private theorem exists_fill_run (hg : g.Lawful) (segments : List Segment) :
    ∃ f, fill g.run segments = .ok f ∧
      Filled (fun t e => Piece.sourceOf e.pieces = t) segments f :=
  exists_fill fun t _ => hg.exists_runFrom #[] t

/-- **A run makes at most one round for each byte of its source.** By induction along the run: the
first round takes a byte off the source, and the rest has one round less. -/
theorem length_rounds_le (hg : g.Lawful) {done rest : Bytes} {e : Erasure}
    (h : g.runFrom done rest = .ok e) : e.rounds.length ≤ rest.size := by
  refine hg.run_induction (P := fun _ rest e => e.rounds.length ≤ rest.size) ?_ ?_ h
  · -- a run without rounds
    intro done rest _
    exact Nat.zero_le _
  · -- the rest of the run has fewer bytes left than this run
    intro done rest m f e hnext _ _ ih
    exact Nat.lt_of_le_of_lt ih (hg.size_restAfter_lt hnext)

end Lawful

end Grammar

/-! ### Erasure -/

/-- **Erasure never fails.** No run stalls, at the top or inside, because in every text and from
every cursor the next construct lies behind the cursor and within the text, and its inner runs leave
something to put in its place. The run exists by `exists_runFrom`; the guards of a round are laws of
the grammar, and its replacement is not empty by `replacement_pos`. -/
theorem erase_ok (r : Rules) (text : Bytes) :
    (∃ e, erase r text = .ok e) ∧
      ∀ (b : Bytes) (cursor : Nat) (m : Match), r.nextMatch b cursor = some m →
        cursor ≤ m.start ∧ m.start ≤ (patchOf b m).stop ∧ (patchOf b m).stop ≤ b.size ∧
          ∃ f, fill (erase r) (patchOf b m).segments = .ok f ∧
            0 < (Piece.outputOf f.pieces).size := by
  have hg := r.grammar_lawful
  obtain ⟨e, hrun, -⟩ := hg.exists_runFrom #[] text
  refine ⟨⟨e, hrun⟩, fun b cursor m h => ?_⟩
  have hnext : r.grammar.next b cursor = some m := h
  obtain ⟨f, hfill, hfilled⟩ := hg.exists_fill_run (patchOf b m).segments
  exact ⟨hg.le_start hnext, Nat.le_of_lt (hg.lt_stop hnext), hg.stop_le_size hnext, f, hfill,
    hg.replacement_pos hnext hfilled⟩

/-- A class with a cast in an initializer: the body is the next construct, and its inner run leaves
something in its place. -/
theorem erase_ok_class :
    let b := Bytes.ofString "class A { x: T = y as U; }"
    let m : Match := ⟨.classMembers, ⟨8, 9⟩⟩
    Rules.nextMatch {} b 0 = some m ∧ (∃ e, erase {} b = .ok e) ∧
      0 ≤ m.start ∧ m.start ≤ (patchOf b m).stop ∧ (patchOf b m).stop ≤ b.size ∧
        ∃ f, fill (erase {}) (patchOf b m).segments = .ok f ∧
          0 < (Piece.outputOf f.pieces).size := by
  have h : Rules.nextMatch {} (Bytes.ofString "class A { x: T = y as U; }") 0 =
      some ⟨.classMembers, ⟨8, 9⟩⟩ := by decide +kernel
  obtain ⟨hrun, hround⟩ := erase_ok {} (Bytes.ofString "class A { x: T = y as U; }")
  exact ⟨h, hrun, hround _ 0 _ h⟩

/-- The walk through a class body moves on with every member that it reads. That it moves on is
`lt_of_memberAt`; that it stays within the text is part of its layout. -/
private theorem bounds_of_memberAt {b : Bytes} {start stop : Nat} {segments : List Segment}
    (hstart : start ≤ b.size) (h : memberAt b start = .field segments stop) :
    start < stop ∧ stop ≤ b.size := by
  have hcovered := memberAt_covered (Scans.refl b start).settles hstart
  rw [h] at hcovered
  exact ⟨lt_of_memberAt h, hcovered.layout.le_size hstart⟩

/-- **Every round consumes source.** The text that a round sees is `done ++ rest`, with the cursor
behind `done`. Its construct is not empty, so that fewer bytes are left behind the cursor of the
next round, and an erasure has at most as many rounds as its text has bytes. The steps inside of a
round move on too: the walk through a class body with every member, and a nested text is shorter
than the text that it is taken from. Each part is the lemma of its own kind: the laws of the
grammar, `size_restAfter_lt`, `size_nested_lt`, `length_rounds_le` and `bounds_of_memberAt`. -/
theorem rounds_consume (r : Rules) :
    (∀ (done rest : Bytes) (m : Match), r.nextMatch (done ++ rest) done.size = some m →
      m.start < (patchOf (done ++ rest) m).stop ∧
        (∀ f, let next := Grammar.doneAfter done rest m f
          (next ++ r.grammar.restAfter done rest m).size - next.size <
            (done ++ rest).size - done.size) ∧
        ∀ t, .nested t ∈ (patchOf (done ++ rest) m).segments → t.size < (done ++ rest).size) ∧
      (∀ text : Bytes, ∃ e, erase r text = .ok e ∧ e.rounds.length ≤ text.size) ∧
      ∀ (b : Bytes) (i stop : Nat) (segments : List Segment), skipTrivia b i < b.size →
        memberAt b (skipTrivia b i) = .field segments stop → i < stop ∧ stop ≤ b.size := by
  have hg := r.grammar_lawful
  refine ⟨fun done rest m h => ?_, fun text => ?_, fun b i stop segments hi h => ?_⟩
  · -- one round, and the texts inside of it
    have hnext : r.grammar.next (done ++ rest) done.size = some m := h
    refine ⟨hg.lt_stop hnext, fun f => ?_, fun t ht => ?_⟩
    · dsimp only
      rw [Array.size_append, Nat.add_sub_cancel_left, Array.size_append, Nat.add_sub_cancel_left]
      exact hg.size_restAfter_lt hnext
    · have hlt := hg.size_nested_lt hnext ht
      rw [Array.size_append]
      omega
  · -- the whole run
    obtain ⟨e, hrun, -⟩ := hg.exists_runFrom #[] text
    exact ⟨e, hrun, hg.length_rounds_le hrun⟩
  · -- one member of a class body, behind the trivia before it
    obtain ⟨hlt, hsize⟩ := bounds_of_memberAt (Nat.le_of_lt hi) h
    exact ⟨Nat.lt_of_le_of_lt (le_skipTrivia b i) hlt, hsize⟩

/-- The same class: its body is not empty, and the initializer is shorter than the text. -/
theorem rounds_consume_class :
    let b := Bytes.ofString "class A { x: T = y as U; }"
    let m : Match := ⟨.classMembers, ⟨8, 9⟩⟩
    Rules.nextMatch {} (#[] ++ b) 0 = some m ∧
      .nested (Bytes.ofString " y as U") ∈ (patchOf (#[] ++ b) m).segments ∧
      m.start < (patchOf (#[] ++ b) m).stop ∧
      (Bytes.ofString " y as U").size < (#[] ++ b).size := by
  have h : Rules.nextMatch {} (#[] ++ Bytes.ofString "class A { x: T = y as U; }") 0 =
      some ⟨.classMembers, ⟨8, 9⟩⟩ := by decide +kernel
  have hround := (rounds_consume {}).1 #[] _ _ h
  have hnested : .nested (Bytes.ofString " y as U") ∈
      (patchOf (#[] ++ Bytes.ofString "class A { x: T = y as U; }")
        ⟨.classMembers, ⟨8, 9⟩⟩).segments := by decide +kernel
  exact ⟨h, hnested, hround.1, hround.2.2 _ hnested⟩

end TypeErasure
