import TypeErasure.Proofs.Run

/-!
# The states that a run comes to

A run goes from state to state: `done` is the output so far and `rest` the source that is left, and
a round looks at the two together. `Grammar.Reaches g text done rest` says that the run on `text`,
or one of the inner runs that it starts, comes to that state. What is shown of all states that are
reached is shown of everything that happens in an erasure: every erased piece is a segment of the
patch of some round (`Grammar.Lawful.erased_of_run`).
-/

namespace TypeErasure

/-! ### One round of a run -/

/-- A filling is determined by the inner runs. By induction on the segments: where each inner run
gives what `Q` says of its text, so does the filling. -/
private theorem fill_of_filled {run : Bytes → Except Stall Erasure} {Q : Bytes → Erasure → Prop}
    {segments : List Segment} {f : Filling} (h : Filled Q segments f)
    (hrun : ∀ t, .nested t ∈ segments → ∀ e, Q t e → run t = .ok e) :
    fill run segments = .ok f := by
  induction h with
  | nil => rfl
  | piece _ ih => rw [fill, ih fun t ht => hrun t (List.mem_cons_of_mem _ ht)]
  | nested inner _ ih =>
    rw [fill, hrun _ List.mem_cons_self _ inner]
    simp only [ih fun t ht => hrun t (List.mem_cons_of_mem _ ht)]

/-- An erased piece of a filled patch is one of its segments or comes from an inner run. By
induction on the segments. A piece is at the head of them, in the erasure of a nested text, or
further on. -/
private theorem Filled.erased_cases {Q : Bytes → Erasure → Prop} {segments : List Segment}
    {f : Filling} (h : Filled Q segments f) {s : Bytes} (hs : .erased s ∈ f.pieces) :
    .piece (.erased s) ∈ segments ∨
      ∃ t e, .nested t ∈ segments ∧ Q t e ∧ .erased s ∈ e.pieces := by
  induction h with
  | nil => simp at hs
  | piece _ ih =>
    -- it is this piece, or one further on
    rcases List.mem_cons.mp hs with rfl | hs
    · exact .inl List.mem_cons_self
    · rcases ih hs with hmem | ⟨t, e, ht, hq, he⟩
      · exact .inl (List.mem_cons_of_mem _ hmem)
      · exact .inr ⟨t, e, List.mem_cons_of_mem _ ht, hq, he⟩
  | @nested t e _ _ inner _ ih =>
    -- it comes from this erasure, or from further on
    rcases List.mem_append.mp hs with hs | hs
    · exact .inr ⟨t, e, List.mem_cons_self, inner, hs⟩
    · rcases ih hs with hmem | ⟨t, e, ht, hq, he⟩
      · exact .inl (List.mem_cons_of_mem _ hmem)
      · exact .inr ⟨t, e, List.mem_cons_of_mem _ ht, hq, he⟩

namespace Grammar

variable {g : Grammar} {done rest : Bytes} {m : Match} {f : Filling} {e : Erasure}

/-- The pieces of a run make up its text. There is a run whose pieces do, and a run gives one result
only. -/
theorem Lawful.sourceOf_run (hg : g.Lawful) {t : Bytes} (h : g.run t = .ok e) :
    Piece.sourceOf e.pieces = t := by
  obtain ⟨e', hrun, hsource⟩ := hg.exists_runFrom #[] t
  obtain rfl := Except.ok.inj (h.symm.trans hrun)
  exact hsource

/-- **A run is its first round and the run from the state after it.** The definition checks that the
round makes progress and that its inner runs are on shorter texts; a lawful grammar passes these
checks. -/
theorem Lawful.runFrom_round (hg : g.Lawful) (h : g.next (done ++ rest) done.size = some m)
    (hf : Filled (fun t e => g.run t = .ok e) (g.patch (done ++ rest) m).segments f)
    (he : g.runFrom (doneAfter done rest m f) (g.restAfter done rest m) = .ok e) :
    g.runFrom done rest = .ok ⟨g.round done rest m f :: e.rounds, e.rest⟩ := by
  have hfill : fill
      (fun t => if t.size < rest.size then g.runFrom #[] t else .error ⟨m.kind, m.start⟩)
      (g.patch (done ++ rest) m).segments = .ok f := by
    refine fill_of_filled hf fun t ht e hrun => ?_
    -- an inner run is on a shorter text, so it is not cut off
    rw [if_pos (hg.size_nested_lt h ht)]
    exact hrun
  have hsource : Filled (fun t e => Piece.sourceOf e.pieces = t)
      (g.patch (done ++ rest) m).segments f := hf.mono fun _ _ hrun => hg.sourceOf_run hrun
  rw [Grammar.runFrom]
  simp only [h, hfill]
  rw [dif_pos ⟨hg.le_start h, hg.lt_stop h, hg.stop_le_size h, hg.replacement_pos h hsource⟩]
  rw [doneAfter, restAfter] at he
  simp only [he]
  rfl

/-- A run that succeeds is over at once, or makes a round and goes on. The induction proves along
with it what the run gives, which is what the inner runs are determined by. -/
theorem Lawful.runFrom_cases (hg : g.Lawful) (hrun : g.runFrom done rest = .ok e) :
    g.next (done ++ rest) done.size = none ∧ e = ⟨[], rest⟩ ∨
      ∃ m f e', g.next (done ++ rest) done.size = some m ∧
        Filled (fun t e => g.run t = .ok e) (g.patch (done ++ rest) m).segments f ∧
          g.runFrom (doneAfter done rest m f) (g.restAfter done rest m) = .ok e' ∧
            e = ⟨g.round done rest m f :: e'.rounds, e'.rest⟩ := by
  have hboth := hg.run_induction (P := fun done rest e => g.runFrom done rest = .ok e ∧
    (g.next (done ++ rest) done.size = none ∧ e = ⟨[], rest⟩ ∨
      ∃ m f e', g.next (done ++ rest) done.size = some m ∧
        Filled (fun t e => g.run t = .ok e) (g.patch (done ++ rest) m).segments f ∧
          g.runFrom (doneAfter done rest m f) (g.restAfter done rest m) = .ok e' ∧
            e = ⟨g.round done rest m f :: e'.rounds, e'.rest⟩)) ?_ ?_ hrun
  · exact hboth.2
  · -- the run is over
    intro done rest hnone
    exact ⟨runFrom_of_next_eq_none hnone, .inl ⟨hnone, rfl⟩⟩
  · -- the run makes a round, and the hypotheses say of its inner runs and of the rest what they
    -- give
    intro done rest m f e hnext hf _ ih
    have hruns : Filled (fun t e => g.run t = .ok e) (g.patch (done ++ rest) m).segments f :=
      hf.mono fun _ _ h => h.2.1
    exact ⟨hg.runFrom_round hnext hruns ih.1, .inr ⟨m, f, e, hnext, hruns, ih.1, rfl⟩⟩

/-! ### Reachable states -/

/-- **The run on `text` comes to the state** in which `done` is the output so far and `rest` the
source that is left, or an inner run of it does. -/
inductive Reaches (g : Grammar) (text : Bytes) : Bytes → Bytes → Prop where
  /-- The run starts with all of the text. -/
  | start : Reaches g text #[] text
  /-- After a round, the construct has been replaced. -/
  | next {done rest : Bytes} {m : Match} {f : Filling} (h : Reaches g text done rest)
      (hnext : g.next (done ++ rest) done.size = some m)
      (hfill : fill g.run (g.patch (done ++ rest) m).segments = .ok f) :
      Reaches g text (doneAfter done rest m f) (g.restAfter done rest m)
  /-- A nested text is erased by a run of its own. -/
  | inner {done rest : Bytes} {m : Match} {t : Bytes} (h : Reaches g text done rest)
      (hnext : g.next (done ++ rest) done.size = some m)
      (ht : .nested t ∈ (g.patch (done ++ rest) m).segments) : Reaches g text #[] t

/-- **Every erased piece is a segment of the patch of a round** that the run comes to. By induction
on the run. A piece is a segment of the first round's patch, or comes from one of its inner runs or
from a later round, and the states of both are reached too. -/
theorem Lawful.erased_of_run (hg : g.Lawful) {text s : Bytes} (hrun : g.runFrom done rest = .ok e)
    (hreach : g.Reaches text done rest) (hs : .erased s ∈ e.pieces) :
    ∃ done rest m, g.Reaches text done rest ∧ g.next (done ++ rest) done.size = some m ∧
      .piece (.erased s) ∈ (g.patch (done ++ rest) m).segments := by
  have hboth := hg.run_induction (P := fun done rest e => g.runFrom done rest = .ok e ∧
    (g.Reaches text done rest → .erased s ∈ e.pieces →
      ∃ done rest m, g.Reaches text done rest ∧ g.next (done ++ rest) done.size = some m ∧
        .piece (.erased s) ∈ (g.patch (done ++ rest) m).segments)) ?_ ?_ hrun
  · exact hboth.2 hreach hs
  · intro done rest hnone
    refine ⟨runFrom_of_next_eq_none hnone, fun _ hs => ?_⟩
    simp [Erasure.pieces] at hs
  · intro done rest m f e hnext hf _ ih
    have hruns : Filled (fun t e => g.run t = .ok e) (g.patch (done ++ rest) m).segments f :=
      hf.mono fun _ _ h => h.2.1
    refine ⟨hg.runFrom_round hnext hruns ih.1, fun hreach hs => ?_⟩
    rw [Erasure.pieces_cons, List.mem_cons, List.mem_append] at hs
    rcases hs with hs | hs | hs
    · -- the kept text before the construct is no erased piece
      simp at hs
    · rcases hf.erased_cases hs with hmem | ⟨t, e, ht, ⟨-, -, hinner⟩, hs⟩
      · exact ⟨done, rest, m, hreach, hnext, hmem⟩
      · -- the piece comes from an inner run, whose states this run reaches
        exact hinner (hreach.inner hnext ht) hs
    · -- or it comes from a later round
      exact ih.2 (hreach.next hnext (fill_of_filled hruns fun _ _ _ h => h)) hs

end Grammar

end TypeErasure
