import TypeErasure.Proofs.Partition
import TypeErasure.Proofs.Precedence
import TypeErasure.Proofs.Reach

/-!
# Constructs that a run never erases

A construct that takes part in the search narrows the search for those that come after it, even when
it is not taken. Still, a run is the same without a construct that it never erases.

* The next construct depends on the others only in so far as it precedes them, so it is next as long
  as it is searched for itself (`Rules.nextMatch_of_enables`).
* A round that takes a construct of type syntax reports it as erased (`Round.event_of_mem_erased`).
  Only literals are kept, and the fields of a class, which may hold nothing to erase.

So in a run that reports no construct of a kind as erased, no round takes one, neither at the top
nor in the inner runs, and the run without that kind makes the same rounds.

Main statement: `erase_of_idle`.
-/

namespace TypeErasure

/-! ### Searching for fewer constructs -/

/-- **The next construct is next under fewer rules**, if they search for it at all: it precedes all
that is found, and under fewer rules no more is found. -/
theorem Rules.nextMatch_of_enables {r r' : Rules} {b : Bytes} {cursor : Nat} {m : Match}
    (h : r.nextMatch b cursor = some m) (hon : r'.enables m.kind = true)
    (hsub : ∀ k, r'.enables k = true → r.enables k = true) : r'.nextMatch b cursor = some m := by
  obtain ⟨⟨-, hfound⟩, hfirst⟩ := Rules.nextMatch_eq_some_iff.mp h
  exact Rules.nextMatch_eq_some_iff.mpr
    ⟨⟨hon, hfound⟩, fun k n hk hn => hfirst k n (hsub k hk) hn⟩

/-- Where nothing is found, nothing is found under fewer rules. -/
private theorem Rules.nextMatch_eq_none_of_enables {r r' : Rules} {b : Bytes} {cursor : Nat}
    (h : r.nextMatch b cursor = none) (hsub : ∀ k, r'.enables k = true → r.enables k = true) :
    r'.nextMatch b cursor = none :=
  Rules.nextMatch_eq_none_iff.mpr fun k hk => Rules.nextMatch_eq_none_iff.mp h k (hsub k hk)

/-- A flag that is switched off switches off one construct. -/
private theorem Rules.enables_set_false (r : Rules) {f : Flag} {k : Construct}
    (hf : k.flag? = some f)
    (q : Construct) : (r.set f false).enables q = true ↔ r.enables q = true ∧ q ≠ k := by
  -- each flag belongs to one construct
  have hinj : q.flag? = some f ↔ q = k := by
    constructor
    · intro hq
      rw [← hf] at hq
      cases q <;> cases k <;> simp [Construct.flag?] at hq hf ⊢
    · rintro rfl
      exact hf
  unfold enables
  cases hq : q.flag? with
  | none =>
    have hne : q ≠ k := by
      rintro rfl
      rw [hf] at hq
      simp at hq
    simp [hne]
  | some g =>
    rw [hq, Option.some.injEq] at hinj
    by_cases hg : g = f
    · simp [hinj.mp hg, hg]
    · simp [hg, hinj.not.mp hg]

/-! ### What a round erases -/

/-- A declaration is commented out, whatever ends it. -/
private theorem declarationPatch_erases_piece (b : Bytes) (m : Match) (stop : Nat) :
    ∃ s, .piece (.erased s) ∈ (declarationPatch b m stop).segments := by
  unfold declarationPatch
  split
  · dsimp only
    split
    · exact ⟨_, List.mem_singleton_self _⟩
    · exact ⟨_, List.mem_singleton_self _⟩
  · exact ⟨_, List.mem_singleton_self _⟩

/-- So is the first item of a list of annotations. -/
private theorem annotatedItems_erases_piece (b : Bytes) (annotated : Annotated)
    (item : AnnotatedItem) :
    ∃ s, .piece (.erased s) ∈ (annotatedItems b annotated item).segments := by
  have hitem : Segment.erase b item.start (item.stop b annotated) ∈ item.segments b annotated :=
    List.mem_cons_of_mem _ (List.mem_singleton_self _)
  refine ⟨b.slice item.start (item.stop b annotated), ?_⟩
  rw [annotatedItems]
  split
  · exact hitem
  · exact List.mem_append_left _ hitem

/-- **Type syntax is not kept whole**, unless it is part of a class. One case for each kind of
construct. -/
theorem patchOf_erases_piece (b : Bytes) {m : Match} (hliteral : m.kind.literalKind? = none)
    (hclass : m.kind ≠ .classMembers) :
    ∃ s, .piece (.erased s) ∈ (patchOf b m).segments := by
  unfold patchOf
  cases hkind : m.kind with
  | literal kind => simp [hkind, Construct.literalKind?] at hliteral
  | ambient => exact declarationPatch_erases_piece b m _
  | typeAlias => exact ⟨_, List.mem_singleton_self _⟩
  | interface => exact declarationPatch_erases_piece b m _
  | classMembers => exact (hclass hkind).elim
  | typeArguments => exact ⟨_, List.mem_singleton_self _⟩
  | returnType => exact ⟨_, List.mem_singleton_self _⟩
  | annotated => exact annotatedItems_erases_piece b _ _
  | cast => exact ⟨_, List.mem_singleton_self _⟩

namespace Filled

variable {Q : Bytes → Erasure → Prop} {segments : List Segment} {f : Filling}

/-- A piece of a patch is a piece of its filling. By induction on the filling. -/
theorem mem_pieces (h : Filled Q segments f) {p : Piece} (hp : .piece p ∈ segments) :
    p ∈ f.pieces := by
  induction h with
  | nil => simp at hp
  | piece _ ih =>
    rcases List.mem_cons.mp hp with heq | hp
    · obtain rfl := Segment.piece.inj heq
      exact List.mem_cons_self
    · exact List.mem_cons_of_mem _ (ih hp)
  | nested _ _ ih =>
    rcases List.mem_cons.mp hp with heq | hp
    · simp at heq
    · exact List.mem_append_right _ (ih hp)

/-- The events of the inner runs are events of the filling. -/
private theorem subset_events (h : Filled Q segments f) :
    Filled (fun t e => Q t e ∧ e.events ⊆ f.events) segments f := by
  induction h with
  | nil => exact .nil
  | piece _ ih => exact .piece ih
  | nested inner _ ih =>
    exact .nested ⟨inner, List.subset_append_left _ _⟩
      (ih.mono fun _ _ h => ⟨h.1, List.subset_append_of_subset_right _ h.2⟩)

end Filled

/-- **A round that comments something out reports its construct as erased**, since what it writes is
not what it found. -/
theorem Round.event_of_mem_erased {r : Round} (hsource : Piece.sourceOf r.pieces = r.replaced)
    {s : Bytes} (hs : .erased s ∈ r.pieces) :
    r.event = .erased r.found.kind ⟨r.found.start, r.stop⟩ r.replacement := by
  -- a replacement that equals the construct would keep all of its pieces
  unfold Round.event
  refine if_neg fun heq => ?_
  have hkept : r.event.isErased = false := by
    rw [Round.event, if_pos heq]
    rfl
  simpa [Piece.isKept] using List.all_eq_true.mp (Round.all_isKept hsource hkept) _ hs

/-! ### The run without a construct -/

/-- The event reports a construct of kind `k` as erased. -/
def Event.erases (k : Construct) : Event → Bool
  | erased kind _ _ => kind == k
  | _ => false

/-- **The run erases no construct of kind `k`**, at the top or inside. -/
def Erasure.Spares (e : Erasure) (k : Construct) : Prop :=
  ∀ event ∈ e.events, event.erases k = false

/-- **A run that spares a construct is the run without it.** The induction is on the rounds of the
run with it: none of them takes the construct, so each is a round of the other run. -/
theorem Rules.runFrom_of_spares {r r' : Rules} {k : Construct} (hliteral : k.literalKind? = none)
    (hclass : k ≠ .classMembers)
    (henables : ∀ q, r'.enables q = true ↔ r.enables q = true ∧ q ≠ k) {done rest : Bytes}
    {e : Erasure} (hrun : r.grammar.runFrom done rest = .ok e) (hspares : e.Spares k) :
    r'.grammar.runFrom done rest = .ok e := by
  have hg := r.grammar_lawful
  have hsub : ∀ q, r'.enables q = true → r.enables q = true := fun q hq => ((henables q).mp hq).1
  refine hg.run_induction
    (P := fun done rest e => e.Spares k → r'.grammar.runFrom done rest = .ok e) ?_ ?_ hrun hspares
  · -- where the run has ended nothing is found, and nothing without the construct either
    intro done rest hnone _
    exact Grammar.runFrom_of_next_eq_none (Rules.nextMatch_eq_none_of_enables hnone hsub)
  · intro done rest m f e hnext hf _ ih hspares
    have hsource := (hg.layout hnext).sourceOf_filled (hf.mono fun _ _ h => h.1)
    rw [Erasure.Spares, Erasure.events_cons] at hspares
    -- the round takes another construct, for otherwise it would report it
    have hne : m.kind ≠ k := by
      rintro rfl
      obtain ⟨s, hs⟩ := patchOf_erases_piece (done ++ rest) hliteral hclass
      have hevent := Round.event_of_mem_erased (r := r.grammar.round done rest m f) hsource
        (hf.mem_pieces hs)
      have := hspares _ (List.mem_append_right _ List.mem_cons_self)
      rw [hevent] at this
      simp [Event.erases, Grammar.round] at this
    have hnext' : r'.nextMatch (done ++ rest) done.size = some m := by
      have hon := (Rules.nextMatch_eq_some_iff.mp hnext).1.1
      exact Rules.nextMatch_of_enables hnext ((henables _).mpr ⟨hon, hne⟩) hsub
    -- the inner runs and the rest of the run spare the construct too
    have hinner : Filled (fun t e => r'.grammar.run t = .ok e) (patchOf (done ++ rest) m).segments
        f := hf.subset_events.mono fun t e h => h.1.2 fun event hevent =>
      hspares event (List.mem_append_left _ (List.mem_append_left _ (h.2 hevent)))
    have hrest := ih fun event hevent =>
      hspares event (List.mem_append_right _ (List.mem_cons_of_mem _ hevent))
    exact r'.grammar_lawful.runFrom_round hnext' hinner hrest

/-- **A construct that is never erased makes no difference.** If the run on a text reports no
construct of a kind as erased, neither at the top nor in an inner run, then the run with that kind
switched off has the same record, hence the same output and the same events. Class members are left
out: the fields of a class may be read and kept as they are. -/
theorem erase_of_idle (r : Rules) (f : Flag) (k : Construct) (hflag : k.flag? = some f)
    (hclass : k ≠ .classMembers) (text : Bytes) :
    ∃ e, erase r text = .ok e ∧
      ((∀ event ∈ e.events, event.erases k = false) →
        ∃ e', erase (r.set f false) text = .ok e' ∧ e'.output = e.output ∧
          e'.events = e.events) := by
  obtain ⟨e, hrun, -⟩ := r.grammar_lawful.exists_runFrom #[] text
  have hliteral : k.literalKind? = none := by
    cases k with
    | literal => simp [Construct.flag?] at hflag
    | _ => rfl
  refine ⟨e, hrun, fun hspares => ⟨e, ?_, rfl, rfl⟩⟩
  exact Rules.runFrom_of_spares hliteral hclass (r.enables_set_false hflag) hrun hspares

/-- A class whose initializer holds an `as` in a string only: no cast is erased, but other type
syntax is, at the top and in the inner run. -/
theorem erase_of_idle_cast :
    let text := Bytes.ofString "class A \x7b x: T = f<U>('y as V'); \x7d\nlet z: W"
    Construct.cast.flag? = some .casts ∧ Construct.cast ≠ .classMembers ∧
      ∃ e, erase {} text = .ok e ∧ (∀ event ∈ e.events, event.erases .cast = false) ∧
        (∃ event ∈ e.events, event.erases .typeArguments = true) ∧
        ∃ e', erase (Rules.set {} .casts false) text = .ok e' ∧ e'.output = e.output ∧
          e'.events = e.events := by
  intro text
  obtain ⟨e, hrun, hidle⟩ := erase_of_idle {} .casts .cast rfl (by decide) text
  have hevents : (erase {} text).toOption.any (fun e =>
      (e.events.all fun event => !event.erases .cast) &&
        e.events.any (·.erases .typeArguments)) = true := by decide +kernel
  rw [hrun] at hevents
  simp only [Except.toOption, Option.any_some, Bool.and_eq_true, List.all_eq_true,
    Bool.not_eq_true', List.any_eq_true] at hevents
  exact ⟨rfl, by decide, e, hrun, hevents.1, hevents.2, hidle hevents.1⟩

end TypeErasure
