import TypeErasure.Proofs.Heading.Construct
import TypeErasure.Proofs.NextItem

/-!
# Lists, item by item

The patch of an annotation goes on through the list that it stands in. It could as well end with its
first item, and leave the next one to the next round: `Rules.itemwise` is the grammar that does so.
The rounds of the two differ, and the text that a round looks back at does too, since in one of them
the comments of the earlier items are already written.

Main statement: where nothing but parameters can be annotated and no comment stands in the way, the
output is the same (`erase_itemwise`). The next construct behind the first item is the item that the
list goes on with (`nextMatch_secondItem`), so that a round of the list is the round of its first
item and the round of what is left of the list (`runFrom_afterItem`).
-/

namespace TypeErasure

/-! ### The grammar -/

/-- The patch of one annotation, without the items that follow it in its list. -/
def itemPatch (b : Bytes) (m : Match) : Patch :=
  let item : AnnotatedItem := ⟨m.start, m.start, m.stop - 1⟩
  let annotated := match annotationOf b item.colon with
    | some (_, annotated) => annotated
    | none => .parameter
  { stop := item.stop b annotated, segments := item.segments b annotated }

/-- **The grammar that takes the items of a list one by one.** -/
def Rules.itemwise (r : Rules) : Grammar :=
  ⟨r.nextMatch, fun b m => if m.kind = .annotated then itemPatch b m else patchOf b m⟩

/-- The patch of one annotation, when it is known what is annotated. -/
private theorem itemPatch_eq {b : Bytes} {colon start : Nat} {annotated : Annotated}
    (h : annotationOf b colon = some (start, annotated)) :
    itemPatch b ⟨.annotated, ⟨start, colon + 1⟩⟩ =
      { stop := (AnnotatedItem.mk start start colon).stop b annotated
        segments := (AnnotatedItem.mk start start colon).segments b annotated } := by
  simp only [itemPatch, Match.start, Match.stop, Nat.add_sub_cancel, h]

/-- It fits its text, since a single item does. -/
private theorem itemPatch_fits {b : Bytes} {cursor i : Nat} {m : Match}
    (h : annotationAt b cursor i = some m) : (itemPatch b m).Fits b m.start := by
  obtain ⟨start, annotated, hcolon, hof, -, rfl, -⟩ := annotationAt_cases h
  have his := isAt_of_isColon hcolon
  obtain ⟨-, hink, hscan⟩ := annotationOf_spec hof his
  have hplaced : (AnnotatedItem.mk start start i).Placed b start :=
    ⟨Nat.le_refl _, Scans.refl b start, hink, hscan, his⟩
  rw [itemPatch_eq hof]
  exact ⟨hplaced.layout annotated, hplaced.start_lt_stop annotated, hplaced.settles_stop annotated⟩

/-- **Taking items one by one is lawful**, whatever the rules. What is found is the same, and for
annotations the patch of a single item fits as that of the list does. -/
theorem Rules.itemwise_lawful (r : Rules) : r.itemwise.Lawful := by
  have hg := r.grammar_lawful
  -- the two grammars have different patches for annotations only
  have hfits {b : Bytes} {cursor : Nat} {m : Match} (h : r.nextMatch b cursor = some m) :
      (m.kind = .annotated ∧ (r.itemwise.patch b m).Fits b m.start) ∨
        r.itemwise.patch b m = r.grammar.patch b m := by
    by_cases hkind : m.kind = .annotated
    · obtain ⟨k, i, -, -, -, hat⟩ := (r.nextMatch_best b cursor).found m h
      obtain rfl := (kind_of_matchAt hat).symm.trans hkind
      have hpatch : r.itemwise.patch b m = itemPatch b m := if_pos hkind
      exact .inl ⟨hkind, hpatch ▸ itemPatch_fits hat⟩
    · exact .inr (if_neg hkind)
  constructor
  case le_start => exact fun h => hg.le_start h
  case lt_size => exact fun h => hg.lt_size h
  case scans => exact fun h => hg.scans h
  case layout =>
    intro b cursor m h
    rcases hfits h with ⟨-, hfits⟩ | hsame
    · exact hfits.layout
    · rw [hsame]
      exact hg.layout h
  case lt_stop =>
    intro b cursor m h
    rcases hfits h with ⟨-, hfits⟩ | hsame
    · exact hfits.lt_stop
    · rw [hsame]
      exact hg.lt_stop h
  case settles =>
    intro b cursor m h hclean
    rcases hfits h with ⟨-, hfits⟩ | hsame
    · exact hfits.settles
    · rw [hsame]
      exact hg.settles h hclean

/-! ### Words that a text lacks -/

/-- **The word stands nowhere in the text**, not even as a part of another one. -/
def Bytes.Lacks (b : Bytes) (w : String) : Prop :=
  ∀ i, b.hasAt i w = false

/-- Behind the end of the text there is nothing to look for. -/
private theorem Bytes.lacks_iff {b : Bytes} {w : String} :
    b.Lacks w ↔ ∀ i < b.size + 1, b.hasAt i w = false := by
  refine ⟨fun h i _ => h i, fun h i => ?_⟩
  by_cases hi : i ≤ b.size
  · exact h i (Nat.lt_succ_of_le hi)
  · -- behind the end every slice is empty
    have hempty (j : Nat) (hj : b.size ≤ j) : b.slice j (j + (ofString w).size) = #[] := by
      rw [slice, Array.extract_eq_empty_iff]
      omega
    rw [← h b.size (Nat.lt_succ_self _), hasAt, hasAt, hempty i (by omega),
      hempty _ (Nat.le_refl _)]

instance (b : Bytes) (w : String) : Decidable (b.Lacks w) :=
  decidable_of_iff _ Bytes.lacks_iff.symm

namespace Bytes.Lacks

variable {x y d : Bytes} {w : String}

/-- What is put between two parts of a text brings no word, if it holds no letters: a word would
stand before it, behind it or reach into it. -/
theorem insert (hw : (ofString w).toList.all Byte.isLetter = true) (hpos : 0 < (ofString w).size)
    (hd : d.toList.all (fun c => !c.isLetter) = true) (hsize : 0 < d.size) (h : (x ++ y).Lacks w) :
    (x ++ (d ++ y)).Lacks w := by
  intro i
  rw [Bool.eq_false_iff]
  intro hat
  have hletter (k : Nat) (hik : i ≤ k) (hk : k < i + (ofString w).size) :
      (x ++ (d ++ y)).satAt k Byte.isLetter = true := by
    have hletter := satAt_of_hasAt hat (k := k - i) (by omega) hw
    rwa [Nat.add_sub_cancel' hik] at hletter
  -- no letter stands where the new text does
  have hout (k : Nat) (hk : k < d.size) :
      ¬ (i ≤ x.size + k ∧ x.size + k < i + (ofString w).size) := by
    rintro ⟨hik, hki⟩
    have hin := hletter (x.size + k) hik hki
    rw [satAt_append_right, satAt_congr (Array.getElem?_append_left hk),
      satAt_of_getElem? (Array.getElem?_eq_getElem hk)] at hin
    simpa [hin] using List.all_eq_true.mp hd d[k] (Array.getElem_mem_toList hk)
  -- before the new text, where nothing has changed
  by_cases hbefore : i + (ofString w).size ≤ x.size
  · rw [(Agree.append x (d ++ y) y).hasAt_eq hbefore, h i] at hat
    simp at hat
  · -- behind it, where everything is shifted
    by_cases hbehind : x.size + d.size ≤ i
    · obtain ⟨j, rfl⟩ := Nat.exists_eq_add_of_le hbehind
      rw [Nat.add_assoc, hasAt_append_right, hasAt_append_right, ← hasAt_append_right x, h] at hat
      simp at hat
    · -- the word would have to reach into the new text
      by_cases hix : i ≤ x.size
      · exact hout 0 hsize (by omega)
      · exact hout (i - x.size) (by omega) (by omega)

/-- What is written for pieces brings no word that their source lacks. By induction on the pieces;
there is no slash in the source, so that a comment is what it comments out between two ends. -/
theorem outputOf (hw : (ofString w).toList.all Byte.isLetter = true)
    (hpos : 0 < (ofString w).size) {ps : List Piece}
    (hslash : ∀ k, (Piece.sourceOf ps).isAt k '/' = false)
    (h : (x ++ (Piece.sourceOf ps ++ y)).Lacks w) : (x ++ (Piece.outputOf ps ++ y)).Lacks w := by
  induction ps generalizing x with
  | nil => exact h
  | cons p rest ih =>
    rw [Piece.sourceOf_cons] at hslash h
    have hrest (k : Nat) : (Piece.sourceOf rest).isAt k '/' = false := by
      rw [← isAt_append_right p.source]
      exact hslash _
    rw [Piece.outputOf_cons, Array.append_assoc, ← Array.append_assoc]
    refine ih hrest ?_
    cases p with
    | kept t =>
      -- a kept piece is written as it is
      rwa [Array.append_assoc, ← Array.append_assoc] at h
    | erased t =>
      have ht (k : Nat) : t.isAt k '/' = false := by
        rw [Bool.eq_false_iff]
        intro hat
        exact Bool.false_ne_true ((hslash k).symm.trans (satAt_append_of hat _))
      -- the two ends of the comment are put in one after the other
      have hopen : (x ++ ofString "/*" ++ t ++ (Piece.sourceOf rest ++ y)).Lacks w := by
        have hopen := h.insert (d := ofString "/*") hw hpos rfl (by decide)
        simpa only [Piece.source, Array.append_assoc] using hopen
      have hclose := hopen.insert (d := ofString "*/") hw hpos rfl (by decide)
      rw [Piece.output, commentOut_of_noSlash ht]
      simpa only [Array.append_assoc] using hclose

end Bytes.Lacks

section Lacks

variable {b : Bytes}

/-- A text without `class` holds no part of a class, as all of these are given away by that word. -/
theorem classMembersAt_eq_none (h : b.Lacks "class") (i : Nat) : classMembersAt b i = none := by
  rw [Option.eq_none_iff_forall_ne_some]
  intro m hm
  cases sign_of_classMembersAt hm with
  | statement keyword => simp [Construct.keyword?] at keyword
  | @classMembers j word =>
    exact Bool.false_ne_true ((h j).symm.trans (hasAt_of_keywordAt word))

variable (h : ∀ w ∈ declarators, b.Lacks w)

include h

/-- No part of such a text spells a word that declares variables. -/
private theorem not_spells_declarator (i j : Nat) :
    declarators.any (fun w => Bytes.ofString w == b.slice i j) = false := by
  rw [List.any_eq_false]
  intro w hw
  rw [Bytes.beq_slice, h w hw, Bool.and_false]
  exact Bool.false_ne_true

/-- No comma parts the variables of a statement. The scan backward says that there are some only at
a word that declares them. -/
private theorem not_inDeclaratorList (comma : Nat) : inDeclaratorList b comma = false := by
  unfold inDeclaratorList
  cases hscan : scanBack b (visitOutside b (fun _ => false) (visitDeclarator b)) 0 comma with
  | none => rfl
  | some found =>
    obtain ⟨d, k, -, hvisit⟩ := exists_of_scanBack_eq_some hscan
    -- no word declares variables, so the search never says that there are some
    have hoff : visitDeclarator b k ≠ .halt true := by
      unfold visitDeclarator
      simp only [not_spells_declarator h, Bool.false_eq_true, if_false, ite_self]
      split <;> simp
    rcases visitOutside_cases b k with hcase | hcase | hcase <;> rw [hcase] at hvisit
    · simp at hvisit
    · split at hvisit
      · simpa using hvisit.symm
      · simp at hvisit
    · split at hvisit
      · cases found with
        | false => rfl
        | true => exact absurd hvisit hoff
      · simp at hvisit

/-- **Without a word that declares variables, only parameters are annotated.** The other ways to
annotate a name ask for such a word. -/
theorem eq_parameter_of_annotationOf {colon start : Nat} {annotated : Annotated}
    (hof : annotationOf b colon = some (start, annotated)) : annotated = .parameter := by
  obtain ⟨-, pattern, -, -, hannotated⟩ := exists_pattern_of_annotationOf hof
  unfold annotatedBy at hannotated
  obtain ⟨prev, -, hannotated⟩ := Option.bind_eq_some_iff.mp hannotated
  simp only [not_inDeclaratorList h, wordBefore, not_spells_declarator h, Bool.false_eq_true,
    if_false] at hannotated
  split at hannotated
  · exact (Option.some.inj hannotated).symm
  · split at hannotated
    · split at hannotated
      · exact (Option.some.inj hannotated).symm
      · simp at hannotated
    · simp at hannotated

end Lacks

/-! ### Patches without inner runs -/

section Items

variable {b : Bytes} {annotated : Annotated} {item next : AnnotatedItem}

private theorem annotatedItems_of_last (h : item.next b annotated = none) :
    annotatedItems b annotated item =
      { stop := item.stop b annotated, segments := item.segments b annotated } := by
  rw [Alike.annotatedItems_eq_match, h]

private theorem annotatedItems_of_next (h : item.next b annotated = some next) :
    annotatedItems b annotated item =
      { annotatedItems b annotated next with
        segments := item.segments b annotated ++ (annotatedItems b annotated next).segments } := by
  rw [Alike.annotatedItems_eq_match, h]

end Items

/-- The pieces of a list of annotations. Only the first one depends on where copying starts. The
recursion goes from item to item, as their colons lie further and further on. -/
private theorem annotatedItems_pieces (b : Bytes) (annotated : Annotated) (start colon : Nat) :
    ∃ ps stop, ∀ copied, annotatedItems b annotated ⟨copied, start, colon⟩ =
      { stop, segments := (.kept (b.slice copied start) :: ps).map .piece } := by
  -- neither the next item nor the end of this one depends on where copying starts
  have hcopied (copied : Nat) : (AnnotatedItem.mk copied start colon).next b annotated =
      (AnnotatedItem.mk start start colon).next b annotated := rfl
  have hstop (copied : Nat) : (AnnotatedItem.mk copied start colon).stop b annotated =
      (AnnotatedItem.mk start start colon).stop b annotated := rfl
  cases hnext : (AnnotatedItem.mk start start colon).next b annotated with
  | none =>
    refine ⟨[.erased (b.slice start ((AnnotatedItem.mk start start colon).stop b annotated))],
      (AnnotatedItem.mk start start colon).stop b annotated, fun copied => ?_⟩
    rw [annotatedItems_of_last ((hcopied copied).trans hnext), AnnotatedItem.segments, hstop]
    rfl
  | some next =>
    have hlt := AnnotatedItem.colon_lt_next hnext
    obtain ⟨ps, stop, hrest⟩ := annotatedItems_pieces b annotated next.start next.colon
    refine ⟨.erased (b.slice start ((AnnotatedItem.mk start start colon).stop b annotated)) ::
      .kept (b.slice next.copied next.start) :: ps, stop, fun copied => ?_⟩
    rw [annotatedItems_of_next ((hcopied copied).trans hnext),
      show next = ⟨next.copied, next.start, next.colon⟩ from rfl, hrest, AnnotatedItem.segments,
      hstop]
    rfl
termination_by b.size - colon
decreasing_by
  dsimp only at hlt
  omega

/-- **Only a class holds nested texts.** One case for each kind of construct. -/
theorem patchOf_pieces (b : Bytes) {m : Match} (hclass : m.kind ≠ .classMembers) :
    ∃ ps : List Piece, (patchOf b m).segments = ps.map .piece := by
  unfold patchOf
  cases hkind : m.kind with
  | literal kind => exact ⟨[.kept _], rfl⟩
  | ambient => exact ⟨[.erased _], declarationPatch_segments b m _⟩
  | typeAlias => exact ⟨[.erased _], rfl⟩
  | interface => exact ⟨[.erased _], declarationPatch_segments b m _⟩
  | classMembers => exact absurd hkind hclass
  | typeArguments => exact ⟨[.erased _], rfl⟩
  | returnType => exact ⟨[.erased _], rfl⟩
  | annotated =>
    -- an annotation may go on through a list
    obtain ⟨ps, stop, hitems⟩ := annotatedItems_pieces b
      (match annotationOf b (m.stop - 1) with
        | some (_, annotated) => annotated
        | none => .parameter) m.start (m.stop - 1)
    exact ⟨_, congrArg Patch.segments (hitems m.start)⟩
  | cast => exact ⟨[.erased _], rfl⟩

/-! ### States -/

/-- **Nothing but parameters can be annotated** in the state, and the source that is left holds no
slash. -/
structure ParametersOnly (done rest : Bytes) : Prop where
  slash : ∀ k, rest.isAt k '/' = false
  words : ∀ w ∈ declarators, (done ++ rest).Lacks w
  classes : (done ++ rest).Lacks "class"

/-- No part of the source that is left holds a slash. -/
private theorem ParametersOnly.slash_of_parts {done rest gap src behind : Bytes}
    (h : ParametersOnly done rest) (htext : done ++ rest = done ++ gap ++ src ++ behind) :
    (∀ k, src.isAt k '/' = false) ∧ ∀ k, behind.isAt k '/' = false := by
  have hrest : rest = gap ++ (src ++ behind) := by
    simp only [Array.append_assoc] at htext
    exact (Array.append_right_inj done).mp htext
  have hslash (k : Nat) : (src ++ behind).isAt k '/' = false := by
    rw [← Bytes.isAt_append_right gap, ← hrest]
    exact h.slash _
  refine ⟨fun k => ?_, fun k => ?_⟩
  · rw [Bool.eq_false_iff]
    intro hat
    exact Bool.false_ne_true ((hslash k).symm.trans (Bytes.satAt_append_of hat _))
  · rw [← Bytes.isAt_append_right src]
    exact hslash _

/-- A round leads to such a state again. It writes no word that was not there, since comments hold
what they comment out and their ends hold no letters. -/
theorem ParametersOnly.after {g : Grammar} (hg : g.Lawful) {done rest : Bytes} {m : Match}
    {f : Filling} (h : ParametersOnly done rest) (hnext : g.next (done ++ rest) done.size = some m)
    (hf : Filled (fun t e => Piece.sourceOf e.pieces = t) (g.patch (done ++ rest) m).segments f) :
    ParametersOnly (Grammar.doneAfter done rest m f) (g.restAfter done rest m) := by
  obtain ⟨gap, src, hgap, hsrc, -, -, htext⟩ := hg.round_parts hnext
  have hsource : Piece.sourceOf f.pieces = src := hsrc ▸ (hg.layout hnext).sourceOf_filled hf
  obtain ⟨hslash, hbehind⟩ := h.slash_of_parts htext
  -- the words are made of letters, so that no comment brings one
  have hlacks {w : String} (hw : (Bytes.ofString w).toList.all Byte.isLetter = true)
      (hpos : 0 < (Bytes.ofString w).size) (h : (done ++ rest).Lacks w) :
      (Grammar.doneAfter done rest m f ++ g.restAfter done rest m).Lacks w := by
    rw [htext, Array.append_assoc, ← hsource] at h
    rw [Grammar.doneAfter, hgap, Array.append_assoc]
    exact h.outputOf hw hpos (hsource ▸ hslash)
  refine ⟨hbehind, fun w hw => ?_, hlacks rfl (by decide) h.classes⟩
  have hletters : ∀ w ∈ declarators, (Bytes.ofString w).toList.all Byte.isLetter = true ∧
      0 < (Bytes.ofString w).size := by decide
  exact hlacks (hletters w hw).1 (hletters w hw).2 (h.words w hw)

/-! ### The second item -/

section Second

variable {x src rest : Bytes}

/-- The type of a parameter ends in the same place behind any text. -/
private theorem annotatedTypeStop_append_right (x b : Bytes) {start : Nat} (hstart : 0 < start) :
    annotatedTypeStop (x ++ b) .parameter (x.size + start) =
      x.size + annotatedTypeStop b .parameter start := by
  refine findStopFrom_append_right x b (fun k hk => ?_) (fun k hk => ?_) 0
  · rw [Bytes.satAt_append_right, isAssign_append_right (by omega)]
    rfl
  · exact closesAt_append_right_of_pos x b .type (by omega)

/-- The item that follows another one, as it stands in the text behind that one: whitespace, a comma
and an annotated name. -/
private theorem AnnotatedItem.exists_of_next {item next : AnnotatedItem}
    (hstop : item.stop (x ++ rest) .parameter = x.size)
    (h : item.next (x ++ rest) .parameter = some next) :
    ∃ comma marker colon, (∀ k, k < comma → rest.satAt k Byte.isSpace = true) ∧
      rest.isAt comma ',' = true ∧ nextAnnotated rest (comma + 1) = some (marker, colon) ∧
        next = shift x.size ⟨0, marker, colon⟩ := by
  obtain ⟨hcomma, h⟩ := Option.ite_none_right_eq_some.mp h
  obtain ⟨⟨marker, colon⟩, hnext, rfl⟩ := Option.map_eq_some_iff.mp h
  -- the comma stands behind the end of the item
  have hle : x.size ≤ item.typeStop (x ++ rest) .parameter := hstop ▸ Bytes.trimEnd_le _ _ _
  obtain ⟨comma, htype⟩ := Nat.exists_eq_add_of_le hle
  rw [htype] at hcomma hnext
  rw [Nat.add_assoc, nextAnnotated_append_right x rest (Nat.succ_pos comma)] at hnext
  obtain ⟨⟨marker', colon'⟩, hitem, hshift⟩ := Option.map_eq_some_iff.mp hnext
  obtain ⟨rfl, rfl⟩ := Prod.mk.inj hshift
  refine ⟨comma, marker', colon', fun k hk => ?_, ?_, hitem, ?_⟩
  · rw [← Bytes.satAt_append_right x]
    exact Bytes.isSpace_of_trimEnd_le (Nat.le_trans (Nat.le_of_eq hstop) (Nat.le_add_right _ _))
      (by omega)
  · rwa [Bytes.isAt_append_right] at hcomma
  · rw [hstop]
    rfl

/-- An item is erased from its mark to its end. -/
private theorem AnnotatedItem.segments_of_stop {annotated : Annotated} {colon : Nat}
    (hstop : (AnnotatedItem.mk x.size x.size colon).stop (x ++ src ++ rest) annotated =
      (x ++ src).size) :
    (AnnotatedItem.mk x.size x.size colon).segments (x ++ src ++ rest) annotated =
      [.kept #[], .erased src].map .piece := by
  rw [segments, hstop, Array.size_append, Segment.keep, Segment.erase, Bytes.slice_self,
    Bytes.slice_append_mid]
  rfl

/-- A search for the bracket around a place passes over the comment that is written before it, and
sees the same text before that. -/
private theorem enclosingOpen_commentOut (x rest : Bytes) (hslash : ∀ k, src.isAt k '/' = false) :
    enclosingOpen (x ++ src.commentOut ++ rest) (x ++ src.commentOut).size =
      enclosingOpen (x ++ src ++ rest) x.size := by
  have hholds : (x ++ src.commentOut ++ rest).Holds x.size src.commentOut := by
    rw [Array.append_assoc]
    exact (Bytes.holds_append.mp (Bytes.holds_append_right x (src.commentOut ++ rest))).1
  have hagree : Agree x.size (x ++ src.commentOut ++ rest) (x ++ src ++ rest) := by
    rw [Array.append_assoc, Array.append_assoc]
    exact Agree.append x _ _
  rw [Array.size_append, ← hagree.enclosingOpen_eq (Nat.le_refl _)]
  exact congrArg Option.join (scanBack_commentOut hholds hslash)

/-- The items of a list are the same pieces behind any text, as their types end in the same
places. -/
private theorem annotatedItems_behind (rest : Bytes) (marker colon : Nat) :
    ∃ ps stop, ∀ (x : Bytes) (copied : Nat),
      annotatedItems (x ++ rest) .parameter (.shift x.size ⟨copied, marker, colon⟩) =
        { stop := x.size + stop
          segments := (.kept (rest.slice copied marker) :: ps).map .piece } := by
  obtain ⟨ps, stop, hitems⟩ := annotatedItems_pieces rest .parameter marker colon
  refine ⟨ps, stop, fun x copied => ?_⟩
  rw [annotatedItems_append_right fun start => annotatedTypeStop_append_right x rest, hitems]
  rfl

end Second

/-! ### The round behind the first item -/

/-- What has been written after a round, with what the rest of the run writes. -/
private theorem Grammar.append_output_round (g : Grammar) (done rest : Bytes) (m : Match)
    (f : Filling) (e : Erasure) :
    done ++ (Erasure.mk (g.round done rest m f :: e.rounds) e.rest).output =
      doneAfter done rest m f ++ e.output := by
  rw [Erasure.output_cons, doneAfter]
  simp only [Array.append_assoc]
  rfl

section SecondRound

/-! The first item of a list is `src`, and the list goes on in `rest`. -/

variable {r : Rules} {x src rest : Bytes} {colon : Nat} {next : AnnotatedItem}
  (hon : r.enables .annotated = true) (hslash : ∀ k, src.isAt k '/' = false)
  (hclass : (x ++ src.commentOut ++ rest).Lacks "class")
  (hof : annotationOf (x ++ src ++ rest) colon = some (x.size, .parameter))
  (hstop : (AnnotatedItem.mk x.size x.size colon).stop (x ++ src ++ rest) .parameter =
    (x ++ src).size)
  (hnext : (AnnotatedItem.mk x.size x.size colon).next (x ++ src ++ rest) .parameter =
    some next)

include hon hslash hclass hof hstop hnext

/-- **When the first item of a list is commented out, the next construct is the second one**, and
what it annotates is a parameter too. The comma behind the comment is in the same round brackets as
the first item was, and a comma there is followed by the annotation of the next item
(`nextMatch_of_nextAnnotated`). -/
theorem Rules.nextMatch_secondItem :
    ∃ marker colon', next = .shift (x ++ src).size ⟨0, marker, colon'⟩ ∧
      r.nextMatch (x ++ src.commentOut ++ rest) (x ++ src.commentOut).size =
        some ⟨.annotated, ⟨(x ++ src.commentOut).size + marker,
          (x ++ src.commentOut).size + colon' + 1⟩⟩ ∧
      annotationOf (x ++ src.commentOut ++ rest) ((x ++ src.commentOut).size + colon') =
        some ((x ++ src.commentOut).size + marker, .parameter) := by
  obtain ⟨comma, marker, colon', hspace, hcomma, hitem, rfl⟩ :=
    AnnotatedItem.exists_of_next hstop hnext
  refine ⟨marker, colon', rfl, ?_⟩
  have hblank (k : Nat) (hk : (x ++ src.commentOut).size ≤ k)
      (hlt : k < (x ++ src.commentOut).size + comma) :
      (x ++ src.commentOut ++ rest).satAt k Byte.isSpace = true := by
    obtain ⟨j, rfl⟩ := Nat.exists_eq_add_of_le hk
    rw [Bytes.satAt_append_right]
    exact hspace j (by omega)
  -- the bracket around the first item is the one around the comma behind it
  have hopen : (enclosingOpen (x ++ src.commentOut ++ rest)
      ((x ++ src.commentOut).size + comma)).any ((x ++ src.commentOut ++ rest).isAt · '(') =
        true := by
    have hbefore := enclosingOpen_of_annotationOf hof (by simp only [Array.size_append]; omega)
    rw [enclosingOpen_of_space (Nat.le_add_right _ _) hblank,
      enclosingOpen_commentOut x rest hslash]
    cases ho : enclosingOpen (x ++ src ++ rest) x.size with
    | none =>
      -- a parameter is in some bracket
      rw [ho] at hbefore
      simp at hbefore
    | some o =>
      -- the bracket stands before the item, where the texts are the same
      have hlt := enclosingOpen_lt ho
      rw [ho, Array.append_assoc] at hbefore
      rw [Array.append_assoc]
      exact ((Agree.append x _ _).isAt_eq hlt '(').trans hbefore
  have hcomma' : (x ++ src.commentOut ++ rest).isAt ((x ++ src.commentOut).size + comma) ',' =
      true := by rwa [Bytes.isAt_append_right]
  have hitem' : nextAnnotated (x ++ src.commentOut ++ rest)
      ((x ++ src.commentOut).size + comma + 1) =
        some ((x ++ src.commentOut).size + marker, (x ++ src.commentOut).size + colon') := by
    rw [Nat.add_assoc, nextAnnotated_append_right _ _ (Nat.succ_pos comma), hitem]
    rfl
  exact ⟨Rules.nextMatch_of_nextAnnotated hon (classMembersAt_eq_none hclass)
    (Nat.le_add_right _ _) hblank hcomma' hopen hitem',
    annotationOf_of_nextAnnotated hcomma' hopen hitem'⟩

/-- **The run behind the first item takes the rest of the list in its first round.** The pieces of
that round are those of the list without its first item, so that what follows is the same. -/
theorem Rules.runFrom_secondItem :
    ∃ ps stop,
      annotatedItems (x ++ src ++ rest) .parameter ⟨x.size, x.size, colon⟩ =
        { stop := (x ++ src).size + stop
          segments := (.kept #[] :: .erased src :: ps).map .piece } ∧
      ∀ e, r.grammar.runFrom (x ++ src.commentOut ++ Piece.outputOf ps)
          (rest.slice stop rest.size) = .ok e →
        ∃ e', r.grammar.runFrom (x ++ src.commentOut) rest = .ok e' ∧
          x ++ src.commentOut ++ e'.output =
            x ++ src.commentOut ++ Piece.outputOf ps ++ e.output := by
  obtain ⟨marker, colon', rfl, hsecond, hof'⟩ :=
    Rules.nextMatch_secondItem hon hslash hclass hof hstop hnext
  obtain ⟨ps, stop, hitems⟩ := annotatedItems_behind rest marker colon'
  refine ⟨.kept (rest.slice 0 marker) :: ps, stop, ?_, fun e he => ?_⟩
  · rw [annotatedItems_of_next hnext, hitems, AnnotatedItem.segments_of_stop hstop]
    rfl
  · generalize hx : x ++ src.commentOut = x' at *
    -- the round takes the second item and the rest of the list
    have hpatch : r.grammar.patch (x' ++ rest)
        ⟨.annotated, ⟨x'.size + marker, x'.size + colon' + 1⟩⟩ =
          { stop := x'.size + stop
            segments := (.kept (rest.slice marker marker) :: ps).map .piece } := by
      rw [← hitems x' marker, show r.grammar.patch _ _ = annotationPatch _ _ from rfl,
        annotationPatch]
      simp only [Match.start, Match.stop, Nat.add_sub_cancel, hof']
      rfl
    have hdone : Grammar.doneAfter x' rest ⟨.annotated, ⟨x'.size + marker, x'.size + colon' + 1⟩⟩
        ⟨.kept (rest.slice marker marker) :: ps, []⟩ =
          x' ++ Piece.outputOf (.kept (rest.slice 0 marker) :: ps) := by
      have hgap := Bytes.slice_append_add x' rest 0 marker
      rw [Nat.add_zero] at hgap
      simp only [Grammar.doneAfter, Match.start, hgap, Piece.outputOf_cons, Piece.output,
        Bytes.slice_self, Array.empty_append, Array.append_assoc]
    have hrest : r.grammar.restAfter x' rest
        ⟨.annotated, ⟨x'.size + marker, x'.size + colon' + 1⟩⟩ = rest.slice stop rest.size := by
      rw [Grammar.restAfter, hpatch, Bytes.slice_append_from]
    rw [← hdone, ← hrest] at he
    have hfill : Filled (fun t e => r.grammar.run t = .ok e) (r.grammar.patch (x' ++ rest)
        ⟨.annotated, ⟨x'.size + marker, x'.size + colon' + 1⟩⟩).segments
          ⟨.kept (rest.slice marker marker) :: ps, []⟩ := by
      rw [hpatch]
      exact Filled.of_pieces _ _
    refine ⟨_, r.grammar_lawful.runFrom_round hsecond hfill he, ?_⟩
    rw [Grammar.append_output_round, hdone]

end SecondRound

/-! ### The run -/

section Run

variable {r : Rules} {done rest : Bytes} {m : Match} {f : Filling} {e e' : Erasure}
  {Q : Bytes → Erasure → Prop}

/-- Without `class` no part of one is found. -/
private theorem kind_ne_classMembers_of_lacks {b : Bytes} {cursor : Nat} (h : b.Lacks "class")
    (hnext : r.nextMatch b cursor = some m) : m.kind ≠ .classMembers := by
  intro hkind
  obtain ⟨k, i, -, -, -, hat⟩ := (r.nextMatch_best b cursor).found m hnext
  obtain rfl := (kind_of_matchAt hat).symm.trans hkind
  rw [Construct.matchAt, classMembersAt_eq_none h] at hat
  simp at hat

/-- A patch ends with its first item, or goes on through a list of parameters. -/
private theorem Rules.itemwise_patch_cases {b : Bytes} {cursor : Nat}
    (hwords : ∀ w ∈ declarators, b.Lacks w) (hnext : r.nextMatch b cursor = some m) :
    r.itemwise.patch b m = r.grammar.patch b m ∨
      ∃ start colon next, r.enables .annotated = true ∧
        m = ⟨.annotated, ⟨start, colon + 1⟩⟩ ∧ annotationOf b colon = some (start, .parameter) ∧
        r.itemwise.patch b m =
          { stop := (AnnotatedItem.mk start start colon).stop b .parameter
            segments := (AnnotatedItem.mk start start colon).segments b .parameter } ∧
        r.grammar.patch b m = annotatedItems b .parameter ⟨start, start, colon⟩ ∧
        (AnnotatedItem.mk start start colon).next b .parameter = some next := by
  obtain ⟨k, colon, hon, -, -, hat⟩ := (r.nextMatch_best b cursor).found m hnext
  by_cases hkind : m.kind = .annotated
  · obtain rfl := (kind_of_matchAt hat).symm.trans hkind
    obtain ⟨start, annotated, -, hof, -, rfl, hpatch⟩ := annotationAt_cases hat
    obtain rfl := eq_parameter_of_annotationOf hwords hof
    cases hlist : (AnnotatedItem.mk start start colon).next b .parameter with
    | none =>
      -- the list has no other item
      refine .inl ((itemPatch_eq hof).trans ?_)
      exact (hpatch.trans (annotatedItems_of_last hlist)).symm
    | some next => exact .inr ⟨start, colon, next, hon, rfl, hof, itemPatch_eq hof, hpatch, hlist⟩
  · exact .inl (if_neg hkind)

/-- **A round that takes a whole list is a round that takes its first item**, and then the run of
the grammar from there. -/
theorem Rules.runFrom_afterItem (h : ParametersOnly done rest)
    (hnext : r.nextMatch (done ++ rest) done.size = some m)
    (hf : Filled Q (r.itemwise.patch (done ++ rest) m).segments f)
    (hafter : ParametersOnly (Grammar.doneAfter done rest m f) (r.itemwise.restAfter done rest m))
    (hrun : r.grammar.runFrom done rest = .ok e) :
    ∃ e', r.grammar.runFrom (Grammar.doneAfter done rest m f) (r.itemwise.restAfter done rest m) =
      .ok e' ∧ Grammar.doneAfter done rest m f ++ e'.output = done ++ e.output := by
  rcases r.grammar_lawful.runFrom_cases hrun with ⟨hnone, -⟩ | ⟨m', f', e', hnext', hf', he', rfl⟩
  · simp [show r.grammar.next = r.nextMatch from rfl, hnext] at hnone
  obtain rfl := Option.some.inj (hnext.symm.trans hnext')
  rw [Grammar.append_output_round]
  obtain ⟨gap, src, hgap, -, hstart, hend, htext⟩ := r.itemwise_lawful.round_parts hnext
  rcases Rules.itemwise_patch_cases h.words hnext with
    hsame | ⟨start, colon, next, hon, rfl, hof, hitem, hlist, hitems⟩
  · -- the patch ends with its first item
    obtain ⟨ps, hps⟩ :=
      patchOf_pieces (done ++ rest) (kind_ne_classMembers_of_lacks h.classes hnext)
    have hps : (r.grammar.patch (done ++ rest) m).segments = ps.map .piece := hps
    rw [hsame, hps] at hf
    rw [hps] at hf'
    obtain rfl := hf.eq_of_pieces.trans hf'.eq_of_pieces.symm
    refine ⟨e', ?_, rfl⟩
    rwa [Grammar.restAfter, hsame]
  · -- the patch goes on, to an item that the next round finds
    obtain rfl : (done ++ gap).size = start := hstart
    rw [hitem] at hend hf
    rw [hlist] at hf'
    rw [Grammar.restAfter, hlist] at he'
    have hslash := (h.slash_of_parts htext).1
    generalize r.itemwise.restAfter done rest _ = behind at htext hafter ⊢
    rw [htext] at hof hend hf hf' he' hitems
    rw [AnnotatedItem.segments_of_stop hend.symm] at hf
    obtain rfl := hf.eq_of_pieces
    have hdone (ps : List Piece) : Grammar.doneAfter done rest
        ⟨.annotated, ⟨(done ++ gap).size, colon + 1⟩⟩ ⟨.kept #[] :: .erased src :: ps, []⟩ =
          done ++ gap ++ src.commentOut ++ Piece.outputOf ps := by
      rw [Grammar.doneAfter, hgap]
      simp only [Piece.outputOf_cons, Piece.output, Array.empty_append, Array.append_assoc]
    have hfirst := (hdone []).trans Array.append_empty
    rw [hfirst] at hafter ⊢
    obtain ⟨ps, stop, hwhole, hsecond⟩ :=
      Rules.runFrom_secondItem hon hslash hafter.classes hof hend.symm hitems
    rw [hwhole] at hf' he'
    obtain rfl := hf'.eq_of_pieces
    rw [hdone] at he' ⊢
    rw [Bytes.slice_append_from] at he'
    exact hsecond e' he'

/-- **Whole lists and single items give the same output**, from every such state. The induction is
on the run that takes single items: behind each of them the other run goes on as if it had taken the
item alone (`runFrom_afterItem`). -/
theorem Rules.output_itemwise (h : ParametersOnly done rest)
    (hitem : r.itemwise.runFrom done rest = .ok e') (hrun : r.grammar.runFrom done rest = .ok e) :
    done ++ e'.output = done ++ e.output := by
  refine r.itemwise_lawful.run_induction (P := fun done rest e' => ParametersOnly done rest →
    ∀ e, r.grammar.runFrom done rest = .ok e → done ++ e'.output = done ++ e.output) ?_ ?_ hitem
    h e hrun
  · -- where nothing is found both runs have ended
    intro done rest hnone _ e hrun
    rw [r.grammar.runFrom_of_next_eq_none hnone] at hrun
    rw [← Except.ok.inj hrun]
  · intro done rest m f e' hnext hf _ ih h e hrun
    have hafter := h.after r.itemwise_lawful hnext (hf.mono fun _ _ hq => hq.1)
    obtain ⟨e₁, hrun₁, hsame⟩ := Rules.runFrom_afterItem h hnext hf hafter hrun
    rw [Grammar.append_output_round, ih hafter e₁ hrun₁, hsame]

end Run

/-- **Lists may be taken item by item.** In a text without slashes and without the words `var`,
`let`, `const` and `class`, the output is the same whether a patch goes on through the list of its
annotation or ends with the first item, whatever the rules. Neither run fails. -/
theorem erase_itemwise (r : Rules) (text : Bytes) (hslash : ∀ i, text.isAt i '/' = false)
    (hwords : ∀ w ∈ ["var", "let", "const", "class"], text.Lacks w) :
    ∃ e e', erase r text = .ok e ∧ r.itemwise.run text = .ok e' ∧ e'.output = e.output := by
  obtain ⟨e, hrun, -⟩ := r.grammar_lawful.exists_runFrom #[] text
  obtain ⟨e', hitem, -⟩ := r.itemwise_lawful.exists_runFrom #[] text
  have hstate : ParametersOnly #[] text := by
    refine ⟨hslash, fun w hw => ?_, ?_⟩ <;> rw [Array.empty_append]
    · exact hwords w (List.mem_append_left ["class"] hw)
    · exact hwords "class" (by decide)
  have hsame := Rules.output_itemwise hstate hitem hrun
  rw [Array.empty_append, Array.empty_append] at hsame
  exact ⟨e, e', hrun, hitem, hsame⟩

/-- Three parameters, one with a mark and one that collects the rest: the list is one round, and
item by item it is three. -/
theorem erase_itemwise_list :
    let text := Bytes.ofString "f((a: A, b?: (B[]), ...c: C<D>) => a)"
    (∀ i, text.isAt i '/' = false) ∧ (∀ w ∈ ["var", "let", "const", "class"], text.Lacks w) ∧
      ∃ e e', erase {} text = .ok e ∧ (Rules.itemwise {}).run text = .ok e' ∧
        e'.output = e.output ∧
        e.output = Bytes.ofString "f((a/*: A*/, b/*?: (B[])*/, ...c/*: C<D>*/) => a)" ∧
        e.rounds.length = 1 ∧ e'.rounds.length = 3 := by
  have hslash : ∀ i, (Bytes.ofString "f((a: A, b?: (B[]), ...c: C<D>) => a)").isAt i '/' = false :=
    Bytes.not_isAt_of_all (by decide +kernel)
  have hwords : ∀ w ∈ ["var", "let", "const", "class"],
      (Bytes.ofString "f((a: A, b?: (B[]), ...c: C<D>) => a)").Lacks w := by decide +kernel
  have hlist : (erase {} (Bytes.ofString "f((a: A, b?: (B[]), ...c: C<D>) => a)")).toOption.map
      (fun e => (e.output, e.rounds.length)) =
        some (Bytes.ofString "f((a/*: A*/, b/*?: (B[])*/, ...c/*: C<D>*/) => a)", 1) := by
    decide +kernel
  have hitems : ((Rules.itemwise {}).run
      (Bytes.ofString "f((a: A, b?: (B[]), ...c: C<D>) => a)")).toOption.map (·.rounds.length) =
        some 3 := by decide +kernel
  obtain ⟨e, e', hrun, hitem, hsame⟩ := erase_itemwise {} _ hslash hwords
  rw [hrun] at hlist
  rw [hitem] at hitems
  obtain ⟨hout, hone⟩ := Prod.mk.inj (Option.some.inj hlist)
  exact ⟨hslash, hwords, e, e', hrun, hitem, hsame, hout, hone, Option.some.inj hitems⟩

end TypeErasure
