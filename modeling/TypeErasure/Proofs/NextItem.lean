import TypeErasure.Proofs.Parameters

/-!
# The next item of a list

The patch of an annotation goes forward from item to item: behind a comma it looks for an annotated
name (`nextAnnotated`) and asks no more. A run looks backward: a colon is an annotation if the name
before it stands directly in a list in round brackets, which is a search for the bracket.

Main statements: what is found going forward is found going backward, if the comma is in round
brackets (`annotationOf_of_nextAnnotated`); and the annotation of a parameter always is in such
brackets (`enclosingOpen_of_annotationOf`).
-/

namespace TypeErasure

/-! ### The bracket around a place -/

section Enclosing

variable {b : Bytes} {i j k : Nat}

/-- The search for the bracket passes over whitespace, commas, dots and names. -/
private theorem enclosingOpen_of_run (hij : i ≤ j)
    (h : ∀ k, i ≤ k → k < j → b.satAt k (fun c => c.isSeparator || c.isNamePart) = true) :
    enclosingOpen b j = enclosingOpen b i := by
  refine congrArg Option.join (scanBack_of_go hij (fun k hik hk => ?_) fun k hik hk => ?_)
  · exact Bytes.isAt_eq_false (h k hik hk) rfl
  · have hsemicolon : b.isAt k ';' = false := Bytes.isAt_eq_false (h k hik hk) rfl
    rw [visitEnclosing, visitOutside_zero (h k hik hk) rfl, hsemicolon]
    rfl

theorem enclosingOpen_of_space (hij : i ≤ j)
    (h : ∀ k, i ≤ k → k < j → b.satAt k Byte.isSpace = true) :
    enclosingOpen b j = enclosingOpen b i :=
  enclosingOpen_of_run hij fun k hik hk => Bytes.satAt_mono (h k hik hk) fun c hc => by
    rw [Byte.isSeparator_of_isSpace c hc, Bool.true_or]

private theorem enclosingOpen_of_name (hij : i ≤ j)
    (h : ∀ k, i ≤ k → k < j → b.satAt k Byte.isNamePart = true) :
    enclosingOpen b j = enclosingOpen b i :=
  enclosingOpen_of_run hij fun k hik hk => Bytes.satAt_mono (h k hik hk) fun c hc => by
    rw [hc, Bool.or_true]

/-- Right behind an opening bracket one is in it. -/
private theorem enclosingOpen_succ (h : b.satAt k Byte.isOpener = true) :
    enclosingOpen b (k + 1) = some k := by
  have hcloser : b.satAt k Byte.isCloser = false := Bytes.satAt_eq_false h (Byte.excludes_among rfl)
  rw [enclosingOpen, visitEnclosing, scanBack_of_halt (a := some k)]
  · rfl
  · exact Bytes.isAt_eq_false h rfl
  · rw [visitOutside, hcloser, h]
    rfl

/-- What one byte does to a count of brackets: it enters a group, it leaves one, or neither. -/
theorem visitOutside_cases (b : Bytes) (k : Nat) :
    (∀ {α : Type} (opened : Nat → α) outside d,
        visitOutside b opened outside d k = .go (d + 1)) ∨
      (∀ {α : Type} (opened : Nat → α) outside d,
        visitOutside b opened outside d k = if d = 0 then .halt (opened k) else .go (d - 1)) ∨
      ∀ {α : Type} (opened : Nat → α) outside d,
        visitOutside b opened outside d k = if d = 0 then outside k else .go d := by
  cases hcloser : b.satAt k Byte.isCloser with
  | true => exact .inl fun _ _ _ => by rw [visitOutside, hcloser]; rfl
  | false =>
    cases hopener : b.satAt k Byte.isOpener with
    | true => exact .inr (.inl fun _ _ _ => by rw [visitOutside, hcloser, hopener]; rfl)
    | false => exact .inr (.inr fun _ _ _ => by rw [visitOutside, hcloser, hopener]; rfl)

/-- **A group is passed over**: a search that entered it by its closing bracket leaves it by the
bracket that a search from within finds. By induction on the place, for both searches together: the
one from within is always `d + 1` groups less deep. -/
theorem scanBack_of_enclosingOpen {α : Type} {opened : Nat → α} {outside : Nat → Visit Nat α}
    {k o : Nat} (h : enclosingOpen b k = some o) (d : Nat) :
    scanBack b (visitOutside b opened outside) (d + 1) k =
      scanBack b (visitOutside b opened outside) d o := by
  -- the search from within may itself be `e` groups deep
  suffices hdeep : ∀ k e, scanBack b
      (visitOutside b some fun k => if b.isAt k ';' then .halt none else .go 0) e k =
        some (some o) →
      scanBack b (visitOutside b opened outside) (d + 1 + e) k =
        scanBack b (visitOutside b opened outside) d o from
    hdeep k 0 (Option.join_eq_some_iff.mp h)
  intro k
  induction k using Nat.strongRecOn with
  | ind k ih =>
    intro e he
    cases k with
    | zero => simp [scanBack] at he
    | succ k =>
      have hnext := ih k (Nat.lt_succ_self k)
      rw [scanBack_succ] at he ⊢
      by_cases hcloses : closesComment b k = true
      · -- both searches jump over the comment
        rw [if_pos hcloses] at he ⊢
        cases hstart : commentStart b (k - 1) with
        | none => simp [hstart] at he
        | some start =>
          rw [hstart] at he
          have := lastBelow_lt hstart
          exact ih start (by omega) e he
      · rw [if_neg hcloses] at he ⊢
        rcases visitOutside_cases b k with hvisit | hvisit | hvisit
        · -- a closing bracket leads both into another group
          rw [hvisit] at he ⊢
          exact hnext (e + 1) he
        · rw [hvisit] at he ⊢
          rw [if_neg (by omega)]
          cases e with
          | zero =>
            -- the bracket that the search from within finds
            obtain rfl : k = o := by simpa using he
            rfl
          | succ e => exact hnext e he
        · -- only the search from within may look at the byte, if it is in no inner group
          rw [hvisit] at he ⊢
          rw [if_neg (by omega)]
          cases e with
          | zero =>
            rw [if_pos rfl] at he
            by_cases hsemicolon : b.isAt k ';' = true
            · -- a semicolon would have ended the search without a bracket
              simp [hsemicolon] at he
            · rw [if_neg hsemicolon] at he
              exact hnext 0 he
          | succ e => exact hnext (e + 1) he

/-- Behind a group one is where one was before it: the search enters the group and leaves it
again. -/
private theorem enclosingOpen_of_group {o : Nat} (hcloser : b.satAt k Byte.isCloser = true)
    (h : enclosingOpen b k = some o) : enclosingOpen b (k + 1) = enclosingOpen b o := by
  refine congrArg Option.join (Eq.trans ?_ (scanBack_of_enclosingOpen h 0))
  refine scanBack_of_visit (Bytes.isAt_eq_false hcloser rfl) ?_
  rw [visitEnclosing, visitOutside, hcloser]
  rfl

end Enclosing

/-! ### Backward from an annotation -/

section Backward

variable {b : Bytes} {colon start : Nat} {annotated : Annotated}

/-- An annotation follows a pattern, with a marker between the two or without. -/
theorem exists_pattern_of_annotationOf (h : annotationOf b colon = some (start, annotated)) :
    ∃ last pattern, b.lastInk start = some last ∧ patternStart b last = some pattern ∧
      annotatedBy b pattern = some annotated := by
  unfold annotationOf at h
  obtain ⟨p, hp, h⟩ := Option.bind_eq_some_iff.mp h
  dsimp only at h
  by_cases hmark : b.satAt p (·.among ['?', '!']) = true
  · -- the ink before the colon is a marker, and the pattern stands before that
    simp only [hmark, if_true] at h
    obtain ⟨last, hlast, h⟩ := Option.bind_eq_some_iff.mp h
    obtain ⟨pattern, hpattern, h⟩ := Option.bind_eq_some_iff.mp h
    obtain ⟨kind, hkind, h⟩ := Option.bind_eq_some_iff.mp h
    obtain ⟨rfl, rfl⟩ := Prod.mk.inj (Option.some.inj h)
    exact ⟨last, pattern, hlast, hpattern, hkind⟩
  · -- the ink before the colon ends the pattern
    simp only [hmark, Bool.false_eq_true, if_false, Option.bind_eq_bind, Option.bind_some] at h
    obtain ⟨pattern, hpattern, h⟩ := Option.bind_eq_some_iff.mp h
    obtain ⟨kind, hkind, h⟩ := Option.bind_eq_some_iff.mp h
    obtain ⟨rfl, rfl⟩ := Prod.mk.inj (Option.some.inj h)
    exact ⟨p, pattern, hp, hpattern, hkind⟩

/-- What is read backward as a name is one. -/
private theorem satAt_of_nameStart_le {stop k : Nat} (hk : nameStart b stop ≤ k)
    (hstop : k < stop) : b.satAt k Byte.isNamePart = true := by
  have hrun : b.runStart Byte.isNamePart stop ≤ k := by
    have hle : b.runStart Byte.isNamePart stop ≤
        b.skipWhile Byte.isDigit (b.runStart Byte.isNamePart stop) := b.le_skipWhile _ _
    unfold nameStart at hk
    omega
  exact Bytes.satAt_of_runStart_le hrun hstop

/-- What encloses a pattern encloses its end. A pattern is a group in brackets or a name, and the
search passes over both. -/
private theorem enclosingOpen_of_patternStart {last pattern : Nat}
    (h : patternStart b last = some pattern) :
    enclosingOpen b (last + 1) = enclosingOpen b pattern := by
  unfold patternStart at h
  split at h
  · rename_i hbracket
    exact enclosingOpen_of_group (Bytes.satAt_of_among _ hbracket rfl) h
  · obtain ⟨hlt, h⟩ := Option.ite_none_right_eq_some.mp h
    obtain rfl := Option.some.inj h
    exact enclosingOpen_of_name (Nat.le_of_lt hlt) fun k hk hlt => satAt_of_nameStart_le hk hlt

/-- A pattern that declares a parameter stands in round brackets: it is behind such a bracket, or
behind a comma that is in one. -/
private theorem enclosingOpen_of_annotatedBy {pattern : Nat} (hsize : pattern ≤ b.size)
    (h : annotatedBy b pattern = some .parameter) :
    (enclosingOpen b pattern).any (b.isAt · '(') = true := by
  unfold annotatedBy at h
  dsimp only at h
  generalize hbefore :
    (if (decide (3 ≤ pattern) && b.hasAt (pattern - 3) "...") = true then pattern - 3
      else pattern) = before at h
  -- the dots of a rest parameter
  have hdots : before ≤ pattern ∧ enclosingOpen b pattern = enclosingOpen b before := by
    split at hbefore
    · rename_i hcond
      rw [Bool.and_eq_true, decide_eq_true_eq] at hcond
      refine ⟨by omega, enclosingOpen_of_run (by omega) fun k hk hlt => ?_⟩
      have hsize : (Bytes.ofString "...").size = 3 := rfl
      have hdot := Bytes.satAt_of_hasAt hcond.2 (k := k - before)
        (p := fun c => c.isSeparator || c.isNamePart) (by omega) rfl
      rwa [← hbefore, Nat.add_sub_cancel' (by omega)] at hdot
    · exact ⟨by omega, by rw [hbefore]⟩
  obtain ⟨prev, hprev, h⟩ := Option.bind_eq_some_iff.mp h
  have hlt := Bytes.lastInk_lt hprev
  have hspace := (Bytes.lastInk_spec hprev (by omega)).2
  rw [hdots.2, enclosingOpen_of_space (i := prev + 1) (by omega) fun k hk => hspace k hk]
  by_cases hround : b.isAt prev '(' = true
  · -- the first item of the list
    rw [enclosingOpen_succ (Bytes.satAt_of_isAt hround _)]
    exact hround
  · rw [if_neg hround] at h
    by_cases hcomma : b.isAt prev ',' = true
    · -- the comma behind another item is in the same brackets
      rw [if_pos hcomma] at h
      rw [enclosingOpen_of_run (Nat.le_succ prev) fun k hk hlt =>
        (show k = prev by omega) ▸ Bytes.satAt_of_isAt hcomma _]
      by_cases hopen : (enclosingOpen b prev).any (b.isAt · '(') = true
      · exact hopen
      · rw [if_neg hopen] at h
        split at h <;> simp at h
    · -- before the pattern stands neither a bracket nor a comma, so that it declares no parameter
      rw [if_neg hcomma] at h
      split at h <;> simp at h

/-- **The annotation of a parameter stands in round brackets.** The search for the bracket passes
over whitespace and over the pattern, and comes to what declares it. -/
theorem enclosingOpen_of_annotationOf (h : annotationOf b colon = some (start, .parameter))
    (hsize : start ≤ b.size) : (enclosingOpen b start).any (b.isAt · '(') = true := by
  obtain ⟨last, pattern, hlast, hpattern, hparameter⟩ := exists_pattern_of_annotationOf h
  have hlt := Bytes.lastInk_lt hlast
  have hle := le_of_patternStart hpattern
  have hspace := (Bytes.lastInk_spec hlast hsize).2
  rw [enclosingOpen_of_space (i := last + 1) (by omega) fun k hk => hspace k hk,
    enclosingOpen_of_patternStart hpattern]
  exact enclosingOpen_of_annotatedBy (by omega) hparameter

end Backward

/-! ### Forward from a comma -/

section Forward

variable {b : Bytes} {comma marker colon : Nat}

/-- An item behind a comma in round brackets is a parameter. The last ink before its name, or before
the dots of a rest parameter, is the comma. -/
private theorem annotatedBy_itemName (hcomma : b.isAt comma ',' = true)
    (hopen : (enclosingOpen b comma).any (b.isAt · '(') = true) :
    annotatedBy b (itemName b (comma + 1)) = some .parameter := by
  have hskip : comma + 1 ≤ b.skipSpace (comma + 1) := b.le_skipWhile _ _
  have hspace (k : Nat) (hk : comma < k) (hlt : k < b.skipSpace (comma + 1)) :
      b.satAt k Byte.isSpace = true := Bytes.satAt_of_lt_skipWhile hk hlt
  have hbefore : (if (decide (3 ≤ itemName b (comma + 1)) &&
      b.hasAt (itemName b (comma + 1) - 3) "...") = true then itemName b (comma + 1) - 3
      else itemName b (comma + 1)) = b.skipSpace (comma + 1) := by
    unfold itemName
    split
    · rename_i hdots
      rw [Nat.add_sub_cancel, hdots, decide_eq_true (Nat.le_add_left 3 _)]
      rfl
    · -- the last dot would have to stand where there is whitespace or the comma
      refine if_neg fun hcond => ?_
      rw [Bool.and_eq_true, decide_eq_true_eq] at hcond
      have hdot : b.isAt (b.skipSpace (comma + 1) - 3 + 2) '.' = true :=
        Bytes.satAt_of_hasAt hcond.2 (by decide) rfl
      rw [show b.skipSpace (comma + 1) - 3 + 2 = b.skipSpace (comma + 1) - 1 by omega] at hdot
      rcases Nat.lt_or_eq_of_le hskip with hlt | heq
      · rw [Bytes.isAt_eq_false (hspace _ (by omega) (by omega)) rfl] at hdot
        simp at hdot
      · rw [← heq, Nat.add_sub_cancel, Bytes.isAt_eq_satAt, Bytes.satAt_of_isAt hcomma] at hdot
        exact absurd hdot (by decide)
  have hprev : b.lastInk (b.skipSpace (comma + 1)) = some comma :=
    Bytes.lastInk_of_ink hskip (Bytes.satAt_of_isAt hcomma _) hspace
  have hround : b.isAt comma '(' = false := (Bytes.satAt_of_isAt hcomma _).trans rfl
  unfold annotatedBy
  simp only [hbefore, hprev, hround, hcomma, hopen, Option.bind_eq_bind, Option.bind_some,
    Bool.false_eq_true, if_false, if_true]

/-- The pattern that ends with the name of an item is that name, since what stands before it is no
part of a name. -/
private theorem patternStart_itemName (hcomma : b.isAt comma ',' = true)
    (hname : itemName b (comma + 1) < nameStop b (itemName b (comma + 1))) :
    patternStart b (nameStop b (itemName b (comma + 1)) - 1) = some (itemName b (comma + 1)) := by
  have hle := le_itemName b (comma + 1)
  have hpart (k : Nat) (hk : itemName b (comma + 1) ≤ k)
      (hlt : k < nameStop b (itemName b (comma + 1))) : b.satAt k Byte.isNamePart = true :=
    satAt_of_lt_nameStop hk hlt
  -- what stands before the name is whitespace, a dot or the comma
  have hbefore : b.satAt (itemName b (comma + 1) - 1) Byte.isSeparator = true := by
    rcases Nat.lt_or_eq_of_le hle with hlt | heq
    · exact satAt_of_lt_itemName (i := comma + 1) (by omega) (by omega)
    · rw [← heq, Nat.add_sub_cancel, Bytes.satAt_of_isAt hcomma]
      rfl
  have hbracket : b.satAt (nameStop b (itemName b (comma + 1)) - 1) (·.among ['}', ']']) = false :=
    Bytes.satAt_eq_false (hpart _ (by omega) (by omega)) (Byte.excludes_among rfl)
  rw [patternStart, hbracket, Nat.sub_add_cancel (by omega),
    nameStart_of_run (Nat.le_of_lt hname) (nameStop_of_lt hname).1 hpart
      (.inr (Bytes.not_satAt_of_among _ hbefore rfl))]
  simp [hname]

/-- **What is found going forward is found going backward**, if the comma is in round brackets. The
last ink before the colon is the marker or the end of the name, and the name is that of an item. -/
theorem annotationOf_of_nextAnnotated (hcomma : b.isAt comma ',' = true)
    (hopen : (enclosingOpen b comma).any (b.isAt · '(') = true)
    (h : nextAnnotated b (comma + 1) = some (marker, colon)) :
    annotationOf b colon = some (marker, .parameter) := by
  obtain ⟨hcond, h⟩ := Option.ite_none_right_eq_some.mp h
  obtain ⟨hmarker, hcolon⟩ := Prod.mk.inj (Option.some.inj h)
  rw [Bool.and_eq_true, decide_eq_true_eq] at hcond
  have hpattern := patternStart_itemName hcomma hcond.1
  have hparameter := annotatedBy_itemName hcomma hopen
  have hpart : b.satAt (nameStop b (itemName b (comma + 1)) - 1) Byte.isNamePart = true :=
    satAt_of_lt_nameStop (i := itemName b (comma + 1)) (by omega) (by omega)
  have hblank {i : Nat} (k : Nat) (hk : i ≤ k) (hlt : k < b.skipBlanks i) :
      b.satAt k Byte.isSpace = true :=
    Bytes.satAt_of_among _ (Bytes.satAt_of_lt_skipWhile hk hlt) rfl
  -- the marker follows the name
  have hlast : b.lastInk marker = some (nameStop b (itemName b (comma + 1)) - 1) := by
    have hle : nameStop b (itemName b (comma + 1)) ≤ marker := hmarker ▸ b.le_skipWhile _ _
    refine Bytes.lastInk_of_ink (by omega) ?_ fun k hk hlt => ?_
    · rw [Bytes.satAt_not (Bytes.lt_size_of_satAt hpart),
        Bytes.satAt_eq_false hpart (Byte.excludes_isSpace rfl)]
      rfl
    · exact hblank (i := nameStop b (itemName b (comma + 1))) k (by omega) (hmarker ▸ hlt)
  rw [hmarker] at hcolon
  unfold markerColon at hcolon
  unfold annotationOf
  split at hcolon
  · -- the colon follows the marker
    rename_i hmark
    have hle : marker + 1 ≤ colon := hcolon ▸ b.le_skipWhile _ _
    have hink : b.lastInk colon = some marker :=
      Bytes.lastInk_of_ink hle (Bytes.satAt_of_isAt hmark _) fun k hk hlt =>
        hblank (i := marker + 1) k hk (hcolon ▸ hlt)
    have hsign : b.satAt marker (·.among ['?', '!']) = true := Bytes.satAt_of_isAt hmark _
    simp only [hink, hsign, hlast, hpattern, hparameter, Option.bind_eq_bind, Option.bind_some,
      if_true]
  · -- there is no marker
    obtain rfl := hcolon
    have hsign : b.satAt (nameStop b (itemName b (comma + 1)) - 1) (·.among ['?', '!']) = false :=
      Bytes.satAt_eq_false hpart (Byte.excludes_among rfl)
    simp only [hsign, hlast, hpattern, hparameter, Option.bind_eq_bind, Option.bind_some,
      Bool.false_eq_true, if_false]

end Forward

/-! ### The next construct -/

/-- A pattern ends with a name or a bracket of its own. -/
private theorem satAt_of_patternStart {b : Bytes} {last pattern : Nat}
    (h : patternStart b last = some pattern) :
    b.satAt last (fun c => c.isNamePart || c.among ['}', ']']) = true := by
  unfold patternStart at h
  split at h
  · rename_i hbracket
    exact Bytes.satAt_mono hbracket fun c hc => by rw [hc, Bool.or_true]
  · obtain ⟨hlt, -⟩ := Option.ite_none_right_eq_some.mp h
    exact Bytes.satAt_mono (satAt_of_nameStart_le (Nat.le_of_lt_succ hlt) (Nat.lt_succ_self last))
      fun c hc => by rw [hc, Bool.true_or]

/-- An annotation is no return type: the ink before its colon is a marker or the end of a pattern,
and not a round bracket. -/
private theorem not_followsParameters_of_annotationOf {b : Bytes} {colon start : Nat}
    {annotated : Annotated} (h : annotationOf b colon = some (start, annotated))
    (hsize : colon ≤ b.size) : followsParameters b colon = false := by
  rcases annotationOf_cases h hsize with rfl | ⟨hmark, hlt, hspace⟩
  · obtain ⟨last, pattern, hlast, hpattern, -⟩ := exists_pattern_of_annotationOf h
    exact not_followsParameters_of_ink (satAt_of_patternStart hpattern) (Byte.excludes_isSpace rfl)
      rfl (Bytes.lastInk_lt hlast) (Bytes.lastInk_spec hlast hsize).2
  · exact not_followsParameters_of_ink hmark (Byte.excludes_isSpace rfl) rfl hlt hspace

/-- **Where an annotation starts, nothing else does.** Of the other kinds only a return type can
start with a colon, and it follows a list of parameters. -/
theorem matchAt_eq_none_of_annotationOf {b : Bytes} {cursor colon start : Nat}
    {annotated : Annotated} (h : annotationOf b colon = some (start, annotated))
    (hcolon : b.isAt colon ':' = true) {k : Construct} (hk : k ≠ .annotated) :
    k.matchAt b cursor start = none := by
  have hsize := Nat.le_of_lt (Bytes.lt_size_of_isAt hcolon)
  have hfollows := not_followsParameters_of_annotationOf h hsize
  rcases annotationOf_cases h hsize with rfl | ⟨hmark, -, -⟩
  · by_cases hreturn : k = .returnType
    · rw [hreturn, Construct.matchAt, returnTypeAt, returnTypeStop, hfollows]
      simp
    · have hstarts : ∀ k ∈ Construct.all, k ≠ .annotated → k ≠ .returnType →
          k.starts (Byte.ofChar ':') = false := by decide
      exact matchAt_eq_none_of_starts
        ((Bytes.satAt_of_isAt hcolon _).trans (hstarts k (Construct.mem_all k) hk hreturn))
  · exact matchAt_eq_none_of_starts (Bytes.not_satAt_of_among _ hmark (by cases k <;> rfl))

/-- **Behind an item the next construct is the annotation of the item that follows it**, in a text
without classes. Between the items nothing is given away (`ItemText.matchAt_eq_none`), and at the
marker nothing but the annotation. -/
theorem Rules.nextMatch_of_nextAnnotated {r : Rules} {b : Bytes} {c comma marker colon : Nat}
    (hon : r.enables .annotated = true) (hclass : ∀ i, classMembersAt b i = none) (hc : c ≤ comma)
    (hspace : ∀ k, c ≤ k → k < comma → b.satAt k Byte.isSpace = true)
    (hcomma : b.isAt comma ',' = true)
    (hopen : (enclosingOpen b comma).any (b.isAt · '(') = true)
    (h : nextAnnotated b (comma + 1) = some (marker, colon)) :
    r.nextMatch b c = some ⟨.annotated, ⟨marker, colon + 1⟩⟩ := by
  have htext := itemText_of_nextAnnotated hc hspace hcomma h
  have hof := annotationOf_of_nextAnnotated hcomma hopen h
  have hcolon : isColon b colon = true := by
    obtain ⟨hcond, h⟩ := Option.ite_none_right_eq_some.mp h
    obtain ⟨-, rfl⟩ := Prod.mk.inj (Option.some.inj h)
    exact (Bool.and_eq_true_iff.mp hcond).2
  have his := isAt_of_isColon hcolon
  have hsize := Bytes.lt_size_of_isAt his
  have hcases := annotationOf_cases hof (Nat.le_of_lt hsize)
  have hsign : b.satAt marker (·.among ['/', '?', '!', ':']) = true := by
    rcases hcases with rfl | ⟨hmark, -, -⟩
    · exact Bytes.satAt_of_isAt his _
    · exact Bytes.satAt_of_among _ hmark rfl
  have hcm : c ≤ marker := by
    obtain ⟨name, stop, h₁, h₂, h₃, -⟩ := htext
    omega
  -- nothing is given away before the marker, and only the annotation at it
  have hquiet {k : Construct} {j : Nat} (hj : c ≤ j) (hjm : j < marker) :
      k.matchAt b c j = none := by
    by_cases hk : k = .classMembers
    · rw [hk]
      exact hclass j
    · exact htext.matchAt_eq_none hsign hj hjm hk c
  have hfound : Construct.annotated.detect b c b.size =
      some ⟨.annotated, ⟨marker, colon + 1⟩⟩ := by
    refine firstIn_eq_some_iff.mpr ⟨colon, by omega, hsize, ?_, fun j hj hjc => ?_⟩
    · rw [Construct.matchAt, annotationAt, if_pos hcolon, hof]
      exact if_pos hcm
    · by_cases hjm : j < marker
      · exact hquiet hj hjm
      · -- between the marker and its colon there is no other one
        rcases hcases with rfl | ⟨hmark, -, hspace⟩
        · exact absurd hjc hjm
        · refine matchAt_eq_none_of_starts ?_
          rcases Nat.lt_or_eq_of_le (Nat.le_of_not_lt hjm) with hlt | rfl
          · exact Bytes.satAt_eq_false (hspace j hlt hjc) (Byte.excludes_among rfl)
          · exact Bytes.not_satAt_of_among _ hmark rfl
  refine Rules.nextMatch_eq_some_iff.mpr ⟨⟨hon, hfound⟩, fun k n hk hn => ?_⟩
  by_cases hannotated : k = .annotated
  · rw [hannotated, hfound] at hn
    obtain rfl := Option.some.inj hn
    exact .inr ⟨rfl, Nat.le_refl _⟩
  · obtain ⟨j, hj, -, hat⟩ := exists_of_firstIn_eq_some hn
    rcases Nat.lt_trichotomy j marker with hlt | rfl | hgt
    · rw [hquiet hj hlt] at hat
      simp at hat
    · rw [matchAt_eq_none_of_annotationOf hof his hannotated] at hat
      simp at hat
    · exact .inl (start_of_matchAt hannotated hat ▸ hgt)

end TypeErasure
