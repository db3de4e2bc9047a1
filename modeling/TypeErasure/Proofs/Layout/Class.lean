import TypeErasure.Class.Body
import TypeErasure.Proofs.Layout.Construct

/-!
# The layouts of classes

The walk through a class body reads one field after another, and a field has up to five parts:
modifiers, name, marker, type and initializer. Each part starts where the last one ends, which can
be next to the path of a scan only, since types and initializers are trimmed. `Covers` is what is
handed on from part to part: a layout that ends next to the path.

* `memberAt_covered` — one member;
* `walkMembers_covers` — the walk;
* `classMembersPatch_fits` — a class header or body, with its clause.
-/

namespace TypeErasure

/-- **The segments divide the bytes from `i` to `j`**, and `j` is next to the path from `c`. -/
structure Covers (b : Bytes) (c i : Nat) (segments : List Segment) (j : Nat) : Prop where
  layout : Layout b c i segments j
  settles : Settles b c j

namespace Covers

variable {b : Bytes} {c i j k : Nat} {segments rest : List Segment}

theorem nil (h : Settles b c i) : Covers b c i [] i :=
  ⟨.nil i, h⟩

/-- Two stretches that are covered one after the other are covered together. -/
theorem append (h : Covers b c i segments j) (hrest : Covers b c j rest k) :
    Covers b c i (segments ++ rest) k :=
  ⟨h.layout.append hrest.layout, hrest.settles⟩

/-- A kept segment in front. -/
theorem keep (hij : Scans b i j) (hi : i ≤ b.size) (h : Covers b c j segments k) :
    Covers b c i (.keep b i j :: segments) k :=
  ⟨.keep hij.le (hij.le_size hi) h.layout, h.settles⟩

/-- A segment in front that is commented out. It starts with ink, so it starts on the path. This is
where a part that starts next to the path only is brought back onto it. -/
theorem erase (hi : Settles b c i) (hij : i < j) (hj : j ≤ b.size) (hink : StartsInk b i)
    (hend : Settles b c j) (h : Covers b c j segments k) :
    Covers b c i (.erase b i j :: segments) k :=
  ⟨.erase hij hj (hi.scans_of_startsInk (Scans.refl b i) hink) hink hend h.layout, h.settles⟩

end Covers

/-! ### Modifiers and names -/

/-- A modifier is followed, in its line, by the rest of the member. -/
theorem scans_modifierStop {b : Bytes} {k next : Nat} (h : modifierStop b k = some next) :
    Scans b k next := by
  unfold modifierStop at h
  dsimp only at h
  rw [Option.ite_none_right_eq_some] at h
  obtain ⟨-, heq⟩ := h
  obtain rfl := Option.some.inj heq
  exact (scans_nameStop b k).trans (scans_skipBlanks b _)

private theorem startsInk_of_startsGhost {b : Bytes} {k : Nat} (h : b.satAt k startsGhost = true) :
    StartsInk b k :=
  startsInk_of_satAt h (Byte.excludes_isSpace rfl)

/-- The modifiers from offset `k` on are covered, and the path leads to the rest of the member. -/
def Modifiers.Covered (b : Bytes) (c k : Nat) : Modifiers → Prop
  | named segments start => Covers b c k segments start ∧ Scans b k start
  | foreign segments start => Covers b c k segments start ∧ Scans b k start
  | ghost => True

/-- One more modifier in front. How its segment is covered is left to the caller, since it may be
kept or commented out. -/
theorem Modifiers.Covered.cons {b : Bytes} {c k next : Nat} {m : Modifiers} {s : Segment}
    (h : m.Covered b c next) (hscan : Scans b k next)
    (hs : ∀ {segments : List Segment} {j : Nat}, Covers b c next segments j →
      Covers b c k (s :: segments) j) : (m.cons s).Covered b c k := by
  cases m with
  | named => exact ⟨hs h.1, hscan.trans h.2⟩
  | foreign => exact ⟨hs h.1, hscan.trans h.2⟩
  | ghost => trivial

/-- The modifiers of a member are covered, and the path leads through them. The induction follows
the list of modifiers. -/
theorem modifiersAt_covered {b : Bytes} {c k : Nat} (h : Settles b c k) :
    (modifiersAt b k).Covered b c k := by
  fun_induction modifiersAt b k with
  | case1 k => exact ⟨.nil h, Scans.refl b k⟩
  | case2 => trivial
  | case3 k next hnext _ _ ih =>
    -- a modifier that only types need
    have hscan := scans_modifierStop hnext
    have hsize := lt_of_modifierStop hnext
    have hink := startsInk_of_startsGhost (satAt_of_modifierStop hnext)
    have hend := h.trans_scans hscan
    exact (ih hend).cons hscan fun hrest =>
      hrest.erase h hsize.1 (Nat.le_of_lt hsize.2) hink hend
  | case4 k next hnext _ _ _ ih =>
    -- a modifier that stays
    have hscan := scans_modifierStop hnext
    have hsize := lt_of_modifierStop hnext
    exact (ih (h.trans_scans hscan)).cons hscan fun hrest => hrest.keep hscan (by omega)
  | case5 k => exact ⟨.nil h, Scans.refl b k⟩

/-- The name of a member is on the path, whichever of the four forms it has. -/
theorem scans_memberNameStop {b : Bytes} {k name : Nat} (h : memberNameStop b k = some name) :
    Scans b k name := by
  unfold memberNameStop at h
  split at h
  · -- a private name
    rename_i hhash
    dsimp only at h
    rw [Option.ite_none_right_eq_some] at h
    obtain rfl := Option.some.inj h.2
    exact (scans_isAt hhash rfl).trans (scans_nameStop b (k + 1))
  · split at h
    · -- a quoted name
      rename_i hquote
      obtain ⟨l, hl, rfl⟩ := Option.map_eq_some_iff.mp h
      exact Scans.inert (inertStop_of_isQuote hl hquote)
    · split at h
      · -- a computed name
        rename_i hopen
        unfold computedNameStop at h
        dsimp only at h
        rw [Option.ite_none_right_eq_some] at h
        obtain ⟨hclose, heq⟩ := h
        obtain rfl := Option.some.inj heq
        exact (scans_isAt hopen rfl).trans
          (scans_succ_findClose (Bytes.lt_size_of_isAt hopen) (Bytes.lt_size_of_isAt hclose))
      · -- a plain name
        dsimp only at h
        rw [Option.ite_none_right_eq_some] at h
        obtain rfl := Option.some.inj h.2
        exact scans_nameStop b k

/-! ### Fields -/

theorem satAt_of_isMarker {b : Bytes} {i : Nat} (h : isMarker b i = true) :
    b.satAt i (·.among ['?', '!']) = true :=
  (Bool.and_eq_true_iff.mp h).1

/-- A marker and the trivia behind it are on the path, or there is none. -/
theorem scans_skipMarker (b : Bytes) (i : Nat) : Scans b i (skipMarker b i) := by
  unfold skipMarker
  split
  · rename_i hmark
    exact (scans_succ (satAt_of_isMarker hmark) (Byte.excludes_opensInert rfl)).trans
      (scans_skipTrivia b _)
  · exact Scans.refl b i

/-- An annotation from offset `start` on, which is its marker or its colon. The two cases differ in
where the erased part starts, so this is stated for any start that is ink and leads to the colon. -/
private theorem fieldType_colon_covers {b : Bytes} {c name start colon : Nat} {p : Byte → Bool}
    (hname : Settles b c name) (hsize : name ≤ b.size) (hstart : Scans b name start)
    (hmark : b.satAt start p = true) (hp : Byte.Excludes p Byte.isSpace)
    (hcolon : Scans b start colon) (his : b.isAt colon ':' = true) :
    Covers b c name
      [.keep b name start, .erase b start (b.trimEnd start (fieldTypeStop b (colon + 1)))]
      (b.trimEnd start (fieldTypeStop b (colon + 1))) := by
  have hlt := Bytes.lt_size_of_isAt his
  -- the type ends on the path behind the colon, before it is trimmed
  have hscan : Scans b start (fieldTypeStop b (colon + 1)) :=
    (hcolon.trans (scans_isAt his rfl)).trans (scans_findStop hlt)
  have hle : colon + 1 ≤ fieldTypeStop b (colon + 1) := le_findStop hlt
  -- the marker or the colon itself is ink, so trimming stops behind it
  have hpos : start < b.trimEnd start (fieldTypeStop b (colon + 1)) := by
    have := hcolon.le
    exact Bytes.lt_trimEnd (by omega) (Bytes.satAt_eq_false hmark hp)
  have hend : Settles b c (b.trimEnd start (fieldTypeStop b (colon + 1))) :=
    (hname.trans_scans hstart).trans (settles_trimEnd hscan (Nat.le_refl _) hscan.le)
  exact (Covers.nil hend).erase (hname.trans_scans hstart) hpos
    (Nat.le_trans (b.trimEnd_le _ _) (findStop_le _ _ _ _)) (startsInk_of_satAt hmark hp) hend
    |>.keep hstart hsize

/-- The marker and the type of a field are covered, from the end of its name on. Without a marker
and without a colon there is nothing to cover. -/
theorem fieldType_covers {b : Bytes} {c name after colon : Nat} (hname : Settles b c name)
    (hsize : name ≤ b.size) (hafter : Scans b name after) (hcolon : Scans b after colon) :
    Covers b c name (fieldType b name after colon).1 (fieldType b name after colon).2 := by
  unfold fieldType
  split
  · rename_i his
    dsimp only
    -- the erased part starts with the marker, if there is one
    by_cases hmark : isMarker b after = true
    · rw [if_pos hmark]
      exact fieldType_colon_covers hname hsize hafter (satAt_of_isMarker hmark)
        (Byte.excludes_isSpace rfl) hcolon his
    · rw [if_neg hmark]
      exact fieldType_colon_covers (p := (·.is ':')) hname hsize (hafter.trans hcolon) his
        (Byte.excludes_isSpace rfl) (Scans.refl b colon) his
  · split
    · -- a marker without a type
      rename_i hmark
      have hsat := satAt_of_isMarker hmark
      -- only the marker is commented out
      have hset := hname.trans_scans hafter
      have hend := hset.trans_scans (scans_succ hsat (Byte.excludes_opensInert rfl))
      exact (Covers.nil hend).erase hset (Nat.lt_succ_self _) (Bytes.lt_size_of_satAt hsat)
        (startsInk_of_satAt hsat (Byte.excludes_isSpace rfl)) hend
        |>.keep hafter hsize
    · exact .nil hname

/-- The initializer of a field is covered, from the end of its type on. The text behind the sign is
nested: it starts on the path, lies behind the start of the construct, and does not end in
whitespace. -/
theorem fieldInitializer_covers {b : Bytes} {c stop : Nat} (hstop : Settles b c stop)
    (hsize : stop ≤ b.size) :
    Covers b c stop (fieldInitializer b stop).1 (fieldInitializer b stop).2 := by
  unfold fieldInitializer
  dsimp only
  split
  · rename_i hassign
    have hsign := (Bool.and_eq_true_iff.mp hassign).1
    have heq := Bytes.lt_size_of_isAt hsign
    have hone : Scans b (skipTrivia b stop) (skipTrivia b stop + 1) :=
      scans_isAt hsign rfl
    -- the sign is ink, so the initializer starts on the path
    have hstart : Scans b c (skipTrivia b stop + 1) :=
      (hstop.scans_of_startsInk (scans_skipTrivia b stop)
        (startsInk_of_isAt hsign rfl)).trans hone
    have hvalue : skipTrivia b stop + 1 ≤ initializerStop b (skipTrivia b stop + 1) :=
      le_initializerStop heq
    have hend : Settles b c (initializerStop b (skipTrivia b stop + 1)) :=
      settles_trimEnd (hstart.trans (scans_findStop heq)) hstart.le (le_findStop heq)
    have hlast : initializerStop b (skipTrivia b stop + 1) ≤ b.size :=
      Nat.le_trans (b.trimEnd_le _ _) (findStop_le _ _ _ _)
    have hc : c < skipTrivia b stop + 1 :=
      Nat.lt_succ_of_le (Nat.le_trans hstop.1 (scans_skipTrivia b stop).le)
    have hnested : Covers b c (skipTrivia b stop + 1)
        [.nested (b.slice (skipTrivia b stop + 1) (initializerStop b (skipTrivia b stop + 1)))]
        (initializerStop b (skipTrivia b stop + 1)) :=
      ⟨.nested hvalue hlast hc hstart hend (fun h => Bytes.not_isSpace_before_trimEnd h) (.nil _),
        hend⟩
    exact hnested.keep ((scans_skipTrivia b stop).trans hone) hsize
  · exact .nil hstop

/-! ### Members -/

/-- The bytes that the walk takes of a member are covered. -/
def Member.Covered (b : Bytes) (c i : Nat) : Member → Prop
  | field segments stop => Covers b c i segments stop
  | other segments stop => Covers b c i segments stop

/-- What is read of a member from its name on is covered. A member that is no field leaves its
modifiers only, which are covered by assumption. -/
private theorem namedMember_covered {b : Bytes} {c start k : Nat} {modifiers : List Segment}
    (h : Covers b c start modifiers k) (hk : k ≤ b.size) :
    (namedMember b modifiers k).Covered b c start := by
  unfold namedMember
  split
  · exact h
  · rename_i name hname
    dsimp only
    split
    · exact h
    · -- name, type and initializer are laid one behind the other
      have hscan := scans_memberNameStop hname
      have hend := h.settles.trans_scans hscan
      have hsize := hscan.le_size hk
      have htype := fieldType_covers hend hsize (scans_skipTrivia b name)
        (scans_skipMarker b (skipTrivia b name))
      have hinit := fieldInitializer_covers htype.settles (htype.layout.le_size hsize)
      exact ((h.append ((Covers.nil hend).keep hscan hk)).append htype).append hinit

/-- A member without counterpart at run time is covered by one erased segment. -/
theorem ghostMember_covered {b : Bytes} {c start : Nat} (h : Settles b c start)
    (hghost : b.satAt start startsGhost = true) : (ghostMember b start).Covered b c start := by
  have hend : Settles b start (ghostStop b start) :=
    settles_statementStop (scans_findStop (Nat.le_of_lt (Bytes.lt_size_of_satAt hghost)))
  exact (Covers.nil (h.trans hend)).erase h (lt_ghostStop hghost)
    (statementStop_le_size (findStop_le _ _ _ _)) (startsInk_of_startsGhost hghost) (h.trans hend)

/-- **One member**: what is read of it is covered. The three ways in which the modifiers end are
gone through; a ghost starts with ink by `startsGhost_of_modifiersAt` or with the bracket of its
signature. -/
theorem memberAt_covered {b : Bytes} {c start : Nat} (h : Settles b c start)
    (hsize : start ≤ b.size) : (memberAt b start).Covered b c start := by
  have hmods := modifiersAt_covered h
  unfold memberAt
  -- the modifiers end with a ghost, with a word that is none, or with a name
  split
  · rename_i hm
    exact ghostMember_covered h (startsGhost_of_modifiersAt (by simp [hm]))
  · rename_i modifiers k hm
    rw [hm] at hmods
    exact hmods.1
  · rename_i modifiers k hm
    rw [hm] at hmods
    split
    · rename_i hindex
      exact ghostMember_covered h (startsGhost_of_isIndexSignature hm hindex)
    · exact namedMember_covered hmods.1 (hmods.2.le_size hsize)

/-! ### The walk -/

/-- **The walk through a class body** divides what it reads. The induction follows the walk, which
keeps the trivia before a member, covers the member and goes on behind it. -/
theorem walkMembers_covers {b : Bytes} {c i : Nat} (h : Settles b c i) (hi : i ≤ b.size) :
    Covers b c i (walkMembers b i).segments (walkMembers b i).stop := by
  fun_induction walkMembers b i with
  | case1 i start gap _ hsemi ih =>
    -- an empty member
    have hgap : Scans b i start := scans_skipTrivia b i
    have hone : Scans b start (start + 1) := scans_isAt hsemi rfl
    have hsize := Bytes.lt_size_of_isAt hsemi
    exact ((ih (h.trans_scans (hgap.trans hone)) hsize).keep hone (Nat.le_of_lt hsize)).keep hgap hi
  | case2 i start gap hcond _ segments stop hmember =>
    -- a member that is no field ends the walk
    have hgap : Scans b i start := scans_skipTrivia b i
    have hcovered := memberAt_covered (h.trans_scans hgap) (Nat.le_of_lt hcond.1)
    rw [hmember] at hcovered
    exact Covers.keep hgap hi hcovered
  | case3 i start gap hcond _ segments stop hmember ih =>
    -- a field, and the members behind it
    have hgap : Scans b i start := scans_skipTrivia b i
    have hcovered := memberAt_covered (h.trans_scans hgap) (Nat.le_of_lt hcond.1)
    rw [hmember] at hcovered
    have hstop := hcovered.layout.le_size (Nat.le_of_lt hcond.1)
    exact (Covers.append hcovered (ih hcovered.settles hstop)).keep hgap hi
  | case4 i start gap =>
    -- the bracket that closes the body, or the end of the text
    have hgap : Scans b i start := scans_skipTrivia b i
    exact (Covers.nil (h.trans_scans hgap)).keep hgap hi

/-! ### Headers and bodies -/

/-- A class body with the clause before its bracket. The clause may be empty, as for a bracket that
follows a plain header. -/
private theorem classBody_fits {b : Bytes} {start brace : Nat} (hstart : ¬ b.isAt start 'a' = true)
    (hclause : Covers b start start (clauseSegments b start brace) brace)
    (hbrace : b.isAt brace '{' = true) :
    (classMembersPatch b ⟨.classMembers, ⟨start, brace + 1⟩⟩).Fits b start := by
  -- the walk starts on the path behind the bracket
  have hsize := Bytes.lt_size_of_isAt hbrace
  have hone : Scans b brace (brace + 1) := scans_isAt hbrace rfl
  have hwalk := walkMembers_covers (hclause.settles.trans_scans hone) hsize
  have hbody := hclause.append (hwalk.keep hone (Nat.le_of_lt hsize))
  have hlt := Nat.lt_of_lt_of_le (Nat.lt_succ_of_le hclause.layout.le) hwalk.layout.le
  unfold classMembersPatch
  simp only [Match.start, Match.stop, Nat.add_sub_cancel, if_neg hstart]
  exact ⟨hbody.layout, hlt, hbody.settles⟩

/-- The clause of a class header is commented out up to the whitespace before the bracket. The
clause is erased from its blank on, and the whitespace that trimming gives up is kept. -/
private theorem clauseSegments_covers {b : Bytes} {start brace : Nat} (hink : StartsInk b start)
    (hscan : Scans b start brace) (hlt : start + 1 < brace) (hsize : brace ≤ b.size) :
    Covers b start start (clauseSegments b start brace) brace := by
  have hend : Settles b start (b.trimEnd start brace) :=
    settles_trimEnd hscan (Nat.le_refl _) hscan.le
  have hstop := b.trimEnd_le start brace
  unfold clauseSegments
  rw [if_pos (by omega)]
  dsimp only
  exact ⟨.erase (lt_trimEnd_of_startsInk hink hlt) (by omega) (Scans.refl b start) hink hend
    (.keep hstop hsize (.nil brace)), hscan.settles⟩

/-- A header that starts with `abstract` is recognised at that word, and only the word and the
blanks behind it are commented out. -/
private theorem abstractPatch_fits {b : Bytes} {i : Nat} {m : Match} (h : abstractAt b i = some m) :
    m.kind = .classMembers ∧ m.start = i ∧ (classMembersPatch b m).Fits b i := by
  unfold abstractAt at h
  dsimp only at h
  rw [Option.ite_none_right_eq_some] at h
  obtain ⟨hcond, hm⟩ := h
  obtain rfl := Option.some.inj hm
  simp only [Bool.and_eq_true, decide_eq_true_eq] at hcond
  obtain ⟨⟨hword, hlt⟩, hclass⟩ := hcond
  have hscan : Scans b i (b.skipBlanks (i + 8)) :=
    (scans_keyword hword rfl).trans (scans_skipBlanks b (i + 8))
  have hletter := isLetter_of_keywordAt hword rfl (by decide)
  have hsize := le_size_of_keywordAt hclass (by decide)
  -- the patch tells an `abstract` from a body by its first byte
  have hfirst : b.isAt i 'a' = true := by
    have hbyte := Bytes.getElem?_of_hasAt (k := 0) (hasAt_of_keywordAt hword) (by decide)
    exact Bytes.isAt_congr hbyte 'a'
  have hpatch : classMembersPatch b ⟨.classMembers, ⟨i, b.skipBlanks (i + 8)⟩⟩ =
      Patch.erase b i (b.skipBlanks (i + 8)) := if_pos hfirst
  refine ⟨rfl, rfl, ?_⟩
  rw [hpatch]
  exact Patch.erase_fits (by omega) (Nat.le_of_add_right_le hsize)
    (startsInk_of_satAt hletter (Byte.excludes_isSpace rfl)) hscan.settles

/-- A class body without a clause is recognised at its bracket, and its patch fits. -/
private theorem classBracePatch_fits {b : Bytes} {i : Nat} {m : Match}
    (h : classBraceAt b i = some m) :
    m.kind = .classMembers ∧ m.start = i ∧ (classMembersPatch b m).Fits b i := by
  unfold classBraceAt at h
  rw [Option.ite_none_right_eq_some] at h
  obtain ⟨hcond, hm⟩ := h
  obtain rfl := Option.some.inj hm
  have hbrace := (Bool.and_eq_true_iff.mp hcond).1
  have hclause : clauseSegments b i i = [] := if_neg (Nat.lt_irrefl i)
  refine ⟨rfl, rfl, classBody_fits ?_ ?_ hbrace⟩
  · rw [Bytes.isAt_eq_satAt, Bytes.satAt_of_isAt hbrace]
    exact Bool.false_ne_true
  · rw [hclause]
    exact .nil (Scans.refl b i).settles

/-- A class body with a clause is recognised at the blank before the keyword of the clause, and its
patch fits. The search for the bracket follows the path. -/
private theorem implementsPatch_fits {b : Bytes} {i : Nat} {m : Match}
    (h : implementsAt b i = some m) :
    m.kind = .classMembers ∧ m.start = i ∧ (classMembersPatch b m).Fits b i := by
  unfold implementsAt at h
  split at h
  · rename_i hcond
    rw [Bool.and_eq_true] at hcond
    obtain ⟨hblank, hword⟩ := hcond
    dsimp only at h
    rw [Option.ite_none_right_eq_some] at h
    obtain ⟨hbrace, hm⟩ := h
    obtain rfl := Option.some.inj hm
    have hopen := (Bool.and_eq_true_iff.mp hbrace).1
    have hletter := isLetter_of_keywordAt hword rfl (by decide)
    have hfind : Scans b (i + 1) (findStop b .type (fun k => b.satAt k (·.among ['{', ';']))
        (i + 1)) := scans_findStop (Nat.le_of_lt (Bytes.lt_size_of_satAt hletter))
    -- only where the clause ends matters from here on
    generalize findStop b .type (fun k => b.satAt k (·.among ['{', ';'])) (i + 1) = brace
      at hopen hfind ⊢
    -- the keyword stands between the blank and the bracket
    have hlt : i + 1 < brace := by
      refine Nat.lt_of_le_of_ne hfind.le ?_
      rintro rfl
      rw [Bytes.isAt_eq_false hletter rfl] at hopen
      simp at hopen
    have hink := startsInk_of_keywordAt_succ hblank hword rfl (by decide)
    refine ⟨rfl, rfl, classBody_fits ?_ (clauseSegments_covers hink ?_ hlt ?_) hopen⟩
    · rw [Bytes.isAt_eq_false hblank rfl]
      exact Bool.false_ne_true
    · exact (scans_succ hblank (Byte.excludes_opensInert rfl)).trans hfind
    · exact Nat.le_of_lt (Bytes.lt_size_of_isAt hopen)
  · simp at h

/-- **A class header or body**: what is recognised has a patch that fits. One case for each of the
three places at which a class is recognised. -/
theorem classMembersPatch_fits {b : Bytes} {i : Nat} {m : Match}
    (h : classMembersAt b i = some m) :
    m.kind = .classMembers ∧ m.start = i ∧ (classMembersPatch b m).Fits b i := by
  unfold classMembersAt at h
  rcases Option.or_eq_some_iff.mp h with h | ⟨-, h⟩
  · rcases Option.or_eq_some_iff.mp h with h | ⟨-, h⟩
    · exact abstractPatch_fits h
    · exact classBracePatch_fits h
  · exact implementsPatch_fits h

end TypeErasure
