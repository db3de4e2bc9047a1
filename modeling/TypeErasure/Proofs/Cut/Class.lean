import TypeErasure.Grammar
import TypeErasure.Proofs.Cut.Construct

/-!
# The cuts of classes

The walk through a class body cuts each field into its parts: modifiers, name, marker, type and
initializer. Each part starts at a seam because the last one ended at one.

* `memberAt_severed` — one member;
* `walkMembers_cuts` — the walk;
* `classMembersPatch_severs` — a class header or body, with its clause.

With the other constructs this makes `patchOf_severs`: **the patch of every construct cuts its text
at seams and comments out enclosed ranges only**.
-/

namespace TypeErasure

/-! ### Modifiers and names -/

/-- A modifier and the blanks behind it. Neither the word nor the blanks change a count, and there
is at least one blank, which makes the seam. -/
theorem modifierStop_spec {b : Bytes} {k next : Nat} (h : modifierStop b k = some next) :
    Nests b k 0 next 0 ∧ Seam b next := by
  unfold modifierStop at h
  dsimp only at h
  rw [Option.ite_none_right_eq_some] at h
  obtain ⟨hcond, heq⟩ := h
  obtain rfl := Option.some.inj heq
  simp only [Bool.and_eq_true, decide_eq_true_eq] at hcond
  refine ⟨(nests_nameStop b k 0).trans (nests_skipBlanks b _ 0), ?_⟩
  -- the byte before the rest of the member is a blank
  have hblank : b.satAt (b.skipBlanks (nameStop b k) - 1) Byte.isBlank = true :=
    Bytes.satAt_of_lt_skipWhile (i := nameStop b k) (by omega)
      (Nat.sub_lt (by omega) Nat.one_pos)
  have := Seam.succ_of_satAt hblank Byte.ascii_isBlank
  rwa [Nat.sub_add_cancel (by omega)] at this

/-- The modifiers from offset `k` on are cut at seams. -/
def Modifiers.Severed (b : Bytes) (k : Nat) : Modifiers → Prop
  | named segments start => Cuts b k segments start
  | foreign segments start => Cuts b k segments start
  | ghost => True

/-- A segment before the modifiers is put before their segments. Of a member that exists only for
types there are none. -/
theorem Modifiers.Severed.cons {b : Bytes} {k next : Nat} {m : Modifiers} {s : Segment}
    (h : m.Severed b next)
    (hs : ∀ {segments : List Segment} {j : Nat}, Cuts b next segments j →
      Cuts b k (s :: segments) j) : (m.cons s).Severed b k := by
  cases m with
  | named => exact hs h
  | foreign => exact hs h
  | ghost => trivial

/-- A member that exists only for types does not start with an angle bracket. -/
private theorem startsGhost_head {b : Bytes} {k : Nat} (h : b.satAt k startsGhost = true) :
    b.isAt k '>' = false :=
  Bytes.isAt_eq_false h rfl

/-- **The modifiers of a member are cut at seams.** The induction goes over the modifiers one by
one: each ends at a seam, where the next begins. -/
theorem modifiersAt_severed {b : Bytes} {k : Nat} (h : Seam b k) :
    (modifiersAt b k).Severed b k := by
  fun_induction modifiersAt b k with
  | case1 k => exact .nil h
  | case2 => trivial
  | case3 k next hnext _ _ ih =>
    -- a modifier that only types need
    obtain ⟨hnests, hseam⟩ := modifierStop_spec hnext
    have hhead := startsGhost_head (satAt_of_modifierStop hnext)
    exact (ih hseam).cons fun hrest => .erase h hnests.le (hnests.balances.enclosed hhead) hrest
  | case4 k next hnext _ _ _ ih =>
    -- a modifier that stays
    obtain ⟨hnests, hseam⟩ := modifierStop_spec hnext
    exact (ih hseam).cons fun hrest => .keep h hnests.le hrest
  | case5 k => exact .nil h

/-- The name of a member ends at a seam. One case for each of the four shapes of a name. -/
private theorem seam_memberNameStop {b : Bytes} {k name : Nat} (h : memberNameStop b k = some name)
    (hk : Seam b k) : Seam b name := by
  unfold memberNameStop at h
  split at h
  · -- a private name
    rename_i hhash
    dsimp only at h
    rw [Option.ite_none_right_eq_some] at h
    obtain rfl := Option.some.inj h.2
    exact (Seam.succ_of_isAt hhash rfl).nameStop
  · split at h
    · -- a quoted name
      obtain ⟨l, hl, rfl⟩ := Option.map_eq_some_iff.mp h
      exact .of_literalAt hl
    · split at h
      · -- a computed name
        unfold computedNameStop at h
        dsimp only at h
        rw [Option.ite_none_right_eq_some] at h
        obtain ⟨hclose, heq⟩ := h
        obtain rfl := Option.some.inj heq
        exact .succ_of_isAt hclose rfl
      · -- a plain name
        dsimp only at h
        rw [Option.ite_none_right_eq_some] at h
        obtain rfl := Option.some.inj h.2
        exact hk.nameStop

/-! ### Fields -/

/-- The marker behind a name changes no count, and neither do the whitespace and comments behind
it. -/
private theorem nests_skipMarker (b : Bytes) (i : Nat) : Nests b i 0 (skipMarker b i) 0 := by
  unfold skipMarker
  split
  · rename_i hmark
    exact (nests_succ (satAt_of_isMarker hmark) (Byte.excludes_isMark rfl) 0).trans
      (nests_skipTrivia b _ 0)
  · exact .refl i 0

/-- An annotation from offset `start` on, which is its marker or its colon. What stands before it is
kept. The path leads over the colon, and then it is that of the search for the end of the type. -/
private theorem fieldType_colon_cuts {b : Bytes} {name start colon : Nat} (hname : Seam b name)
    (hle : name ≤ start) (hstart : Seam b start) (hhead : b.isAt start '>' = false)
    (hnests : Nests b start 0 colon 0) (hcolon : b.isAt colon ':' = true) :
    Cuts b name
      [.keep b name start, .erase b start (b.trimEnd start (fieldTypeStop b (colon + 1)))]
      (b.trimEnd start (fieldTypeStop b (colon + 1))) := by
  have hsize := Bytes.lt_size_of_isAt hcolon
  have hbalances : Balances b start (fieldTypeStop b (colon + 1)) :=
    (hnests.trans (nests_isAt hcolon rfl 0)).trans_balances (balances_findStop _ hsize)
  have hseam : Seam b (fieldTypeStop b (colon + 1)) :=
    Seam.findStop (.or (.or (.satAt (Byte.ascii_is rfl)) (.isAssign b)) (.endsLine b _)) _ _
  have hstop : start ≤ fieldTypeStop b (colon + 1) :=
    Nat.le_trans hnests.le (Nat.le_of_succ_le (le_findStop hsize))
  exact .keep hname hle (.erase hstart (Bytes.le_trimEnd hstop)
    (hbalances.enclosed_trimEnd hhead _) (.nil (hseam.trimEnd _)))

/-- The type of a field is cut at seams: an annotation with or without a marker, a marker alone, or
nothing at all. -/
private theorem fieldType_cuts {b : Bytes} {name after : Nat} (hname : Seam b name)
    (hle : name ≤ after) (hafter : Seam b after) :
    Cuts b name (fieldType b name after (skipMarker b after)).1
      (fieldType b name after (skipMarker b after)).2 := by
  unfold fieldType
  split
  · rename_i hcolon
    dsimp only
    -- the comment starts at the marker, or else at the colon
    by_cases hmark : isMarker b after = true
    · rw [if_pos hmark]
      exact fieldType_colon_cuts hname hle hafter
        (Bytes.isAt_eq_false (satAt_of_isMarker hmark) rfl) (nests_skipMarker b after) hcolon
    · rw [if_neg hmark]
      have hhead : b.isAt (skipMarker b after) '>' = false :=
        (Bytes.isAt_eq_satAt b _ '>').trans (Bytes.satAt_of_isAt hcolon _)
      exact fieldType_colon_cuts hname (Nat.le_trans hle (le_skipMarker b after))
        (.of_isAt hcolon rfl) hhead (.refl _ 0) hcolon
  · split
    · -- a marker without a type
      rename_i hmark
      have hsat := satAt_of_isMarker hmark
      have hnests := nests_succ (b := b) hsat (Byte.excludes_isMark rfl) 0
      exact .keep hname hle (.erase hafter (Nat.le_succ _)
        (hnests.balances.enclosed (Bytes.isAt_eq_false hsat rfl))
        (.nil (.succ_of_satAt hsat (Byte.ascii_among rfl))))
    · exact .nil hname

/-- The initializer of a field is cut at seams: the sign is kept and the value is erased by an inner
run. -/
private theorem fieldInitializer_cuts {b : Bytes} {stop : Nat} (hstop : Seam b stop) :
    Cuts b stop (fieldInitializer b stop).1 (fieldInitializer b stop).2 := by
  unfold fieldInitializer
  dsimp only
  split
  · rename_i hassign
    have hsign := (Bool.and_eq_true_iff.mp hassign).1
    have hvalue : Seam b (skipTrivia b stop + 1) := .succ_of_isAt hsign rfl
    have hend : Seam b (initializerStop b (skipTrivia b stop + 1)) :=
      (Seam.findStop (.or (.satAt (Byte.ascii_is rfl)) (.endsLine b _)) _ _).trimEnd _
    exact .keep hstop (Nat.le_succ_of_le (le_skipTrivia b stop))
      (.nested hvalue (le_initializerStop hvalue.le_size) (.nil hend))
  · exact .nil hstop

/-! ### Members -/

/-- What the walk takes of a member is cut at seams. -/
def Member.Severed (b : Bytes) (i : Nat) : Member → Prop
  | field segments stop => Cuts b i segments stop
  | other segments stop => Cuts b i segments stop

/-- A member with a name is cut at seams. The segments of its parts follow on each other, because
each part ends at the seam where the next one begins. -/
private theorem namedMember_severed {b : Bytes} {start k : Nat} {modifiers : List Segment}
    (h : Cuts b start modifiers k) : (namedMember b modifiers k).Severed b start := by
  unfold namedMember
  split
  · exact h
  · rename_i name hname
    dsimp only
    split
    · exact h
    · have hseam := seam_memberNameStop hname h.seam_right
      have htype := fieldType_cuts hseam (le_skipTrivia b name) hseam.skipTrivia
      have hinit := fieldInitializer_cuts htype.seam_right
      -- the modifiers and the name, then the type, then the initializer
      exact ((h.append (.keep h.seam_right (Nat.le_of_lt (lt_of_memberNameStop hname))
        (.nil hseam))).append htype).append hinit

/-- A member that exists only for types is commented out through the end of its statement. -/
private theorem ghostMember_severed {b : Bytes} {start : Nat} (h : Seam b start)
    (hghost : b.satAt start startsGhost = true) : (ghostMember b start).Severed b start := by
  have hbalances : Balances b start
      (findStop b .type (fun i => b.isAt i ';' || endsLine b start i) start) :=
    balances_findStop _ h.le_size
  have hseam : Seam b (findStop b .type (fun i => b.isAt i ';' || endsLine b start i) start) :=
    Seam.findStop (.or (.satAt (Byte.ascii_is rfl)) (.endsLine b _)) _ _
  exact .erase h (Nat.le_of_lt (lt_ghostStop hghost))
    (hbalances.enclosed_statementStop (startsGhost_head hghost) start)
    (.nil (hseam.statementStop start))

/-- **One member** is cut at seams. One case for each outcome of the modifiers; only a member with a
name of its own is cut further. -/
theorem memberAt_severed {b : Bytes} {start : Nat} (h : Seam b start) :
    (memberAt b start).Severed b start := by
  have hmods := modifiersAt_severed h
  unfold memberAt
  split
  · -- a member that exists only for types
    rename_i hm
    exact ghostMember_severed h (startsGhost_of_modifiersAt (by simp [hm]))
  · rename_i modifiers k hm
    rw [hm] at hmods
    exact hmods
  · rename_i modifiers k hm
    rw [hm] at hmods
    split
    · -- an index signature
      rename_i hindex
      exact ghostMember_severed h (startsGhost_of_isIndexSignature hm hindex)
    · exact namedMember_severed hmods

/-! ### The walk -/

/-- **The walk through a class body** cuts it at seams. The induction follows the walk. Every member
starts behind whitespace and comments, which are kept, and ends at a seam, from where the walk goes
on. -/
theorem walkMembers_cuts {b : Bytes} {i : Nat} (h : Seam b i) :
    Cuts b i (walkMembers b i).segments (walkMembers b i).stop := by
  fun_induction walkMembers b i with
  | case1 i start gap _ hsemi ih =>
    -- an empty member
    have hstart : Seam b start := h.skipTrivia
    exact .keep h (le_skipTrivia b i)
      (.keep hstart (Nat.le_succ _) (ih (.succ_of_isAt hsemi rfl)))
  | case2 i start gap hcond _ segments stop hmember =>
    -- a member that is no field ends the walk
    have hsevered : (memberAt b start).Severed b start := memberAt_severed h.skipTrivia
    rw [hmember] at hsevered
    exact .keep h (le_skipTrivia b i) hsevered
  | case3 i start gap hcond _ segments stop hmember ih =>
    -- a field, and the members behind it
    have hsevered : (memberAt b start).Severed b start := memberAt_severed h.skipTrivia
    rw [hmember] at hsevered
    exact .keep h (le_skipTrivia b i) (Cuts.append hsevered (ih (Cuts.seam_right hsevered)))
  | case4 i start gap =>
    -- the bracket that closes the body, or the end of the text
    exact .keep h (le_skipTrivia b i) (.nil h.skipTrivia)

/-! ### Headers and bodies -/

/-- The keyword `abstract` of a class is commented out with the blanks behind it, up to the keyword
`class`, which starts with an ASCII character. -/
private theorem abstractPatch_severs {b : Bytes} {i : Nat} {m : Match}
    (h : abstractAt b i = some m) : (classMembersPatch b m).Severs b m := by
  unfold abstractAt at h
  dsimp only at h
  rw [Option.ite_none_right_eq_some] at h
  obtain ⟨hcond, hm⟩ := h
  obtain rfl := Option.some.inj hm
  simp only [Bool.and_eq_true] at hcond
  obtain ⟨⟨hword, -⟩, hclass⟩ := hcond
  have hletter := isLetter_of_keywordAt hword rfl (by decide)
  have hnests : Nests b i 0 (b.skipBlanks (i + 8)) 0 :=
    (nests_keyword hword rfl 0).trans (nests_skipBlanks b _ 0)
  have hspan : Seam b (b.skipBlanks (i + 8)) :=
    .of_satAt (isLetter_of_keywordAt hclass rfl (by decide)) Byte.ascii_isLetter
  -- the first letter tells this header from a body, which starts with a blank or a bracket
  have hfirst : b.isAt i 'a' = true :=
    Bytes.isAt_congr (Bytes.getElem?_of_hasAt (k := 0) (hasAt_of_keywordAt hword) (by decide)) 'a'
  have hpatch : classMembersPatch b ⟨.classMembers, ⟨i, b.skipBlanks (i + 8)⟩⟩ =
      Patch.erase b i (b.skipBlanks (i + 8)) := if_pos hfirst
  rw [hpatch]
  exact Patch.erase_severs (m := ⟨.classMembers, ⟨i, b.skipBlanks (i + 8)⟩⟩)
    (.of_satAt hletter Byte.ascii_isLetter) hspan hnests.le hspan
    (hnests.balances.enclosed (Bytes.isAt_eq_false hletter rfl))

/-- A class body with the clause before its bracket. The clause, the bracket and the members follow
on each other. The first byte tells the patch of a body from that of a header. -/
private theorem classBody_severs {b : Bytes} {start brace : Nat}
    (hstart : ¬ b.isAt start 'a' = true)
    (hclause : Cuts b start (clauseSegments b start brace) brace)
    (hbrace : b.isAt brace '{' = true) :
    (classMembersPatch b ⟨.classMembers, ⟨start, brace + 1⟩⟩).Severs b
      ⟨.classMembers, ⟨start, brace + 1⟩⟩ := by
  have hbody : Seam b (brace + 1) := .succ_of_isAt hbrace rfl
  unfold classMembersPatch
  simp only [Match.start, Match.stop, Nat.add_sub_cancel, if_neg hstart]
  exact ⟨hbody, hclause.append (.keep (.of_isAt hbrace rfl) (Nat.le_succ _)
    (walkMembers_cuts hbody))⟩

/-- A class without a clause starts with its bracket, so that there is nothing before the body. -/
private theorem classBracePatch_severs {b : Bytes} {i : Nat} {m : Match}
    (h : classBraceAt b i = some m) : (classMembersPatch b m).Severs b m := by
  unfold classBraceAt at h
  rw [Option.ite_none_right_eq_some] at h
  obtain ⟨hcond, hm⟩ := h
  obtain rfl := Option.some.inj hm
  have hbrace := (Bool.and_eq_true_iff.mp hcond).1
  have hclause : clauseSegments b i i = [] := if_neg (Nat.lt_irrefl i)
  refine classBody_severs ?_ ?_ hbrace
  · rw [Bytes.isAt_eq_satAt, Bytes.satAt_of_isAt hbrace]
    exact Bool.false_ne_true
  · rw [hclause]
    exact .nil (.of_isAt hbrace rfl)

/-- A class with a clause starts with the blank before it. The clause is commented out without the
whitespace at its end, which is kept. -/
private theorem implementsPatch_severs {b : Bytes} {i : Nat} {m : Match}
    (h : implementsAt b i = some m) : (classMembersPatch b m).Severs b m := by
  unfold implementsAt at h
  split at h
  · rename_i hcond
    rw [Bool.and_eq_true] at hcond
    obtain ⟨hblank, hword⟩ := hcond
    dsimp only at h
    rw [Option.ite_none_right_eq_some] at h
    obtain ⟨hbrace, hm⟩ := h
    obtain rfl := Option.some.inj hm
    have hopen := (Bool.and_eq_true_iff.mp hbrace).1
    have hsize := Bytes.lt_size_of_satAt (isLetter_of_keywordAt hword rfl (by decide))
    have hfind := balances_findStop (b := b) (fun k => b.satAt k (·.among ['{', ';']))
      (Nat.le_of_lt hsize)
    generalize findStop b .type (fun k => b.satAt k (·.among ['{', ';'])) (i + 1) = brace
      at hopen hfind ⊢
    -- the blank and the clause lead to the bracket without leaving one open
    have hnests : Nests b i 0 brace 0 :=
      (nests_succ hblank (Byte.excludes_isMark rfl) 0).trans
        (hfind.nests (Bytes.lt_size_of_isAt hopen))
    have hseam : Seam b brace := .of_isAt hopen rfl
    have hlt : i < brace := Nat.lt_of_succ_le (hfind.nests (Bytes.lt_size_of_isAt hopen)).le
    refine classBody_severs ?_ ?_ hopen
    · rw [Bytes.isAt_eq_false hblank rfl]
      exact Bool.false_ne_true
    · unfold clauseSegments
      rw [if_pos hlt]
      exact .erase (.of_satAt hblank Byte.ascii_isBlank) (Bytes.le_trimEnd hnests.le)
        (hnests.balances.enclosed_trimEnd (Bytes.isAt_eq_false hblank rfl) i)
        (.keep (hseam.trimEnd i) (b.trimEnd_le i brace) (.nil hseam))
  · simp at h

/-- **A class header or body is cut at seams.** One case for each of the three places where it is
recognised. -/
theorem classMembersPatch_severs {b : Bytes} {i : Nat} {m : Match}
    (h : classMembersAt b i = some m) : (classMembersPatch b m).Severs b m := by
  unfold classMembersAt at h
  rcases Option.or_eq_some_iff.mp h with h | ⟨-, h⟩
  · rcases Option.or_eq_some_iff.mp h with h | ⟨-, h⟩
    · exact abstractPatch_severs h
    · exact classBracePatch_severs h
  · exact implementsPatch_severs h

/-! ### All constructs -/

/-- A literal starts with an ASCII character. It is a slash for a regular expression and for a
comment, and a quote for the others. -/
theorem seam_of_literalAt {b : Bytes} {i : Nat} {l : Literal} (h : literalAt b i = some l) :
    Seam b i := by
  by_cases hkind : l.kind = .regex
  · exact .of_isAt ((literalAt_spec h).2 hkind) rfl
  · exact .of_satAt (inertStop_eq_some_iff.mp (inertStop_of_literalAt h hkind)).opensInert
      (Byte.ascii_among rfl)

/-- A literal is copied whole. Its one segment goes from its first byte to its end, and both are
seams. -/
private theorem literalPatch_severs {b : Bytes} {i : Nat} {l : Literal}
    (h : literalAt b i = some l) :
    (literalPatch b ⟨.literal l.kind, l.span⟩).Severs b ⟨.literal l.kind, l.span⟩ := by
  have hstart : l.span.start = i := start_of_literalAt h
  have hseam : Seam b l.span.start := hstart.symm ▸ seam_of_literalAt h
  have hle : l.span.start ≤ l.span.stop := hstart.symm ▸ Nat.le_of_lt (lt_stop_of_literalAt h)
  exact ⟨.of_literalAt h, .keep hseam hle (.nil (.of_literalAt h))⟩

/-- **The patch of every construct cuts its text at seams**, and what it comments out is enclosed.
One case for each construct, and each has a lemma of its own above. -/
theorem patchOf_severs {b : Bytes} {cursor i : Nat} {k : Construct} {m : Match}
    (h : k.matchAt b cursor i = some m) : (patchOf b m).Severs b m := by
  have hkind := kind_of_matchAt h
  unfold patchOf
  cases k with
  | literal kind =>
    obtain ⟨l, hl, rfl, rfl⟩ := matchAt_literal h
    exact literalPatch_severs hl
  | ambient => rw [hkind]; exact ambientPatch_severs h
  | typeAlias => rw [hkind]; exact typeAliasPatch_severs h
  | interface => rw [hkind]; exact interfacePatch_severs h
  | classMembers => rw [hkind]; exact classMembersPatch_severs h
  | typeArguments => rw [hkind]; exact typeArgumentsPatch_severs h
  | returnType => rw [hkind]; exact returnTypePatch_severs h
  | annotated => rw [hkind]; exact annotationPatch_severs h
  | cast => rw [hkind]; exact castPatch_severs h

theorem Rules.severs {r : Rules} {b : Bytes} {cursor : Nat} {m : Match}
    (h : r.nextMatch b cursor = some m) : (patchOf b m).Severs b m := by
  obtain ⟨k, i, -, -, -, hat⟩ := (r.nextMatch_best b cursor).found m h
  exact patchOf_severs hat

end TypeErasure
