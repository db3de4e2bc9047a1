import TypeErasure.Construct.Statement
import TypeErasure.Construct.Annotated
import TypeErasure.Construct.Cast
import TypeErasure.Construct.TypeArguments
import TypeErasure.Construct.ReturnType
import TypeErasure.Proofs.Layout

/-!
# The layouts of constructs

Each kind of construct has its own way to find its end. For each of them, what is recognised at an
offset has a patch that fits:

* `declarationPatch_fits`, `typeAliasPatch_fits` — statements that hold nothing but types;
* `castPatch_fits`, `typeArgumentsPatch_fits`, `returnTypePatch_fits` — parts of expressions;
* `annotationPatch_fits` — annotations, through the list that they stand in.

All of them hold of every text: nothing is assumed about brackets, literals or what follows.
-/

namespace TypeErasure

/-! ### Keywords -/

theorem hasAt_of_keywordAt {b : Bytes} {i : Nat} {w : String} (h : keywordAt b i w = true) :
    b.hasAt i w = true := by
  rw [keywordAt, Bool.and_eq_true, Bool.and_eq_true] at h
  exact h.1.1

/-- A keyword is scanned letter by letter. -/
theorem scans_keyword {b : Bytes} {i : Nat} {w : String} (h : keywordAt b i w = true)
    (hw : (Bytes.ofString w).toList.all Byte.isLetter = true) :
    Scans b i (i + (Bytes.ofString w).size) :=
  scans_of_hasAt (hasAt_of_keywordAt h) hw (Byte.excludes_opensInert rfl)

theorem isLetter_of_keywordAt {b : Bytes} {i : Nat} {w : String} (h : keywordAt b i w = true)
    (hw : (Bytes.ofString w).toList.all Byte.isLetter = true) (hpos : 0 < (Bytes.ofString w).size) :
    b.satAt i Byte.isLetter = true :=
  Bytes.satAt_of_hasAt (k := 0) (hasAt_of_keywordAt h) hpos hw

theorem le_size_of_keywordAt {b : Bytes} {i : Nat} {w : String} (h : keywordAt b i w = true)
    (hpos : 0 < (Bytes.ofString w).size) : i + (Bytes.ofString w).size ≤ b.size :=
  Bytes.le_size_of_hasAt (hasAt_of_keywordAt h) hpos

/-- A blank before a keyword is no trailing one. This is the form of ink that a cast or a clause
starts with. -/
theorem startsInk_of_keywordAt_succ {b : Bytes} {i : Nat} {w : String}
    (hblank : b.satAt i Byte.isBlank = true) (h : keywordAt b (i + 1) w = true)
    (hw : (Bytes.ofString w).toList.all Byte.isLetter = true)
    (hpos : 0 < (Bytes.ofString w).size) : StartsInk b i := by
  have hletter := isLetter_of_keywordAt h hw hpos
  right
  refine ⟨hblank, ?_⟩
  rw [Bytes.satAt_not (Bytes.lt_size_of_satAt hletter),
    Bytes.satAt_eq_false hletter (Byte.excludes_isSpace rfl)]
  rfl

/-! ### Statements that hold nothing but types -/

/-- The keyword of a statement stands at its start, or behind `export`. This inverts the definition
once for all statements. -/
theorem statementKeyword_cases {b : Bytes} {i after : Nat} {w : String}
    (h : statementKeyword b i w = some after) :
    ∃ start, keywordAt b start w = true ∧ after = start + (Bytes.ofString w).size ∧
      (start = i ∨ keywordAt b i "export" = true ∧ start = b.skipBlanks (i + 6)) := by
  unfold statementKeyword at h
  dsimp only at h
  rw [Option.ite_none_right_eq_some] at h
  obtain ⟨hcond, heq⟩ := h
  obtain rfl := Option.some.inj heq
  have hword := (Bool.and_eq_true_iff.mp hcond).2
  refine ⟨_, hword, rfl, ?_⟩
  -- the place of the keyword is that of the statement, or behind `export` and the blanks after it
  by_cases hexport : keywordAt b i "export" = true
  · exact .inr ⟨hexport, if_pos hexport⟩
  · exact .inl (if_neg hexport)

/-- What precedes the rest of a statement: its keyword, with or without `export`. The four facts are
what a layout asks of its start: it is on the path, it is ink, and at least two bytes of the text
follow. -/
theorem statementKeyword_spec {b : Bytes} {i after : Nat} {w : String}
    (h : statementKeyword b i w = some after)
    (hw : (Bytes.ofString w).toList.all Byte.isLetter = true)
    (hsize : 1 < (Bytes.ofString w).size) :
    Scans b i after ∧ StartsInk b i ∧ i + 1 < after ∧ after ≤ b.size := by
  obtain ⟨start, hword, rfl, hstart⟩ := statementKeyword_cases h
  have hend := le_size_of_keywordAt hword (by omega)
  rcases hstart with rfl | ⟨hexport, rfl⟩
  · -- without `export`, the keyword is the first word of the statement
    have hink := isLetter_of_keywordAt hword hw (by omega)
    exact ⟨scans_keyword hword hw, startsInk_of_satAt hink (Byte.excludes_isSpace rfl),
      by omega, hend⟩
  · -- with `export`, the blanks behind it lead to the keyword
    have hscan : Scans b i (b.skipBlanks (i + 6)) :=
      (scans_keyword hexport rfl).trans (scans_skipBlanks b (i + 6))
    have hink := isLetter_of_keywordAt hexport rfl (by decide)
    have hle := hscan.le
    exact ⟨hscan.trans (scans_keyword hword hw),
      startsInk_of_satAt hink (Byte.excludes_isSpace rfl), by omega, hend⟩

/-- The same for a statement that asks for a name behind its keyword, which only narrows what is
recognised. -/
private theorem namedStatement_spec {b : Bytes} {i after : Nat} {w : String}
    (h : namedStatement b i w = some after)
    (hw : (Bytes.ofString w).toList.all Byte.isLetter = true)
    (hsize : 1 < (Bytes.ofString w).size) :
    Scans b i after ∧ StartsInk b i ∧ i + 1 < after ∧ after ≤ b.size :=
  statementKeyword_spec (Option.filter_eq_some_iff.mp h).1 hw hsize

/-- A declaration is commented out through its body, or through the end of its statement. There are
three ends: behind the bracket that closes the body, at the end of the text if none does, and behind
the statement if there is no body. All three are on the path. -/
theorem declarationPatch_fits {b : Bytes} {m : Match} {stop : Nat} (hscan : Scans b m.start stop)
    (hink : StartsInk b m.start) (hlt : m.start + 1 < stop) (hsize : stop ≤ b.size) :
    (declarationPatch b m stop).Fits b m.start := by
  unfold declarationPatch
  split
  · rename_i hopen
    -- with a body, the search goes on from its bracket to the one that closes it
    have hstop := Bytes.lt_size_of_isAt hopen
    have hbody : Scans b m.start (stop + 1) :=
      hscan.trans (scans_isAt hopen rfl)
    have hle : stop + 1 ≤ findClose b .type (stop + 1) := le_findStop hstop
    have hfind : Scans b (stop + 1) (findClose b .type (stop + 1)) := scans_findStop hstop
    dsimp only
    split
    · rename_i hclose
      have hend := hbody.trans (scans_succ_findClose hstop hclose)
      exact Patch.erase_fits (by omega) hclose hink hend.settles
    · -- a body that never closes ends with the text
      rename_i hclose
      have heq : findClose b .type (stop + 1) = b.size :=
        Nat.le_antisymm (hfind.le_size hstop) (Nat.le_of_not_lt hclose)
      have hend := hbody.trans hfind
      rw [heq] at hend
      have hfits := Patch.erase_fits (by omega) (Nat.le_refl b.size) hink hend.settles
      exact ⟨hfits.layout, hfits.lt_stop, hfits.settles⟩
  · -- without a body, the statement ends where its last type does
    exact Patch.erase_fits (lt_statementStop hink hlt) (statementStop_le_size hsize) hink
      (settles_statementStop hscan)

/-- The patch of a declaration fits, whatever condition ends the search for its body. The search
follows the path from the keyword on, and its end lies within the text. -/
private theorem namedStatement_fits {b : Bytes} {i after : Nat} {w : String}
    (h : namedStatement b i w = some after)
    (hw : (Bytes.ofString w).toList.all Byte.isLetter = true) (hsize : 1 < (Bytes.ofString w).size)
    (kind : Construct) (stop : Nat → Bool) :
    (declarationPatch b ⟨kind, ⟨i, after⟩⟩ (findStop b .type stop after)).Fits b i := by
  obtain ⟨hscan, hink, hlt, hle⟩ := namedStatement_spec h hw hsize
  exact declarationPatch_fits (m := ⟨kind, ⟨i, after⟩⟩) (hscan.trans (scans_findStop hle)) hink
    (Nat.lt_of_lt_of_le hlt (le_findStop hle)) (findStop_le _ _ _ _)

/-- What is recognised as an interface starts where it is looked for, and its patch fits. -/
theorem interfacePatch_fits {b : Bytes} {i : Nat} {m : Match} (h : interfaceAt b i = some m) :
    m.kind = .interface ∧ m.start = i ∧ (interfacePatch b m).Fits b i := by
  obtain ⟨after, hafter, rfl⟩ := Option.map_eq_some_iff.mp h
  exact ⟨rfl, rfl, namedStatement_fits hafter rfl (by decide) _ _⟩

/-- What is recognised as an ambient declaration starts where it is looked for, and its patch
fits. -/
theorem ambientPatch_fits {b : Bytes} {i : Nat} {m : Match} (h : ambientAt b i = some m) :
    m.kind = .ambient ∧ m.start = i ∧ (ambientPatch b m).Fits b i := by
  obtain ⟨after, hafter, rfl⟩ := Option.map_eq_some_iff.mp h
  exact ⟨rfl, rfl, namedStatement_fits hafter rfl (by decide) _ _⟩

/-- A list of type parameters is on the path, from its `<` to behind its `>` and the whitespace
there, or is missing. -/
private theorem scans_skipTypeParameters {b : Bytes} {i k : Nat}
    (h : skipTypeParameters b i = some k) : Scans b i k := by
  unfold skipTypeParameters at h
  split at h
  · rename_i hopen
    have hi := Bytes.lt_size_of_isAt hopen
    dsimp only at h
    rw [Option.ite_none_right_eq_some] at h
    obtain ⟨hclose, heq⟩ := h
    obtain rfl := Option.some.inj heq
    have hbody : Scans b i (i + 1) := scans_isAt hopen rfl
    exact (hbody.trans (scans_succ_findClose hi (Bytes.lt_size_of_isAt hclose))).trans
      (scans_skipSpace b _)
  · obtain rfl := Option.some.inj h
    exact Scans.refl b i

/-- What is recognised as a type alias starts where it is looked for, and its patch fits. The path
is put together from the keyword, the name, the type parameters, the sign and the type. -/
theorem typeAliasPatch_fits {b : Bytes} {i : Nat} {m : Match} (h : typeAliasAt b i = some m) :
    m.kind = .typeAlias ∧ m.start = i ∧ (typeAliasPatch b m).Fits b i := by
  unfold typeAliasAt at h
  obtain ⟨after, hafter, h⟩ := Option.bind_eq_some_iff.mp h
  dsimp only at h
  split at h
  · obtain ⟨eq, heq, h⟩ := Option.bind_eq_some_iff.mp h
    rw [Option.ite_none_right_eq_some] at h
    obtain ⟨hassign, hm⟩ := h
    obtain rfl := Option.some.inj hm
    obtain ⟨hscan, hink, hlt, -⟩ :=
      statementKeyword_spec hafter rfl (by decide)
    -- the keyword, the name and the type parameters lead to the sign
    have hname : Scans b i eq :=
      (((hscan.trans (scans_skipBlanks b after)).trans (scans_nameStop b _)).trans
        (scans_skipSpace b _)).trans (scans_skipTypeParameters heq)
    have hsign := (Bool.and_eq_true_iff.mp hassign).1
    have hsize := Bytes.lt_size_of_isAt hsign
    have htype : Scans b i (eq + 1) :=
      hname.trans (scans_isAt hsign rfl)
    -- each part in front of the sign moves on, so the keyword is not behind it
    have hle : after ≤ eq := by
      have := (scans_skipBlanks b after).le
      have := (scans_nameStop b (b.skipBlanks after)).le
      have := (scans_skipSpace b (nameStop b (b.skipBlanks after))).le
      have := (scans_skipTypeParameters heq).le
      omega
    refine ⟨rfl, rfl, Patch.erase_fits (lt_statementStop hink ?_)
      (statementStop_le_size (findStop_le _ _ _ _)) hink
      (settles_statementStop (htype.trans (scans_findStop hsize)))⟩
    exact Nat.lt_of_lt_of_le (by omega : i + 1 < eq + 1) (le_findStop hsize)
  · simp at h

/-! ### Casts -/

/-- What is recognised as a cast starts where it is looked for, and its patch fits. A cast starts
with the blank before its keyword. -/
theorem castPatch_fits {b : Bytes} {i : Nat} {m : Match} (h : castAt b i = some m) :
    m.kind = .cast ∧ m.start = i ∧ (castPatch b m).Fits b i := by
  unfold castAt at h
  rw [Option.ite_none_right_eq_some] at h
  obtain ⟨hcond, hm⟩ := h
  obtain rfl := Option.some.inj hm
  simp only [Bool.and_eq_true] at hcond
  obtain ⟨⟨⟨⟨⟨hblank, hword⟩, -⟩, -⟩, -⟩, -⟩ := hcond
  have hsize : i + 3 ≤ b.size := le_size_of_keywordAt hword (by decide)
  -- the blank in front belongs to the cast, but it is not trimmed since the keyword follows it
  have hink := startsInk_of_keywordAt_succ hblank hword rfl (by decide)
  have hscan : Scans b i (i + 3) :=
    (scans_succ hblank (Byte.excludes_opensInert rfl)).trans
      (scans_keyword hword rfl)
  refine ⟨rfl, rfl, Patch.erase_fits (lt_trimEnd_of_startsInk hink ?_) ?_ hink
    (settles_trimEnd (hscan.trans (scans_findStop hsize)) (Nat.le_refl i) ?_)⟩
  · exact Nat.lt_of_lt_of_le (by omega : i + 1 < i + 3) (le_findStop hsize)
  · exact Nat.le_trans (b.trimEnd_le _ _) (findStop_le _ _ _ _)
  · exact Nat.le_trans (by omega : i ≤ i + 3) (le_findStop hsize)

/-! ### Lists of type arguments -/

/-- A byte that fits into a list of types opens no literal: the signs of the list are tried, and the
rest are names, whitespace and signs that are tried as well. -/
theorem not_opensInert_of_fitsType {b : Bytes} {o : OpenBrackets} {i : Nat} {c : Byte}
    (h : fitsType b o i c = true) : c.opensInert = false := by
  unfold fitsType at h
  split at h
  · rename_i hc
    exact Byte.apply_of_is hc Byte.opensInert
  · split at h
    · rename_i hc
      exact Byte.excludes_opensInert (p := (·.among ['&', '|'])) rfl c hc
    · split at h
      · rename_i hc
        exact Byte.apply_of_is hc Byte.opensInert
      · exact Byte.excludes_opensInert
          (p := fun c => c.isNamePart || c.isSpace || c.among [',', '.', '?', ':', '-']) rfl c h

/-- The search for the end of a list follows the path and ends at a `>`. The induction follows the
search; each byte that it passes opens no literal, except that strings are passed over whole. -/
theorem scans_typeListClose {b : Bytes} {o : OpenBrackets} {i close : Nat}
    (h : typeListClose b o i = some close) : Scans b i close ∧ b.isAt close '>' = true := by
  have hbyte {i : Nat} {c : Byte} (hi : b[i]? = some c) (hc : c.opensInert = false)
      (hrest : Scans b (i + 1) close ∧ b.isAt close '>' = true) :
      Scans b i close ∧ b.isAt close '>' = true := by
    have hnone : inertStop b i = none :=
      inertStop_eq_none (by rw [Bytes.satAt_of_getElem? hi, hc])
    exact ⟨(Scans.byte (Array.getElem?_eq_some_iff.mp hi).1 hnone).trans hrest.1, hrest.2⟩
  -- one case for each recursive call and for the bracket that ends the list; the other cases fail
  fun_induction typeListClose b o i with
  | case2 _ _ _ hi hc ih =>
    exact hbyte hi (Byte.apply_of_is hc Byte.opensInert) (ih h)
  | case3 _ _ _ hi _ hc _ ih =>
    exact hbyte hi (Byte.apply_of_is hc Byte.opensInert) (ih h)
  | case4 _ i c hi _ hc =>
    -- the bracket that closes the list
    obtain rfl := Option.some.inj h
    exact ⟨Scans.refl b i, (Bytes.satAt_of_getElem? hi (·.is '>')).trans hc⟩
  | case6 _ _ _ hi _ hc _ _ ih =>
    exact hbyte hi (Byte.apply_of_is hc Byte.opensInert) (ih h)
  | case8 _ _ _ hi _ _ hc l hl ih =>
    -- a string type is one step
    have hstop := inertStop_of_isQuote hl ((Bytes.satAt_of_getElem? hi _).trans hc)
    exact ⟨(Scans.inert hstop).trans (ih h).1, (ih h).2⟩
  | case10 _ _ _ hi _ _ _ hc _ _ ih =>
    exact hbyte hi (Byte.excludes_opensInert (p := fun c => c.isOpener || c.isCloser) rfl _ hc)
      (ih h)
  | case11 _ _ _ hi _ _ _ _ hc ih => exact hbyte hi (not_opensInert_of_fitsType hc) (ih h)
  | case1 => simp at h
  | case5 => simp at h
  | case7 => simp at h
  | case9 => simp at h
  | case12 => simp at h

/-- What is recognised as a list of type arguments starts where it is looked for, and its patch
fits. It ends behind its `>`, without trimming. -/
theorem typeArgumentsPatch_fits {b : Bytes} {i : Nat} {m : Match}
    (h : typeArgumentsAt b i = some m) :
    m.kind = .typeArguments ∧ m.start = i ∧ (typeArgumentsPatch b m).Fits b i := by
  unfold typeArgumentsAt at h
  split at h
  · rename_i hcond
    simp only [Bool.and_eq_true] at hcond
    split at h
    · simp at h
    · rename_i close hclose
      rw [Option.ite_none_right_eq_some] at h
      obtain ⟨-, hm⟩ := h
      obtain rfl := Option.some.inj hm
      -- the path leads to the `>`, and over it
      obtain ⟨hscan, hangle⟩ := scans_typeListClose hclose
      have hle := hscan.le
      have hend : Scans b i (close + 1) :=
        hscan.trans (scans_isAt hangle rfl)
      have hink : StartsInk b i :=
        startsInk_of_isAt hcond.1.1.2 rfl
      exact ⟨rfl, rfl, Patch.erase_fits (Nat.lt_succ_of_le hle) (Bytes.lt_size_of_isAt hangle) hink
        hend.settles⟩
  · simp at h

/-! ### Return types -/

/-- A bracketed group at the front of a type is on the path, with the arrow behind it if it belongs
to a function type, or is missing. -/
theorem scans_skipLeadingGroup {b : Bytes} {i k : Nat} (h : skipLeadingGroup b i = some k) :
    Scans b i k := by
  unfold skipLeadingGroup at h
  split at h
  · rename_i hopen
    have hi := Bytes.lt_size_of_satAt hopen
    have hbody : Scans b i (i + 1) :=
      scans_succ hopen (Byte.excludes_opensInert rfl)
    dsimp only at h
    split at h
    · rename_i hclose
      have hgroup := hbody.trans (scans_succ_findClose hi hclose)
      split at h
      · -- a function type goes on behind its arrow
        rename_i harrow
        rw [Bool.and_eq_true] at harrow
        obtain rfl := Option.some.inj h
        exact (hgroup.trans (scans_skipSpace b _)).trans
          (scans_of_hasAt (p := (·.among ['=', '>'])) harrow.2 rfl (Byte.excludes_opensInert rfl))
      · obtain rfl := Option.some.inj h
        exact hgroup
    · simp at h
  · obtain rfl := Option.some.inj h
    exact Scans.refl b i

/-- A return type is not empty and ends next to the path behind its colon. That it is not empty has
been tested; where it ends is the path through a leading group and a search, trimmed. -/
theorem returnTypeStop_spec {b : Bytes} {colon stop : Nat} (hcolon : colon < b.size)
    (h : returnTypeStop b colon = some stop) :
    colon + 1 < stop ∧ stop ≤ b.size ∧ Settles b (colon + 1) stop := by
  unfold returnTypeStop at h
  split at h
  · split at h
    · simp at h
    · rename_i i hi
      dsimp only at h
      rw [Option.ite_none_right_eq_some] at h
      obtain ⟨hcond, heq⟩ := h
      obtain rfl := Option.some.inj heq
      simp only [Bool.and_eq_true, decide_eq_true_eq] at hcond
      -- whitespace, a leading group, and then the search
      have hscan := (scans_skipSpace b (colon + 1)).trans (scans_skipLeadingGroup hi)
      have hsize := hscan.le_size hcolon
      refine ⟨hcond.2, Nat.le_trans (b.trimEnd_le _ _) (findStop_le _ _ _ _), ?_⟩
      exact settles_trimEnd (hscan.trans (scans_findStop hsize)) (Nat.le_refl _)
        (Nat.le_trans hscan.le (le_findStop hsize))
  · simp at h

/-- What is recognised as a return type starts where it is looked for, and its patch fits. -/
theorem returnTypePatch_fits {b : Bytes} {i : Nat} {m : Match} (h : returnTypeAt b i = some m) :
    m.kind = .returnType ∧ m.start = i ∧ (returnTypePatch b m).Fits b i := by
  unfold returnTypeAt at h
  rw [Option.ite_none_right_eq_some] at h
  obtain ⟨hcond, hm⟩ := h
  obtain rfl := Option.some.inj hm
  simp only [Bool.and_eq_true] at hcond
  obtain ⟨⟨hcolon, -⟩, hsome⟩ := hcond
  obtain ⟨stop, hstop⟩ := Option.isSome_iff_exists.mp hsome
  obtain ⟨hlt, hsize, hend⟩ := returnTypeStop_spec (Bytes.lt_size_of_isAt hcolon) hstop
  have hscan : Scans b i (i + 1) := scans_isAt hcolon rfl
  refine ⟨rfl, rfl, ?_⟩
  unfold returnTypePatch
  rw [show (Match.mk .returnType ⟨i, i + 1⟩).start = i from rfl, hstop, Option.getD_some]
  exact Patch.erase_fits (by omega) hsize
    (startsInk_of_isAt hcolon rfl) (hscan.settles.trans hend)

/-! ### Annotations -/

theorem isAt_of_isColon {b : Bytes} {i : Nat} (h : isColon b i = true) : b.isAt i ':' = true := by
  rw [isColon, Bool.and_eq_true, Bool.and_eq_true] at h
  exact h.1.1

/-- An annotation starts at its colon, or at a marker with only whitespace between the two. This
inverts the definition as far as the start of an annotation goes; what is annotated does not matter
here. -/
theorem annotationOf_cases {b : Bytes} {colon start : Nat} {annotated : Annotated}
    (h : annotationOf b colon = some (start, annotated)) (hsize : colon ≤ b.size) :
    start = colon ∨ b.satAt start (·.among ['?', '!']) = true ∧ start < colon ∧
      ∀ k, start < k → k < colon → b.satAt k Byte.isSpace = true := by
  unfold annotationOf at h
  obtain ⟨p, hp, h⟩ := Option.bind_eq_some_iff.mp h
  dsimp only at h
  -- the same steps follow with a marker and without one, from another last byte of the name
  by_cases hmark : b.satAt p (·.among ['?', '!']) = true
  · simp only [hmark, if_true] at h
    obtain ⟨last, -, h⟩ := Option.bind_eq_some_iff.mp h
    obtain ⟨pattern, -, h⟩ := Option.bind_eq_some_iff.mp h
    obtain ⟨kind, -, h⟩ := Option.bind_eq_some_iff.mp h
    obtain ⟨rfl, -⟩ := Prod.mk.inj (Option.some.inj h)
    exact .inr ⟨hmark, Bytes.lastInk_lt hp, (Bytes.lastInk_spec hp hsize).2⟩
  · simp only [hmark, Bool.false_eq_true, if_false] at h
    obtain ⟨last, -, h⟩ := Option.bind_eq_some_iff.mp h
    obtain ⟨pattern, -, h⟩ := Option.bind_eq_some_iff.mp h
    obtain ⟨kind, -, h⟩ := Option.bind_eq_some_iff.mp h
    exact .inl (Prod.mk.inj (Option.some.inj h)).1.symm

/-- The start of an annotation and its colon are on one path. If there is a marker, the whitespace
between it and the colon is scanned byte by byte. -/
theorem annotationOf_spec {b : Bytes} {colon start : Nat} {annotated : Annotated}
    (h : annotationOf b colon = some (start, annotated)) (hcolon : b.isAt colon ':' = true) :
    start ≤ colon ∧ StartsInk b start ∧ Scans b start colon := by
  rcases annotationOf_cases h (Nat.le_of_lt (Bytes.lt_size_of_isAt hcolon)) with
    rfl | ⟨hmark, hlt, hspace⟩
  · exact ⟨Nat.le_refl _, startsInk_of_isAt hcolon rfl, Scans.refl b _⟩
  · -- behind the marker there is only whitespace up to the colon
    have hgap : Scans b (start + 1) colon :=
      scans_of_satAt hlt (fun k hk hkc => hspace k hk hkc) (Byte.excludes_opensInert rfl)
    refine ⟨Nat.le_of_lt hlt, startsInk_of_satAt hmark (Byte.excludes_isSpace rfl), ?_⟩
    exact (scans_succ hmark (Byte.excludes_opensInert rfl)).trans hgap

/-- What is recognised as an annotation, and its patch. The patch looks at the annotation again and
finds the same answer, so it is the patch of a list whose first item is the annotation. -/
theorem annotationAt_cases {b : Bytes} {cursor i : Nat} {m : Match}
    (h : annotationAt b cursor i = some m) :
    ∃ start annotated, isColon b i = true ∧ annotationOf b i = some (start, annotated) ∧
      cursor ≤ start ∧ m = ⟨.annotated, ⟨start, i + 1⟩⟩ ∧
      annotationPatch b m = annotatedItems b annotated ⟨start, start, i⟩ := by
  unfold annotationAt at h
  obtain ⟨hcolon, h⟩ := Option.ite_none_right_eq_some.mp h
  split at h
  · rename_i start annotated hof
    obtain ⟨hcursor, hm⟩ := Option.ite_none_right_eq_some.mp h
    obtain rfl := Option.some.inj hm
    refine ⟨start, annotated, hcolon, hof, hcursor, rfl, ?_⟩
    unfold annotationPatch
    simp only [Match.stop, Match.start, Nat.add_sub_cancel, hof]
  · simp at h

/-- Where an item of a list can be annotated: its marker and colon are on the path. -/
structure AnnotatedItem.Placed (item : AnnotatedItem) (b : Bytes) (c : Nat) : Prop where
  copied_le : item.copied ≤ item.start
  scans : Scans b c item.start
  ink : StartsInk b item.start
  colon : Scans b item.start item.colon
  isColon : b.isAt item.colon ':' = true

namespace AnnotatedItem.Placed

variable {item : AnnotatedItem} {b : Bytes} {c : Nat}

theorem colon_lt_size (h : item.Placed b c) : item.colon < b.size :=
  Bytes.lt_size_of_isAt h.isColon

/-- The type of an item starts behind its colon and ends on the path. -/
private theorem scans_typeStop (h : item.Placed b c) (annotated : Annotated) :
    Scans b item.start (item.typeStop b annotated) ∧
      item.colon + 1 ≤ item.typeStop b annotated := by
  have htype : Scans b item.colon (item.colon + 1) :=
    scans_isAt h.isColon rfl
  have hstop : Scans b (item.colon + 1) (item.typeStop b annotated) :=
    scans_findStop h.colon_lt_size
  exact ⟨(h.colon.trans htype).trans hstop, hstop.le⟩

/-- An item is not empty: its colon is ink and is not trimmed away. -/
theorem start_lt_stop (h : item.Placed b c) (annotated : Annotated) :
    item.start < item.stop b annotated := by
  have hcolon := h.colon.le
  have hle := (h.scans_typeStop annotated).2
  -- the marker or, without one, the colon is not trimmed away
  have hnot : b.satAt item.colon Byte.isSpace = false :=
    Bytes.satAt_of_isAt h.isColon Byte.isSpace
  have : item.colon < item.stop b annotated :=
    Bytes.lt_trimEnd_of_not_isSpace item.start (by omega) hnot
  omega

theorem stop_le_size (h : item.Placed b c) (annotated : Annotated) :
    item.stop b annotated ≤ b.size :=
  Nat.le_trans (b.trimEnd_le _ _)
    ((h.scans_typeStop annotated).1.le_size
      (Nat.le_trans h.colon.le (Nat.le_of_lt h.colon_lt_size)))

/-- An item ends next to the path from the start of the construct. -/
theorem settles_stop (h : item.Placed b c) (annotated : Annotated) :
    Settles b c (item.stop b annotated) := by
  have hstop := (h.scans_typeStop annotated).1
  exact settles_trimEnd (h.scans.trans hstop) h.scans.le hstop.le

/-- The text before an annotation is kept and the annotation is commented out. Where an item ends it
is next to the path, so the erased segment satisfies what a layout asks for. -/
theorem layout (h : item.Placed b c) (annotated : Annotated) :
    Layout b c item.copied (item.segments b annotated) (item.stop b annotated) := by
  have hlt := h.start_lt_stop annotated
  have hsize := h.stop_le_size annotated
  exact .keep h.copied_le (by omega)
    (.erase hlt hsize h.scans h.ink (h.settles_stop annotated) (.nil _))

end AnnotatedItem.Placed

/-- Whitespace and the dots of a rest parameter lead to the name of an item. -/
private theorem scans_itemName (b : Bytes) (i : Nat) : Scans b i (itemName b i) := by
  unfold itemName
  split
  · rename_i hdots
    exact (scans_skipSpace b i).trans
      (scans_of_hasAt (p := (·.is '.')) hdots rfl (Byte.excludes_opensInert rfl))
  · exact scans_skipSpace b i

/-- The marker and the blanks behind it lead to the colon, or there is no marker. -/
private theorem scans_markerColon (b : Bytes) (marker : Nat) :
    Scans b marker (markerColon b marker) := by
  unfold markerColon
  split
  · rename_i hmark
    exact (scans_isAt hmark rfl).trans (scans_skipBlanks b _)
  · exact Scans.refl b marker

/-- The marker and the colon of the next item are on the path. The path is put together from the
name, the blanks behind it and the marker. -/
theorem nextAnnotated_spec {b : Bytes} {i marker colon : Nat}
    (h : nextAnnotated b i = some (marker, colon)) :
    Scans b i marker ∧ StartsInk b marker ∧ Scans b marker colon ∧ b.isAt colon ':' = true := by
  unfold nextAnnotated at h
  dsimp only at h
  rw [Option.ite_none_right_eq_some] at h
  obtain ⟨hcond, heq⟩ := h
  rw [Bool.and_eq_true] at hcond
  rw [Option.some.injEq, Prod.mk.injEq] at heq
  obtain ⟨rfl, rfl⟩ := heq
  have hcolon := isAt_of_isColon hcond.2
  refine ⟨((scans_itemName b i).trans (scans_nameStop b _)).trans (scans_skipBlanks b _), ?_,
    scans_markerColon b _, hcolon⟩
  -- the marker is a question mark, or it is the colon itself
  unfold markerColon at hcolon
  split at hcolon
  · rename_i hmark
    exact startsInk_of_isAt hmark rfl
  · exact startsInk_of_isAt hcolon rfl

/-- What follows an item in its list is again placed. It starts to be copied where this item
ends. -/
theorem AnnotatedItem.Placed.next {item next : AnnotatedItem} {b : Bytes} {c : Nat}
    {annotated : Annotated} (h : item.Placed b c) (hnext : item.next b annotated = some next) :
    next.Placed b c ∧ next.copied = item.stop b annotated := by
  unfold AnnotatedItem.next at hnext
  dsimp only at hnext
  split at hnext
  · rename_i hcomma
    obtain ⟨⟨marker, colon⟩, hmarker, rfl⟩ := Option.map_eq_some_iff.mp hnext
    obtain ⟨hscan, hink, hcolon, his⟩ := nextAnnotated_spec hmarker
    -- from the comma behind the type, the path leads to the marker of the next item
    have hstop := (h.scans_typeStop annotated).1
    have hlist : Scans b (item.typeStop b annotated) marker :=
      (scans_isAt hcomma rfl).trans hscan
    exact ⟨⟨Nat.le_trans (b.trimEnd_le _ _) hlist.le, (h.scans.trans hstop).trans hlist, hink,
      hcolon, his⟩, rfl⟩
  · simp at hnext

/-- **The patch of a list of annotations** divides the list, item by item. The induction follows the
list; what one item hands on to the next is that it is placed, by `AnnotatedItem.Placed.next`. -/
theorem annotatedItems_layout {b : Bytes} {c : Nat} (annotated : Annotated) {item : AnnotatedItem}
    (h : item.Placed b c) :
    Layout b c item.copied (annotatedItems b annotated item).segments
        (annotatedItems b annotated item).stop ∧
      item.stop b annotated ≤ (annotatedItems b annotated item).stop ∧
      Settles b c (annotatedItems b annotated item).stop := by
  fun_induction annotatedItems b annotated item with
  | case1 item _ => exact ⟨h.layout annotated, Nat.le_refl _, h.settles_stop annotated⟩
  | case2 item next hnext rest ih =>
    obtain ⟨hplaced, hcopied⟩ := h.next hnext
    obtain ⟨hlayout, hle, hend⟩ := ih hplaced
    rw [hcopied] at hlayout
    exact ⟨(h.layout annotated).append hlayout, hlayout.le, hend⟩

/-- What is recognised as an annotation starts at or before its colon but not before the cursor, and
its patch fits. Unlike the other constructs an annotation is found by a byte that need not be its
first. -/
theorem annotationPatch_fits {b : Bytes} {cursor i : Nat} {m : Match}
    (h : annotationAt b cursor i = some m) :
    m.kind = .annotated ∧ cursor ≤ m.start ∧ m.start ≤ i ∧
      (annotationPatch b m).Fits b m.start := by
  obtain ⟨start, annotated, hcolon, hof, hcursor, rfl, hpatch⟩ := annotationAt_cases h
  have his := isAt_of_isColon hcolon
  obtain ⟨hle, hink, hscan⟩ := annotationOf_spec hof his
  -- the first item of the list starts with the construct, and nothing is copied before it
  have hplaced : (AnnotatedItem.mk start start i).Placed b start :=
    ⟨Nat.le_refl _, Scans.refl b start, hink, hscan, his⟩
  obtain ⟨hlayout, hstop, hend⟩ := annotatedItems_layout annotated hplaced
  rw [hpatch]
  exact ⟨rfl, hcursor, hle, hlayout, Nat.lt_of_lt_of_le (hplaced.start_lt_stop annotated) hstop,
    hend⟩

end TypeErasure
