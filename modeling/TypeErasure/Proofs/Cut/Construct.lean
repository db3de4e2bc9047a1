import Mathlib.Tactic.SplitIfs
import TypeErasure.Proofs.Cut

/-!
# The cuts of each construct

For each kind of construct, what is recognised at an offset has a patch that cuts its text at seams
and comments out enclosed ranges only. The path that counts brackets is put together from those of
the parts: keywords, names and whitespace change no count, a group is passed over whole, and a
search for the end of a type stops outside of all groups.

* `declarationPatch_severs`, `typeAliasPatch_severs` — statements that hold nothing but types;
* `castPatch_severs`, `typeArgumentsPatch_severs`, `returnTypePatch_severs` — parts of expressions;
* `annotationPatch_severs` — annotations, through the list that they stand in.
-/

namespace TypeErasure

/-! ### Statements that hold nothing but types -/

/-- What opens a statement: letters and blanks, which change no count. -/
structure Opening (b : Bytes) (i after : Nat) : Prop where
  letter : b.satAt i Byte.isLetter = true
  nests : Nests b i 0 after 0
  seam : Seam b after

namespace Opening

variable {b : Bytes} {i after : Nat}

theorem seam_left (h : Opening b i after) : Seam b i :=
  .of_satAt h.letter Byte.ascii_isLetter

theorem head (h : Opening b i after) : b.isAt i '>' = false :=
  Bytes.isAt_eq_false h.letter rfl

end Opening

/-- A keyword ends at a seam: its last byte is a letter, as all of them are. -/
private theorem seam_keyword {b : Bytes} {i : Nat} {w : String} (h : keywordAt b i w = true)
    (hw : (Bytes.ofString w).toList.all Byte.isLetter = true) (hpos : 0 < (Bytes.ofString w).size) :
    Seam b (i + (Bytes.ofString w).size) := by
  have hlast := Bytes.satAt_of_hasAt (k := (Bytes.ofString w).size - 1) (hasAt_of_keywordAt h)
    (by omega) hw
  have := Seam.succ_of_satAt hlast Byte.ascii_isLetter
  rwa [Nat.add_assoc, Nat.sub_add_cancel hpos] at this

/-- The keyword of a statement is such an opening, and so is the keyword with `export` and blanks
before it. -/
private theorem opening_of_statementKeyword {b : Bytes} {i after : Nat} {w : String}
    (h : statementKeyword b i w = some after)
    (hw : (Bytes.ofString w).toList.all Byte.isLetter = true)
    (hpos : 0 < (Bytes.ofString w).size) : Opening b i after := by
  -- the keyword may have `export` before it
  obtain ⟨start, hword, rfl, rfl | ⟨hexport, rfl⟩⟩ := statementKeyword_cases h
  · exact ⟨isLetter_of_keywordAt hword hw hpos, nests_keyword hword hw 0,
      seam_keyword hword hw hpos⟩
  · exact ⟨isLetter_of_keywordAt hexport rfl (by decide),
      ((nests_keyword hexport rfl 0).trans (nests_skipBlanks b _ 0)).trans
        (nests_keyword hword hw 0), seam_keyword hword hw hpos⟩

/-- The end of a statement is not moved before its start, neither by its semicolon nor by
trimming. -/
private theorem le_statementStop {b : Bytes} {start stop : Nat} (h : start ≤ stop) :
    start ≤ statementStop b start stop := by
  unfold statementStop
  split
  · omega
  · exact Bytes.le_trimEnd h

/-- A closing bracket that is found before the end of the text is an ASCII character, so that behind
it is a seam. -/
private theorem seam_succ_findClose {b : Bytes} {reading : Reading} {i : Nat}
    (h : findClose b reading i < b.size) : Seam b (findClose b reading i + 1) := by
  rcases findStopFrom_spec h with hstop | hclose
  · simp at hstop
  · exact .succ_of_satAt (satAt_of_closesAt hclose) (Byte.ascii_among rfl)

/-- A round, square or curly opener opens a group however angle brackets are read. -/
private theorem opensAt_of_isAt {b : Bytes} {i : Nat} {ch : Char} (h : b.isAt i ch = true)
    (hch : (Byte.ofChar ch).isOpener = true) : opensAt b .type i = true := by
  rw [opensAt, Bytes.satAt_of_isAt h, hch]
  rfl

/-- A declaration is commented out through its body, or through the end of its statement. The three
cases are those of the patch, and each adds to the path up to `stop`: the body as a group, all the
rest of the text, or a semicolon. -/
theorem declarationPatch_severs {b : Bytes} {m : Match} {stop : Nat}
    (hopening : Opening b m.start m.stop) (hbalances : Balances b m.start stop)
    (hle : m.start ≤ stop) (hstop : Seam b stop) : (declarationPatch b m stop).Severs b m := by
  have hstart := hopening.seam_left
  have hhead := hopening.head
  unfold declarationPatch
  split
  · -- with a body, the declaration goes on through its closing bracket
    rename_i hopen
    have hbrace := opensAt_of_isAt hopen rfl
    have hlead := hbalances.nests (Bytes.lt_size_of_isAt hopen)
    have hfind : stop + 1 ≤ findClose b .type (stop + 1) :=
      le_findStop (Bytes.lt_size_of_isAt hopen)
    dsimp only
    split
    · rename_i hclose
      exact Patch.erase_severs hstart hopening.seam (by omega) (seam_succ_findClose hclose)
        ((hlead.trans (nests_group hbrace hclose 0)).balances.enclosed hhead)
    · -- a body that never closes ends with the text
      rename_i hclose
      obtain ⟨e, he⟩ := nests_open_group hbrace hclose 0
      have hend : Balances b m.start b.size := ⟨e, hlead.trans he, .inr rfl⟩
      have hsevers := Patch.erase_severs hstart hopening.seam hstart.le_size (Seam.size b)
        (hend.enclosed hhead)
      exact ⟨hsevers.stop, hsevers.cuts⟩
  · -- without one, it ends as any statement does
    refine Patch.erase_severs hstart hopening.seam ?_ (hstop.statementStop _)
      (hbalances.enclosed_statementStop hhead _)
    exact le_statementStop hle

/-- The patch of a declaration cuts at seams, whatever condition ends the search for its body. The
search stays on a balanced path and stops at a seam, which is what `declarationPatch_severs` asks
for. -/
private theorem namedStatement_severs {b : Bytes} {i after : Nat} {w : String} {kind : Construct}
    {stop : Nat → Bool} (h : namedStatement b i w = some after)
    (hw : (Bytes.ofString w).toList.all Byte.isLetter = true)
    (hpos : 0 < (Bytes.ofString w).size) (hstop : StopsAtAscii b stop) :
    (declarationPatch b ⟨kind, ⟨i, after⟩⟩ (findStop b .type stop after)).Severs b
      ⟨kind, ⟨i, after⟩⟩ := by
  have hopening := opening_of_statementKeyword (Option.filter_eq_some_iff.mp h).1 hw hpos
  have hsize := hopening.seam.le_size
  exact declarationPatch_severs hopening
    (hopening.nests.trans_balances (balances_findStop stop hsize))
    (Nat.le_trans hopening.nests.le (le_findStop hsize)) (Seam.findStop hstop _ _)

/-- **An interface is cut at seams.** Its body is searched for by its bracket. -/
theorem interfacePatch_severs {b : Bytes} {i : Nat} {m : Match} (h : interfaceAt b i = some m) :
    (interfacePatch b m).Severs b m := by
  obtain ⟨after, hafter, rfl⟩ := Option.map_eq_some_iff.mp h
  exact namedStatement_severs hafter rfl (by decide) (.satAt (Byte.ascii_among rfl))

/-- **An ambient declaration is cut at seams.** It may end with its line as well. -/
theorem ambientPatch_severs {b : Bytes} {i : Nat} {m : Match} (h : ambientAt b i = some m) :
    (ambientPatch b m).Severs b m := by
  obtain ⟨after, hafter, rfl⟩ := Option.map_eq_some_iff.mp h
  exact namedStatement_severs hafter rfl (by decide)
    (.or (.satAt (Byte.ascii_among rfl)) (.endsLine b _))

/-- A list of type parameters is passed over whole. It is a group in angle brackets, with whitespace
behind it; without one nothing is passed over. -/
private theorem nests_skipTypeParameters {b : Bytes} {i k : Nat}
    (h : skipTypeParameters b i = some k) : Nests b i 0 k 0 := by
  unfold skipTypeParameters at h
  split at h
  · rename_i hopen
    dsimp only at h
    rw [Option.ite_none_right_eq_some] at h
    obtain ⟨hclose, heq⟩ := h
    obtain rfl := Option.some.inj heq
    have hangle : opensAt b .type i = true := by
      rw [opensAt, hopen]
      simp
    exact (nests_group hangle (Bytes.lt_size_of_isAt hclose) 0).trans (nests_skipSpace b _ 0)
  · obtain rfl := Option.some.inj h
    exact .refl i 0

/-- **A type alias is cut at seams.** Its path leads over the keyword, the name, the type parameters
and the sign, and from there on it is that of the search for the end of the type. -/
theorem typeAliasPatch_severs {b : Bytes} {i : Nat} {m : Match} (h : typeAliasAt b i = some m) :
    (typeAliasPatch b m).Severs b m := by
  unfold typeAliasAt at h
  obtain ⟨after, hafter, h⟩ := Option.bind_eq_some_iff.mp h
  dsimp only at h
  split at h
  · obtain ⟨eq, heq, h⟩ := Option.bind_eq_some_iff.mp h
    rw [Option.ite_none_right_eq_some] at h
    obtain ⟨hassign, hm⟩ := h
    obtain rfl := Option.some.inj hm
    have hopening := opening_of_statementKeyword hafter rfl (by decide)
    have hsign := (Bool.and_eq_true_iff.mp hassign).1
    have hsize := Bytes.lt_size_of_isAt hsign
    -- the keyword, the name and the type parameters lead to the sign
    have hlead : Nests b i 0 (eq + 1) 0 :=
      ((((hopening.nests.trans (nests_skipBlanks b _ 0)).trans (nests_nameStop b _ 0)).trans
        (nests_skipSpace b _ 0)).trans (nests_skipTypeParameters heq)).trans
        (nests_isAt hsign rfl 0)
    have hbalances : Balances b i (findStop b .type (fun k => b.isAt k ';' || endsLine b (eq + 1) k)
        (eq + 1)) := hlead.trans_balances (balances_findStop _ hsize)
    have hseam : Seam b (findStop b .type (fun k => b.isAt k ';' || endsLine b (eq + 1) k)
        (eq + 1)) := Seam.findStop (.or (.satAt (Byte.ascii_is rfl)) (.endsLine b _)) _ _
    refine Patch.erase_severs (m := ⟨.typeAlias, ⟨i, eq + 1⟩⟩) hopening.seam_left
      (.succ_of_isAt hsign rfl) ?_ (hseam.statementStop i)
      (hbalances.enclosed_statementStop hopening.head i)
    exact le_statementStop (Nat.le_trans hlead.le (le_findStop hsize))
  · simp at h

/-! ### Casts -/

/-- **A cast is cut at seams.** It starts with a blank, which is commented out with the keyword and
the type. The search for the end of the type starts behind the keyword, outside of all groups. -/
theorem castPatch_severs {b : Bytes} {i : Nat} {m : Match} (h : castAt b i = some m) :
    (castPatch b m).Severs b m := by
  unfold castAt at h
  rw [Option.ite_none_right_eq_some] at h
  obtain ⟨hcond, hm⟩ := h
  obtain rfl := Option.some.inj hm
  simp only [Bool.and_eq_true] at hcond
  -- a blank and the keyword come before the type
  obtain ⟨⟨⟨⟨⟨hblank, hword⟩, -⟩, -⟩, -⟩, -⟩ := hcond
  have hlead : Nests b i 0 (i + 3) 0 :=
    (nests_succ hblank (Byte.excludes_isMark rfl) 0).trans (nests_keyword hword rfl 0)
  have hspan : Seam b (i + 3) := seam_keyword hword rfl (by decide)
  have hbalances : Balances b i (findStop b .type
      (fun k => b.satAt k (·.among [';', ',']) || endsLine b (i + 3) k) (i + 3)) :=
    hlead.trans_balances (balances_findStop _ hspan.le_size)
  have hseam : Seam b (findStop b .type
      (fun k => b.satAt k (·.among [';', ',']) || endsLine b (i + 3) k) (i + 3)) :=
    Seam.findStop (.or (.satAt (Byte.ascii_among rfl)) (.endsLine b _)) _ _
  exact Patch.erase_severs (m := ⟨.cast, ⟨i, i + 3⟩⟩) (.of_satAt hblank Byte.ascii_isBlank) hspan
    (Bytes.le_trimEnd (Nat.le_trans hlead.le (le_findStop hspan.le_size))) (hseam.trimEnd i)
    (hbalances.enclosed_trimEnd (Bytes.isAt_eq_false hblank rfl) i)

/-! ### Lists of type arguments -/

/-- The number of open brackets of all shapes. -/
def OpenBrackets.total (o : OpenBrackets) : Nat :=
  o.angle + o.round + o.square + o.curly

/-- The bytes of a list of type arguments that are neither brackets nor quotes. -/
def Byte.isTypeText (c : Byte) : Bool :=
  c.isNamePart || c.isSpace || c.among ['=', '&', '|', ';', ',', '.', '?', ':', '-']

/-- What the recognition of type arguments lets through as plain text is a part of a name,
whitespace or one of nine signs. One case for each of its branches. -/
private theorem isTypeText_of_fitsType {b : Bytes} {o : OpenBrackets} {i : Nat} {c : Byte}
    (h : fitsType b o i c = true) : c.isTypeText = true := by
  unfold fitsType at h
  split at h
  · rename_i hc
    exact Byte.apply_of_is hc Byte.isTypeText
  · split at h
    · rename_i hc
      exact Byte.of_among ['&', '|'] hc rfl
    · split at h
      · rename_i hc
        exact Byte.apply_of_is hc Byte.isTypeText
      · rw [Bool.or_eq_true] at h
        rcases h with hc | hc
        · rw [Byte.isTypeText, hc, Bool.true_or]
        · exact Byte.of_among [',', '.', '?', ':', '-'] hc rfl

/-- Counting a round, square or curly bracket by its shape counts it in total. One case for each of
the six brackets, in which both counts change by one. -/
private theorem OpenBrackets.total_of_count {o o' : OpenBrackets} {c : Byte}
    (h : o.count c = some o') :
    o'.angle = o.angle ∧ (c.isOpener = true → o'.total = o.total + 1) ∧
      (c.isCloser = true → o.total = o'.total + 1) := by
  simp only [count, Byte.is, beq_iff_eq, Char.reduceToNat] at h
  simp only [total, Byte.isOpener, Byte.isCloser, Byte.among, Byte.is, List.any_cons, List.any_nil,
    Bool.or_false, Bool.or_eq_true, beq_iff_eq, Char.reduceToNat]
  split_ifs at h <;> cases h <;> grind

/-- **A list of type arguments is passed over whole**, from any place inside it to behind its
closing bracket. The induction follows the recognition. It counts the brackets by their shape, and
the path counts them all together, so that its number is `o.total` at every step. Its hypothesis
says that the list has been entered, which rules out that the last angle bracket closes before the
first has opened. -/
theorem nests_typeListClose {b : Bytes} {o : OpenBrackets} {i close : Nat}
    (h : typeListClose b o i = some close) (hopen : 0 < o.angle ∨ b.isAt i '<' = true) :
    Nests b i o.total (close + 1) 0 := by
  have hat {i : Nat} {c : Byte} (hi : b[i]? = some c) (p : Byte → Bool) : b.satAt i p = p c :=
    Bytes.satAt_of_getElem? hi p
  -- behind the first bracket of the list, an angle bracket is open
  have hangle {i : Nat} {c : Byte} {o : OpenBrackets} (hi : b[i]? = some c)
      (hc : ¬ c.is '<' = true) (hopen : 0 < o.angle ∨ b.isAt i '<' = true) : 0 < o.angle := by
    rcases hopen with hpos | hlt
    · exact hpos
    · exact absurd ((hat hi (·.is '<')).symm.trans hlt) hc
  have hcloses {i : Nat} {c : Byte} (hi : b[i]? = some c) (hc : c.is '>' = true)
      (harrow : ¬ b.isBefore i '=' = true) : closesAt b .type i = true := by
    rw [closesAt_type, show b.isAt i '>' = true from (hat hi (·.is '>')).trans hc]
    simp [harrow]
  fun_induction typeListClose b o i with
  | case2 o i c hi hc ih =>
    -- an angle bracket that opens an inner list
    have hopens : opensAt b .type i = true := by
      rw [opensAt, show b.isAt i '<' = true from (hat hi (·.is '<')).trans hc]
      simp
    refine (nests_opensAt hopens o.total).trans ?_
    have := ih h (.inl (Nat.succ_pos _))
    rwa [show OpenBrackets.total { o with angle := o.angle + 1 } = o.total + 1 by
      simp only [OpenBrackets.total]; omega] at this
  | case3 o i c hi hlt hc harrow ih =>
    -- the head of an arrow
    exact (nests_arrowHead ((hat hi (·.is '>')).trans hc) harrow _).trans
      (ih h (.inl (hangle hi hlt hopen)))
  | case4 o i c hi hlt hc harrow hone honly =>
    -- the bracket that closes the list
    obtain rfl := Option.some.inj h
    have htotal : o.total = 1 := by
      simp only [OpenBrackets.onlyAngle, Bool.and_eq_true, beq_iff_eq] at honly
      simp only [OpenBrackets.total]
      omega
    rw [htotal]
    exact nests_closesAt (hcloses hi hc harrow) 0
  | case6 o i c hi hlt hc harrow hone ih =>
    -- the bracket that closes an inner list
    have hpos := hangle hi hlt hopen
    have hrest := ih h (.inl (by dsimp only; omega))
    have htotal : o.total = OpenBrackets.total { o with angle := o.angle - 1 } + 1 := by
      simp only [OpenBrackets.total]
      omega
    rw [htotal]
    exact (nests_closesAt (hcloses hi hc harrow) _).trans hrest
  | case8 o i c hi hlt _ hc l hl ih =>
    -- a string type is one step
    have hstop := inertStop_of_isQuote hl ((Bytes.satAt_of_getElem? hi _).trans hc)
    exact .inert hstop (ih h (.inl (hangle hi hlt hopen)))
  | case10 o i c hi hlt _ _ hc o' hcount ih =>
    obtain ⟨hsame, hup, hdown⟩ := OpenBrackets.total_of_count hcount
    have hrest := ih h (.inl (hsame ▸ hangle hi hlt hopen))
    rcases Bool.or_eq_true_iff.mp hc with hc | hc
    · -- a round, square or curly bracket counts in total as it counts by its shape
      rw [hup hc] at hrest
      refine (nests_opensAt ?_ _).trans hrest
      rw [opensAt, hat hi, hc, Bool.true_or]
    · rw [hdown hc]
      refine (nests_closesAt ?_ _).trans hrest
      rw [closesAt, hat hi, hc, Bool.true_or]
  | case11 o i c hi hlt _ _ _ hc ih =>
    exact (nests_succ ((hat hi _).trans (isTypeText_of_fitsType hc))
      (Byte.excludes_isMark rfl) _).trans (ih h (.inl (hangle hi hlt hopen)))
  | case1 => simp at h
  | case5 => simp at h
  | case7 => simp at h
  | case9 => simp at h
  | case12 => simp at h

/-- **A list of type arguments is cut at seams**, before its opening and behind its closing
bracket. -/
theorem typeArgumentsPatch_severs {b : Bytes} {i : Nat} {m : Match}
    (h : typeArgumentsAt b i = some m) : (typeArgumentsPatch b m).Severs b m := by
  unfold typeArgumentsAt at h
  split at h
  · rename_i hcond
    simp only [Bool.and_eq_true] at hcond
    have hopen := hcond.1.1.2
    split at h
    · simp at h
    · rename_i close hclose
      rw [Option.ite_none_right_eq_some] at h
      obtain ⟨-, hm⟩ := h
      obtain rfl := Option.some.inj hm
      -- the list closes what it opens, and it starts with no closing bracket
      have hnests : Nests b i 0 (close + 1) 0 := nests_typeListClose hclose (.inr hopen)
      have hspan : Seam b (close + 1) := .succ_of_isAt (scans_typeListClose hclose).2 rfl
      have hhead : b.isAt i '>' = false :=
        (Bytes.isAt_eq_satAt b i '>').trans (Bytes.satAt_of_isAt hopen _)
      exact Patch.erase_severs (m := ⟨.typeArguments, ⟨i, close + 1⟩⟩) (.of_isAt hopen rfl) hspan
        hnests.le hspan (hnests.balances.enclosed hhead)
  · simp at h

/-! ### Return types -/

/-- An arrow changes no count. Its first byte is no bracket, and its second is the head of an
arrow. -/
private theorem nests_arrow {b : Bytes} {i : Nat} (h : b.hasAt i "=>" = true) (d : Nat) :
    Nests b i d (i + 2) d := by
  have hsign : b.isAt i '=' = true :=
    Bytes.isAt_congr (Bytes.getElem?_of_hasAt (k := 0) h (by decide)) '='
  have hhead : b.isAt (i + 1) '>' = true :=
    Bytes.isAt_congr (Bytes.getElem?_of_hasAt (k := 1) h (by decide)) '>'
  refine (nests_isAt hsign rfl d).trans (nests_arrowHead hhead ?_ d)
  rw [Bytes.isBefore, Nat.add_sub_cancel, hsign]
  simp

/-- A leading object or function type is passed over whole. A function type goes on behind its
arrow; a type that starts with no bracket is not passed over at all. -/
private theorem nests_skipLeadingGroup {b : Bytes} {i k : Nat} (h : skipLeadingGroup b i = some k) :
    Nests b i 0 k 0 := by
  unfold skipLeadingGroup at h
  split at h
  · rename_i hopen
    have hopens : opensAt b .type i = true := by
      rw [opensAt, Bytes.satAt_of_among (q := Byte.isOpener) ['{', '('] hopen rfl, Bool.true_or]
    dsimp only at h
    split at h
    · rename_i hclose
      have hgroup := nests_group hopens hclose 0
      split at h
      · -- a function type goes on behind its arrow
        rename_i harrow
        rw [Bool.and_eq_true] at harrow
        obtain rfl := Option.some.inj h
        exact (hgroup.trans (nests_skipSpace b _ 0)).trans (nests_arrow harrow.2 0)
      · obtain rfl := Option.some.inj h
        exact hgroup
    · simp at h
  · obtain rfl := Option.some.inj h
    exact .refl i 0

/-- **A return type is cut at seams.** Its path leads over the colon and a leading group; only then
does the search begin that may stop at a curly bracket. -/
theorem returnTypePatch_severs {b : Bytes} {i : Nat} {m : Match} (h : returnTypeAt b i = some m) :
    (returnTypePatch b m).Severs b m := by
  unfold returnTypeAt at h
  rw [Option.ite_none_right_eq_some] at h
  obtain ⟨hcond, hm⟩ := h
  obtain rfl := Option.some.inj hm
  simp only [Bool.and_eq_true] at hcond
  obtain ⟨⟨hcolon, -⟩, hsome⟩ := hcond
  obtain ⟨stop, hstop⟩ := Option.isSome_iff_exists.mp hsome
  unfold returnTypePatch
  rw [show (Match.mk .returnType ⟨i, i + 1⟩).start = i from rfl, hstop, Option.getD_some]
  have hlt := (returnTypeStop_spec (Bytes.lt_size_of_isAt hcolon) hstop).1
  unfold returnTypeStop at hstop
  split at hstop
  · split at hstop
    · simp at hstop
    · rename_i k hk
      dsimp only at hstop
      rw [Option.ite_none_right_eq_some] at hstop
      obtain ⟨-, heq⟩ := hstop
      obtain rfl := Option.some.inj heq
      -- the colon, and a leading group if there is one, come before the search
      have hlead : Nests b i 0 k 0 :=
        ((nests_isAt hcolon rfl 0).trans (nests_skipSpace b _ 0)).trans (nests_skipLeadingGroup hk)
      have hsize := hlead.le_size (Nat.le_of_lt (Bytes.lt_size_of_isAt hcolon))
      have hbalances := hlead.trans_balances (balances_findStop (fun j =>
        b.satAt j (·.among ['{', ';']) || (b.isAt j '=' && b.isAt (j + 1) '>') ||
          endsLine b (i + 1) j) hsize)
      have hhead : b.isAt i '>' = false :=
        (Bytes.isAt_eq_satAt b i '>').trans (Bytes.satAt_of_isAt hcolon _)
      refine Patch.erase_severs (m := ⟨.returnType, ⟨i, i + 1⟩⟩) (.of_isAt hcolon rfl)
        (.succ_of_isAt hcolon rfl) (Nat.le_of_lt (Nat.lt_of_succ_lt hlt)) (Seam.trimEnd ?_ _)
        (hbalances.enclosed_trimEnd hhead _)
      exact Seam.findStop (.or (.or (.satAt (Byte.ascii_among rfl))
        (.and_left (.satAt (Byte.ascii_is rfl)))) (.endsLine b _)) _ _
  · simp at hstop

/-! ### Annotations -/

/-- An item of a list can be cut out: its marker or colon stands at a seam, and no bracket between
the two. -/
structure AnnotatedItem.Severed (item : AnnotatedItem) (b : Bytes) : Prop where
  copied : Seam b item.copied
  copied_le : item.copied ≤ item.start
  start : Seam b item.start
  head : b.isAt item.start '>' = false
  nests : Nests b item.start 0 item.colon 0
  isColon : b.isAt item.colon ':' = true

namespace AnnotatedItem.Severed

variable {item : AnnotatedItem} {b : Bytes}

theorem colon_lt_size (h : item.Severed b) : item.colon < b.size :=
  Bytes.lt_size_of_isAt h.isColon

/-- The type of an item is balanced, from the marker or colon on to where the search for its end
stops. -/
theorem balances_typeStop (h : item.Severed b) (annotated : Annotated) :
    Balances b item.start (item.typeStop b annotated) :=
  (h.nests.trans (nests_isAt h.isColon rfl 0)).trans_balances
    (balances_findStop _ h.colon_lt_size)

/-- The search for the end of a type stops at a seam, since each of its conditions holds at an ASCII
character only. -/
private theorem seam_typeStop (annotated : Annotated) : Seam b (item.typeStop b annotated) :=
  Seam.findStop (.or (.or (.satAt (Byte.ascii_among rfl)) (.isAssign b))
    (.and_right (.endsLine b _))) _ _

private theorem colon_lt_typeStop (h : item.Severed b) (annotated : Annotated) :
    item.colon < item.typeStop b annotated :=
  le_findStop h.colon_lt_size

/-- The text before an annotation is kept and the annotation is commented out. There are these two
segments, and the second ends where the type does without the whitespace behind it. -/
theorem cuts (h : item.Severed b) (annotated : Annotated) :
    Cuts b item.copied (item.segments b annotated) (item.stop b annotated) := by
  have hle : item.start ≤ item.typeStop b annotated :=
    Nat.le_trans h.nests.le (Nat.le_of_lt (h.colon_lt_typeStop annotated))
  exact .keep h.copied h.copied_le (.erase h.start (Bytes.le_trimEnd hle)
    ((h.balances_typeStop annotated).enclosed_trimEnd h.head _)
    (.nil ((seam_typeStop annotated).trimEnd _)))

end AnnotatedItem.Severed

/-- The marker and the colon of the next item. With a question mark the item starts there, and
blanks lead on to the colon; without one it starts at the colon. -/
private theorem nextAnnotated_nests {b : Bytes} {i marker colon : Nat}
    (h : nextAnnotated b i = some (marker, colon)) :
    i ≤ marker ∧ Seam b marker ∧ b.isAt marker '>' = false ∧ Nests b marker 0 colon 0 ∧
      b.isAt colon ':' = true := by
  have hscan := (nextAnnotated_spec h).1
  unfold nextAnnotated at h
  dsimp only at h
  rw [Option.ite_none_right_eq_some] at h
  obtain ⟨hcond, heq⟩ := h
  rw [Bool.and_eq_true] at hcond
  rw [Option.some.injEq, Prod.mk.injEq] at heq
  obtain ⟨rfl, rfl⟩ := heq
  have hcolon := isAt_of_isColon hcond.2
  generalize b.skipBlanks (nameStop b (itemName b i)) = marker at hscan hcolon ⊢
  refine ⟨hscan.le, ?_⟩
  have hhead {ch : Char} (h : b.isAt marker ch = true) (hch : (Byte.ofChar ch).is '>' = false) :
      b.isAt marker '>' = false :=
    (Bytes.isAt_eq_satAt b marker '>').trans ((Bytes.satAt_of_isAt h _).trans hch)
  -- the marker is a question mark, or it is the colon itself
  unfold markerColon at hcolon ⊢
  split at hcolon
  · rename_i hmark
    rw [if_pos hmark]
    exact ⟨.of_isAt hmark rfl, hhead hmark rfl,
      (nests_isAt hmark rfl 0).trans (nests_skipBlanks b _ 0), hcolon⟩
  · rename_i hmark
    rw [if_neg hmark]
    exact ⟨.of_isAt hcolon rfl, hhead hcolon rfl, .refl _ 0, hcolon⟩

/-- What follows an item in its list can again be cut out. What is copied before it starts where the
type of the last item ended, which is a seam. -/
theorem AnnotatedItem.severed_next {item next : AnnotatedItem} {b : Bytes} {annotated : Annotated}
    (hnext : item.next b annotated = some next) :
    next.Severed b ∧ next.copied = item.stop b annotated := by
  unfold AnnotatedItem.next at hnext
  dsimp only at hnext
  split at hnext
  · obtain ⟨⟨marker, colon⟩, hmarker, rfl⟩ := Option.map_eq_some_iff.mp hnext
    obtain ⟨hle, hseam, hhead, hnests, hcolon⟩ := nextAnnotated_nests hmarker
    have hstop : item.stop b annotated ≤ item.typeStop b annotated := b.trimEnd_le _ _
    exact ⟨⟨(Severed.seam_typeStop annotated).trimEnd _, by dsimp only; omega, hseam, hhead, hnests,
      hcolon⟩, rfl⟩
  · simp at hnext

/-- **A list of annotations is cut at seams.** The induction follows the list: the segments of the
first item are put before those of the rest. -/
private theorem annotatedItems_cuts {b : Bytes} (annotated : Annotated) {item : AnnotatedItem}
    (h : item.Severed b) :
    Cuts b item.copied (annotatedItems b annotated item).segments
      (annotatedItems b annotated item).stop := by
  fun_induction annotatedItems b annotated item with
  | case1 item _ => exact h.cuts annotated
  | case2 item next hnext rest ih =>
    obtain ⟨hsevered, hcopied⟩ := AnnotatedItem.severed_next hnext
    have hrest := ih hsevered
    rw [hcopied] at hrest
    exact (h.cuts annotated).append hrest

/-- The first annotation of a list can be cut out. It starts at its colon, or at a marker with
nothing but whitespace up to the colon. -/
theorem severed_of_annotationOf {b : Bytes} {i start : Nat} {annotated : Annotated}
    (hcolon : b.isAt i ':' = true) (h : annotationOf b i = some (start, annotated)) :
    (AnnotatedItem.mk start start i).Severed b := by
  rcases annotationOf_cases h (Nat.le_of_lt (Bytes.lt_size_of_isAt hcolon)) with
    rfl | ⟨hmark, hlt, hspace⟩
  · have hseam : Seam b start := .of_isAt hcolon rfl
    exact ⟨hseam, Nat.le_refl _, hseam,
      (Bytes.isAt_eq_satAt b start '>').trans (Bytes.satAt_of_isAt hcolon _), .refl _ 0, hcolon⟩
  · have hseam : Seam b start := .of_satAt hmark (Byte.ascii_among rfl)
    -- the marker, and nothing but whitespace up to the colon
    have hnests : Nests b start 0 i 0 :=
      (nests_succ hmark (Byte.excludes_isMark rfl) 0).trans
        (nests_of_satAt hlt (fun k hk hki => hspace k hk hki) (Byte.excludes_isMark rfl) 0)
    exact ⟨hseam, Nat.le_refl _, hseam, Bytes.isAt_eq_false hmark rfl, hnests, hcolon⟩

/-- **An annotation is cut at seams**, with all the items that its list goes on with. -/
theorem annotationPatch_severs {b : Bytes} {cursor i : Nat} {m : Match}
    (h : annotationAt b cursor i = some m) : (annotationPatch b m).Severs b m := by
  obtain ⟨start, annotated, hcolon, hof, -, rfl, hpatch⟩ := annotationAt_cases h
  have his := isAt_of_isColon hcolon
  rw [hpatch]
  exact ⟨.succ_of_isAt his rfl, annotatedItems_cuts annotated (severed_of_annotationOf his hof)⟩

end TypeErasure
