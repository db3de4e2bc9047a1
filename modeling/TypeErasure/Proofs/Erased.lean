import TypeErasure.Proofs.Balance

/-!
# What an erased construct looks like

The constructs other than literals, return types and class members are commented out whole, but for
the separators of a list: an annotation goes on through the list that it stands in. `Patch.Erases`
says what a patch of that kind takes out of its text, and `patchOf_erases` that the patches of these
constructs are of that kind.

* The construct starts with a letter, a blank or a sign, and carries on neither a name nor a `::`.
* What it comments out is enclosed. In a list, one item is parted from the next by no more than
  whitespace, a comma, dots and the name of the next item (`ItemText`).
* Where it ends, no arrow is cut in two (`ArrowFree`).
-/

namespace TypeErasure

/-! ### Arrows -/

/-- **No head of an arrow stands at offset `i`.** -/
def ArrowFree (b : Bytes) (i : Nat) : Prop :=
  b.isAt i '>' = true → b.isBefore i '=' = false

namespace ArrowFree

variable {b : Bytes} {i : Nat} {p : Byte → Bool}

private theorem of_not_isAt (h : b.isAt i '>' = false) : ArrowFree b i := by
  intro hangle
  rw [h] at hangle
  simp at hangle

/-- Behind a byte that is no `=`. -/
theorem succ (h : b.satAt i p = true) (hp : p (Byte.ofChar '=') = false) : ArrowFree b (i + 1) := by
  intro _
  rw [Bytes.isBefore, Nat.add_sub_cancel, Bytes.isAt_eq_false h hp, Bool.and_false]

/-- A `>` that closes a bracket is no head of an arrow. -/
private theorem of_closesAt (h : closesAt b .type i = true) : ArrowFree b i := by
  intro hangle
  rw [closesAt_type, Bytes.satAt_of_isAt hangle] at h
  simpa [Byte.ofChar, Byte.among, Byte.is, hangle] using h

/-- A search does not stop at the head of an arrow, unless it is told to: at a closing bracket it
has counted the `>` as one, and at the end of the text there is none. -/
theorem findStop {stop : Nat → Bool} (h : ∀ k, stop k = true → b.isAt k '>' = false) (i : Nat) :
    ArrowFree b (findStop b .type stop i) := by
  rcases Nat.lt_or_eq_of_le (findStop_le b .type stop i) with hlt | heq
  · -- the search has come to what it was told to stop at, or to a closing bracket
    rcases findStopFrom_spec hlt with hstop | hclose
    · exact of_not_isAt (h _ hstop)
    · exact of_closesAt hclose
  · rw [heq]
    exact of_not_isAt (Bytes.satAt_eq_false_of_size_le (Nat.le_refl _))

/-- Trimming whitespace gives no arrow away. -/
theorem trimEnd (h : ArrowFree b i) (start : Nat) : ArrowFree b (b.trimEnd start i) := by
  -- where whitespace was trimmed, the text ends before some of it
  rcases Nat.lt_or_eq_of_le (b.trimEnd_le start i) with hlt | heq
  · exact of_not_isAt
      (Bytes.isAt_eq_false (Bytes.isSpace_of_trimEnd_le (Nat.le_refl _) hlt) rfl)
  · rwa [heq]

/-- Neither does the semicolon that ends a statement. -/
theorem statementStop (h : ArrowFree b i) (start : Nat) :
    ArrowFree b (statementStop b start i) := by
  unfold TypeErasure.statementStop
  split
  · rename_i hsemi
    exact succ (p := (·.is ';')) hsemi rfl
  · exact h.trimEnd start

end ArrowFree

private theorem not_angle_of_endsLine {b : Bytes} {start k : Nat} (h : endsLine b start k = true) :
    b.isAt k '>' = false :=
  Bytes.isAt_eq_false (p := (·.is '\n')) (Bool.and_eq_true_iff.mp h).1 rfl

/-! ### Lists -/

/-- A byte that can stand before the name of an item: whitespace, a comma or a dot. -/
def Byte.isSeparator (c : Byte) : Bool :=
  c.among [' ', '\t', '\n', '\x0c', '\r', ',', '.']

theorem Byte.isSeparator_of_isSpace (c : Byte) (h : c.isSpace = true) : c.isSeparator = true :=
  of_among _ h rfl

/-- **The text between two items of a list**: whitespace, a comma and dots, then a name, then
blanks. -/
def ItemText (b : Bytes) (i j : Nat) : Prop :=
  ∃ name stop, i ≤ name ∧ name ≤ stop ∧ stop ≤ j ∧
    (∀ k, i ≤ k → k < name → b.satAt k Byte.isSeparator = true) ∧
    (∀ k, name ≤ k → k < stop → b.satAt k Byte.isNamePart = true) ∧
    ∀ k, stop ≤ k → k < j → b.satAt k Byte.isBlank = true

namespace ItemText

variable {b b' : Bytes} {i j k m : Nat}

/-- The bytes between two items, in each of the three parts. -/
theorem satAt (h : ItemText b i j) (hk : i ≤ k) (hj : k < j) :
    b.satAt k (fun c => c.isSeparator || c.isNamePart) = true := by
  obtain ⟨name, stop, -, -, -, hlead, hname, hblank⟩ := h
  by_cases hin : k < name
  · exact Bytes.satAt_mono (hlead k hk hin) fun c hc => by rw [hc, Bool.true_or]
  · by_cases hin' : k < stop
    · exact Bytes.satAt_mono (hname k (by omega) hin') fun c hc => by rw [hc, Bool.or_true]
    · exact Bytes.satAt_of_among [' ', '\t'] (hblank k (by omega) hj) rfl

theorem nests (h : ItemText b i j) (d : Nat) : Nests b i d j d := by
  have hij : i ≤ j := by
    obtain ⟨name, stop, h₁, h₂, h₃, -⟩ := h
    omega
  exact nests_of_satAt hij (fun k hk hlt => h.satAt hk hlt) (Byte.excludes_isMark rfl) d

/-- The text between two items is known by its bytes, wherever it stands. -/
theorem congr (h : ItemText b i j) (hagree : ∀ k, k < j - i → b[i + k]? = b'[m + k]?) :
    ItemText b' m (m + (j - i)) := by
  obtain ⟨name, stop, h₁, h₂, h₃, hlead, hname, hblank⟩ := h
  -- the bytes of the range, by their place in the other text
  have hat {k : Nat} (hm : m ≤ k) (hk : k < m + (j - i)) (p : Byte → Bool) :
      b'.satAt k p = b.satAt (i + (k - m)) p := by
    have := hagree (k - m) (by omega)
    rw [Nat.add_sub_cancel' hm] at this
    exact (Bytes.satAt_congr this p).symm
  -- each of the three parts is moved to its new place
  refine ⟨m + (name - i), m + (stop - i), by omega, by omega, by omega, ?_, ?_, ?_⟩
  · intro k hm hk
    rw [hat hm (by omega)]
    exact hlead _ (by omega) (by omega)
  · intro k hm hk
    rw [hat (by omega) (by omega)]
    exact hname _ (by omega) (by omega)
  · intro k hm hk
    rw [hat (by omega) (by omega)]
    exact hblank _ (by omega) (by omega)

/-- The text between two items, put into another text: `congr` for the bytes that are cut out. -/
theorem of_slice {x y : Bytes} (h : ItemText b i j) (hj : j ≤ b.size) :
    ItemText (x ++ (b.slice i j ++ y)) x.size (x.size + (b.slice i j).size) := by
  rw [Bytes.size_slice hj]
  refine h.congr fun k hk => ?_
  have hsize : k < (b.slice i j).size := by rw [Bytes.size_slice hj]; exact hk
  rw [Bytes.getElem?_append_add, Array.getElem?_append_left hsize, Bytes.getElem?_slice hsize]

end ItemText

/-- **The segments of a list behind its first item**: between the items text is kept. -/
inductive ItemList (b : Bytes) : Nat → List Segment → Nat → Prop where
  | nil (i : Nat) : ItemList b i [] i
  | cons {i start stop j : Nat} {rest : List Segment} (hstart : start ≤ b.size)
      (text : ItemText b i start) (henclosed : Enclosed b start stop)
      (tail : ItemList b stop rest j) :
      ItemList b i (.keep b i start :: .erase b start stop :: rest) j

/-! ### First bytes -/

/-- A byte that an erased text can start with: a letter of a keyword, a blank or a sign. -/
def Byte.startsErased (c : Byte) : Bool :=
  c.isLetter || c.among [' ', '\t', '<', ':', '?', '!']

/-- **An erased text can start at offset `i`.** -/
structure StartsErased (b : Bytes) (i : Nat) : Prop where
  first : b.satAt i Byte.startsErased = true
  /-- It does not carry on a name. -/
  apart : 0 < i → b.satAt (i - 1) Byte.isNamePart = true → b.satAt i Byte.isNamePart = false
  /-- It does not carry on a `::`. -/
  colon : b.isAt i ':' = true → b.isBefore i ':' = false

/-- A keyword does not carry on a name. -/
private theorem not_isNamePart_of_keywordAt {b : Bytes} {i : Nat} {w : String}
    (h : keywordAt b i w = true) (hpos : 0 < i) : b.satAt (i - 1) Byte.isNamePart = false := by
  rw [Bool.eq_false_iff]
  intro hname
  -- a keyword asks for no byte of a name before it
  have hmember : b.satAt (i - 1) (fun c => c.isNamePart || c.is '.') = true :=
    Bytes.satAt_mono hname fun c hc => by rw [hc, Bool.true_or]
  rw [keywordAt, Bool.and_eq_true, Bool.and_eq_true] at h
  simp [hpos, hmember] at h

namespace StartsErased

variable {b : Bytes} {i : Nat}

/-- A keyword can start an erased text: its first byte is a letter, which is no colon, and no name
goes on with it. -/
private theorem of_keywordAt {w : String} (h : keywordAt b i w = true)
    (hw : (Bytes.ofString w).toList.all Byte.isLetter = true)
    (hpos : 0 < (Bytes.ofString w).size) : StartsErased b i := by
  have hletter := isLetter_of_keywordAt h hw hpos
  refine ⟨Bytes.satAt_mono hletter fun c hc => by rw [Byte.startsErased, hc, Bool.true_or], ?_, ?_⟩
  · intro hi hname
    rw [not_isNamePart_of_keywordAt h hi] at hname
    simp at hname
  · intro hcolon
    rw [Bytes.isAt_eq_false hletter rfl] at hcolon
    simp at hcolon

/-- A statement that holds nothing but types starts with a keyword, its own or `export`. -/
private theorem of_statementKeyword {w : String} {after : Nat}
    (h : statementKeyword b i w = some after)
    (hw : (Bytes.ofString w).toList.all Byte.isLetter = true)
    (hpos : 0 < (Bytes.ofString w).size) : StartsErased b i := by
  obtain ⟨start, hword, -, rfl | ⟨hexport, -⟩⟩ := statementKeyword_cases h
  · exact of_keywordAt hword hw hpos
  · exact of_keywordAt hexport rfl (by decide)

/-- A sign or a blank is no part of a name. -/
private theorem of_sign (h : b.satAt i (·.among [' ', '\t', '<', '?', '!']) = true) :
    StartsErased b i where
  first := Bytes.satAt_of_among _ h rfl
  apart := fun _ _ => by
    have hnot := Bytes.satAt_of_among (q := fun c => !c.isNamePart) _ h rfl
    rwa [Bytes.satAt_not (Bytes.lt_size_of_satAt h), Bool.not_eq_true'] at hnot
  colon := fun hcolon => by
    rw [Bytes.isAt_eq_false h rfl] at hcolon
    simp at hcolon

private theorem of_isColon (h : isColon b i = true) : StartsErased b i where
  first := Bytes.satAt_of_isAt (isAt_of_isColon h) _
  apart := fun _ _ => Bytes.satAt_of_isAt (isAt_of_isColon h) _
  colon := fun _ => by simpa using (Bool.and_eq_true_iff.mp h).2

end StartsErased

/-! ### Patches -/

/-- **The patch comments out a construct that starts at offset `start`.** -/
structure Patch.Erases (p : Patch) (b : Bytes) (start : Nat) : Prop where
  starts : StartsErased b start
  arrow : ArrowFree b p.stop
  segments : ∃ stop rest,
    (p.segments = .erase b start stop :: rest ∨
      p.segments = .keep b start start :: .erase b start stop :: rest) ∧
    Enclosed b start stop ∧ ItemList b stop rest p.stop

/-! ### Constructs that are commented out in one piece -/

section Single

variable {b : Bytes} {i : Nat} {m : Match}

/-- A patch that comments out one range. What is erased is enclosed, since the patch cuts its text
at places where nothing is open (`Patch.Severs`). -/
private theorem Patch.Erases.of_severs {p : Patch} (h : p.Severs b m)
    (hp : p.segments = [.erase b m.start p.stop]) (hle : m.start ≤ p.stop)
    (hstarts : StartsErased b m.start) (harrow : ArrowFree b p.stop) : p.Erases b m.start := by
  refine ⟨hstarts, harrow, p.stop, [], .inl hp, ?_, .nil _⟩
  have hcuts := h.cuts
  have hsize := hcuts.seam_right.le_size
  -- the erased range is the first segment, so no segment stands before it
  rw [hp, ← List.nil_append [_]] at hcuts
  have henclosed := hcuts.enclosed_of_erased.2.2
  rwa [Bytes.size_slice hsize, show m.start + Segment.sizeOf [] = m.start from rfl,
    Nat.add_sub_cancel' hle] at henclosed

/-- A declaration is commented out in one piece, whatever ends it. -/
theorem declarationPatch_segments (b : Bytes) (m : Match) (stop : Nat) :
    (declarationPatch b m stop).segments =
      [.erase b m.start (declarationPatch b m stop).stop] := by
  unfold declarationPatch
  split
  · dsimp only
    split <;> rfl
  · rfl

/-- Where a declaration ends there is no head of an arrow, if there is none where its head ends. -/
private theorem arrowFree_declarationPatch {stop : Nat} (h : ArrowFree b stop) :
    ArrowFree b (declarationPatch b m stop).stop := by
  unfold declarationPatch
  split
  · dsimp only
    split
    · -- a body ends behind the bracket that closes it
      rename_i hclose
      rcases findStopFrom_spec hclose with hstop | hclose
      · simp at hstop
      · exact .succ (satAt_of_closesAt hclose) rfl
    · -- a body that is never closed takes the rest of the text
      exact .of_not_isAt (Bytes.satAt_eq_false_of_size_le (Nat.le_refl _))
  · exact h.statementStop _

/-- **A declaration with a name is commented out.** Both kinds of declarations are found by their
keyword and end as `declarationPatch` says; they differ in what ends their heads. -/
private theorem erases_of_namedStatement {w : String} {kind : Construct} {after : Nat}
    {stop : Nat → Bool} (h : namedStatement b i w = some after)
    (hw : (Bytes.ofString w).toList.all Byte.isLetter = true)
    (hpos : 0 < (Bytes.ofString w).size)
    (hsevers : (declarationPatch b ⟨kind, ⟨i, after⟩⟩ (findStop b .type stop after)).Severs b
      ⟨kind, ⟨i, after⟩⟩)
    (hle : i ≤ (declarationPatch b ⟨kind, ⟨i, after⟩⟩ (findStop b .type stop after)).stop)
    (hstop : ∀ k, stop k = true → b.isAt k '>' = false) :
    (declarationPatch b ⟨kind, ⟨i, after⟩⟩ (findStop b .type stop after)).Erases b i :=
  .of_severs hsevers (declarationPatch_segments b _ _) hle
    (.of_statementKeyword (Option.filter_eq_some_iff.mp h).1 hw hpos)
    (arrowFree_declarationPatch (.findStop hstop _))

/-- An interface is commented out. Its head ends with a curly bracket or a semicolon. -/
private theorem interfacePatch_erases (h : interfaceAt b i = some m) :
    (interfacePatch b m).Erases b m.start := by
  have hsevers := interfacePatch_severs h
  have hle := Nat.le_of_lt (interfacePatch_fits h).2.2.lt_stop
  obtain ⟨after, hafter, rfl⟩ := Option.map_eq_some_iff.mp h
  exact erases_of_namedStatement hafter rfl (by decide) hsevers hle fun k hk =>
    Bytes.isAt_eq_false hk rfl

/-- An ambient declaration is commented out. Its head may also end with its line. -/
private theorem ambientPatch_erases (h : ambientAt b i = some m) :
    (ambientPatch b m).Erases b m.start := by
  have hsevers := ambientPatch_severs h
  have hle := Nat.le_of_lt (ambientPatch_fits h).2.2.lt_stop
  obtain ⟨after, hafter, rfl⟩ := Option.map_eq_some_iff.mp h
  refine erases_of_namedStatement hafter rfl (by decide) hsevers hle fun k hk => ?_
  rcases Bool.or_eq_true_iff.mp hk with hk | hk
  · exact Bytes.isAt_eq_false hk rfl
  · exact not_angle_of_endsLine hk

/-- A type alias is commented out: it starts with its keyword and ends as a statement does. -/
private theorem typeAliasPatch_erases (h : typeAliasAt b i = some m) :
    (typeAliasPatch b m).Erases b m.start := by
  have hsevers := typeAliasPatch_severs h
  obtain ⟨-, hstart, hfits⟩ := typeAliasPatch_fits h
  obtain ⟨after, hafter, -⟩ := Option.bind_eq_some_iff.mp h
  subst hstart
  refine .of_severs hsevers rfl (Nat.le_of_lt hfits.lt_stop)
    (.of_statementKeyword hafter rfl (by decide)) (.statementStop (.findStop (fun k hk => ?_) _) _)
  rcases Bool.or_eq_true_iff.mp hk with hk | hk
  · exact Bytes.isAt_eq_false (p := (·.is ';')) hk rfl
  · exact not_angle_of_endsLine hk

/-- A cast is commented out: it starts with the blank before its keyword, and the whitespace behind
its type is kept. -/
private theorem castPatch_erases (h : castAt b i = some m) : (castPatch b m).Erases b m.start := by
  have hsevers := castPatch_severs h
  obtain ⟨-, hstart, hfits⟩ := castPatch_fits h
  have hblank : b.satAt i Byte.isBlank = true := by
    have hcond := (Option.ite_none_right_eq_some.mp h).1
    simp only [Bool.and_eq_true] at hcond
    exact hcond.1.1.1.1.1
  subst hstart
  refine .of_severs hsevers rfl (Nat.le_of_lt hfits.lt_stop)
    (.of_sign (Bytes.satAt_of_among _ hblank rfl)) (.trimEnd (.findStop (fun k hk => ?_) _) _)
  -- a sign ends the type, or the line does
  rcases Bool.or_eq_true_iff.mp hk with hk | hk
  · exact Bytes.isAt_eq_false hk rfl
  · exact not_angle_of_endsLine hk

/-- A list of type arguments is commented out, with both its brackets. -/
private theorem typeArgumentsPatch_erases (h : typeArgumentsAt b i = some m) :
    (typeArgumentsPatch b m).Erases b m.start := by
  have hsevers := typeArgumentsPatch_severs h
  obtain ⟨-, hstart, hfits⟩ := typeArgumentsPatch_fits h
  subst hstart
  refine .of_severs hsevers rfl (Nat.le_of_lt hfits.lt_stop) ?_ ?_
  · -- the list starts with an angle bracket
    have hcond := (Option.ite_none_right_eq_some.mp h).1
    simp only [Bool.and_eq_true] at hcond
    exact .of_sign (Bytes.satAt_of_isAt hcond.1.1.2 _)
  · -- the patch ends behind the bracket that closes the list
    have hlist := (Option.ite_none_right_eq_some.mp h).2
    split at hlist
    · simp at hlist
    · rename_i close hclose
      have hm := Option.some.inj (Option.ite_none_right_eq_some.mp hlist).2
      have hstop : (typeArgumentsPatch b m).stop = close + 1 := by rw [← hm]; rfl
      rw [hstop]
      exact .succ (p := (·.is '>')) (scans_typeListClose hclose).2 rfl

end Single

/-! ### Annotations -/

/-- What leads to the name of an item separates items: whitespace, and the dots of a rest
parameter. -/
theorem satAt_of_lt_itemName {b : Bytes} {i k : Nat} (hik : i ≤ k) (hk : k < itemName b i) :
    b.satAt k Byte.isSeparator = true := by
  by_cases hspace : k < b.skipSpace i
  · exact Bytes.satAt_mono (Bytes.satAt_of_lt_skipWhile hik hspace) Byte.isSeparator_of_isSpace
  · -- the dots of a rest parameter
    unfold itemName at hk
    split at hk
    · rename_i hdots
      have hsize : (Bytes.ofString "...").size = 3 := rfl
      have hdot := Bytes.satAt_of_hasAt hdots (k := k - b.skipSpace i)
        (p := Byte.isSeparator) (by omega) rfl
      rwa [Nat.add_sub_cancel' (by omega)] at hdot
    · omega

/-- What is passed over as a name is one. -/
theorem satAt_of_lt_nameStop {b : Bytes} {i k : Nat} (hik : i ≤ k) (hk : k < nameStop b i) :
    b.satAt k Byte.isNamePart = true := by
  unfold nameStop at hk
  split at hk
  · exact Bytes.satAt_of_lt_skipWhile hik hk
  · omega

/-- **Before an annotated name behind a comma stands no more than that**, and whitespace. -/
theorem itemText_of_nextAnnotated {b : Bytes} {c comma marker colon : Nat} (hc : c ≤ comma)
    (hspace : ∀ k, c ≤ k → k < comma → b.satAt k Byte.isSpace = true)
    (hcomma : b.isAt comma ',' = true)
    (h : nextAnnotated b (comma + 1) = some (marker, colon)) : ItemText b c marker := by
  obtain ⟨-, h⟩ := Option.ite_none_right_eq_some.mp h
  obtain ⟨rfl, -⟩ := Prod.mk.inj (Option.some.inj h)
  have hname := le_itemName b (comma + 1)
  refine ⟨itemName b (comma + 1), _, by omega, le_nameStop b _,
    b.le_skipWhile _ _, fun k hk hlt => ?_, fun k hk hlt => satAt_of_lt_nameStop hk hlt,
    fun k hk hlt => Bytes.satAt_of_lt_skipWhile hk hlt⟩
  -- before the comma there is whitespace, and behind it what leads to the name
  rcases Nat.lt_trichotomy k comma with hbefore | rfl | hbehind
  · exact Bytes.satAt_mono (hspace k hk hbefore) Byte.isSeparator_of_isSpace
  · rw [Bytes.satAt_of_isAt hcomma]
    rfl
  · exact satAt_of_lt_itemName hbehind hlt

namespace AnnotatedItem

variable {b : Bytes} {annotated : Annotated} {item next : AnnotatedItem}

/-- **Between two annotations of a list stands no more than the name of the second one**, with a
comma before it. -/
theorem itemText_next (h : item.next b annotated = some next) :
    ItemText b (item.stop b annotated) next.start := by
  obtain ⟨hcomma, h⟩ := Option.ite_none_right_eq_some.mp h
  obtain ⟨⟨marker, colon⟩, hmarker, rfl⟩ := Option.map_eq_some_iff.mp h
  exact itemText_of_nextAnnotated (b.trimEnd_le _ _)
    (fun _ hk hlt => Bytes.isSpace_of_trimEnd_le hk hlt) hcomma hmarker

/-- What is commented out of an item is enclosed, from its marker to the end of its type. -/
theorem Severed.enclosed (h : item.Severed b) : Enclosed b item.start (item.stop b annotated) :=
  (h.balances_typeStop annotated).enclosed_trimEnd h.head _

/-- The type of an item does not end at the head of an arrow. -/
private theorem arrowFree_stop (item : AnnotatedItem) (b : Bytes) (annotated : Annotated) :
    ArrowFree b (item.stop b annotated) := by
  -- the type ends at a sign, at an `=` that assigns, or with its line
  refine .trimEnd (.findStop (fun k hk => ?_) _) _
  simp only [Bool.or_eq_true, Bool.and_eq_true] at hk
  rcases hk with (hk | hk) | hk
  · exact Bytes.isAt_eq_false hk rfl
  · exact Bytes.isAt_eq_false (p := (·.is '=')) (Bool.and_eq_true_iff.mp hk).1 rfl
  · exact not_angle_of_endsLine hk.2

end AnnotatedItem

/-- The same of the last item of a list. The induction follows the list. -/
private theorem arrowFree_annotatedItems (b : Bytes) (annotated : Annotated)
    (item : AnnotatedItem) : ArrowFree b (annotatedItems b annotated item).stop := by
  fun_induction annotatedItems b annotated item with
  | case1 item _ => exact item.arrowFree_stop b annotated
  | case2 item next _ rest ih => exact ih

/-- **The segments of a list of annotations.** The induction follows the list: the segments of an
item are followed by those of the next one, whose text is copied from where this one stops. -/
theorem annotatedItems_segments {b : Bytes} (annotated : Annotated) {item : AnnotatedItem}
    (h : item.Severed b) :
    ∃ rest, (annotatedItems b annotated item).segments =
        .keep b item.copied item.start :: .erase b item.start (item.stop b annotated) :: rest ∧
      ItemList b (item.stop b annotated) rest (annotatedItems b annotated item).stop := by
  fun_induction annotatedItems b annotated item with
  | case1 item _ => exact ⟨[], rfl, .nil _⟩
  | case2 item next hnext list ih =>
    -- the next item is copied from where this one stops
    obtain ⟨hsevered, hcopied⟩ := AnnotatedItem.severed_next hnext
    obtain ⟨rest, hrest, hlist⟩ := ih hsevered
    refine ⟨list.segments, rfl, ?_⟩
    rw [hrest, hcopied]
    exact .cons hsevered.start.le_size (AnnotatedItem.itemText_next hnext) hsevered.enclosed hlist

/-- Annotations are commented out, item by item; what starts the first of them is a colon or a
marker. -/
private theorem annotationPatch_erases {b : Bytes} {cursor i : Nat} {m : Match}
    (h : annotationAt b cursor i = some m) : (annotationPatch b m).Erases b m.start := by
  obtain ⟨start, annotated, hcolon, hof, -, rfl, hpatch⟩ := annotationAt_cases h
  have his := isAt_of_isColon hcolon
  have hsevered := severed_of_annotationOf his hof
  obtain ⟨rest, hsegments, hlist⟩ := annotatedItems_segments annotated hsevered
  rw [hpatch]
  refine ⟨?_, arrowFree_annotatedItems b annotated _, _, rest, .inr hsegments, hsevered.enclosed,
    hlist⟩
  -- the patch starts with the colon, or with a marker before it
  rcases annotationOf_cases hof (Nat.le_of_lt (Bytes.lt_size_of_isAt his)) with rfl | ⟨hmark, -⟩
  · exact .of_isColon hcolon
  · exact .of_sign (Bytes.satAt_of_among _ hmark rfl)

/-! ### All constructs -/

/-- **Constructs that are not literals are commented out**, but for return types and class members.
One case for each kind of construct. -/
theorem patchOf_erases {b : Bytes} {cursor i : Nat} {k : Construct} {m : Match}
    (hliteral : k.literalKind? = none) (hreturn : k ≠ .returnType) (hclass : k ≠ .classMembers)
    (h : k.matchAt b cursor i = some m) : (patchOf b m).Erases b m.start := by
  have hkind := kind_of_matchAt h
  unfold patchOf
  cases k with
  | literal kind => simp [Construct.literalKind?] at hliteral
  | ambient => rw [hkind]; exact ambientPatch_erases h
  | typeAlias => rw [hkind]; exact typeAliasPatch_erases h
  | interface => rw [hkind]; exact interfacePatch_erases h
  | classMembers => exact (hclass rfl).elim
  | typeArguments => rw [hkind]; exact typeArgumentsPatch_erases h
  | returnType => exact (hreturn rfl).elim
  | annotated => rw [hkind]; exact annotationPatch_erases h
  | cast => rw [hkind]; exact castPatch_erases h

end TypeErasure
