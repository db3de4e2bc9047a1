import TypeErasure.Proofs.Alike.Construct
import TypeErasure.Proofs.Stepwise
import TypeErasure.Proofs.TypeText

/-!
# Lists of parameters

A `Param` is a name with a type. In a list of such parameters the patch of the first annotation goes
on to the last one (`annotatedItems_params`), so that one round writes the whole list
(`Rules.Writes.params`).

When the types have been commented out, a search from the end of the list backward passes over names
and comments alike (`scanBack_outputOf`) and comes to the bracket that opens the list
(`enclosingOpen_params`).
-/

namespace TypeErasure

/-- A parameter with a type. -/
structure Param where
  name : Ident
  type : TypeText [',', ';']

/-- The parameters behind the first one, divided into what is kept and what is commented out. -/
def laterParams (ps : List Param) : List Piece :=
  ps.flatMap fun p => [.kept (Bytes.ofString ", " ++ p.name.bytes), .erased p.type.ascription]

/-- A list of parameters, divided into what is kept and what is commented out. -/
def paramPieces : List Param → List Piece
  | [] => []
  | p :: rest => .kept p.name.bytes :: .erased p.type.ascription :: laterParams rest

private theorem laterParams_cons (p : Param) (ps : List Param) :
    laterParams (p :: ps) =
      .kept (Bytes.ofString ", " ++ p.name.bytes) :: .erased p.type.ascription :: laterParams ps :=
  rfl

private theorem sourceOf_laterParams_cons (p : Param) (ps : List Param) :
    Piece.sourceOf (laterParams (p :: ps)) = Bytes.ofString ", " ++
      (p.name.bytes ++ (p.type.ascription ++ Piece.sourceOf (laterParams ps))) := by
  rw [laterParams_cons, Piece.sourceOf_cons, Piece.sourceOf_cons]
  exact Array.append_assoc

/-! ### The annotations of a list -/

section Items

variable {b : Bytes} {i : Nat}

/-- The type of a parameter ends where the next sign of the list stands. There is a reason to stop
there, and none at the blank before the type or within it. -/
theorem annotatedTypeStop_eq {T : TypeText [',', ';']} (h : b.Holds i T.ascription)
    (hend : b.satAt (i + T.ascription.size) (·.among [',', ')']) = true) :
    annotatedTypeStop b .parameter (i + 1) = i + T.ascription.size := by
  obtain ⟨-, hblank, htype⟩ := TypeText.ascription_cases h
  have hsize : i + T.ascription.size = i + 1 + 1 + T.bytes.size := by
    rw [T.size_ascription]
    omega
  rw [hsize] at hend ⊢
  refine T.findStop_eq hblank htype ?_ (fun k hk hbar => ?_) ?_
  · -- the blank in front of the type is no reason to stop
    rw [isAssign, Bytes.isAt_eq_satAt, Bytes.satAt_of_isAt hblank, Bytes.satAt_of_isAt hblank]
    rfl
  · rw [T.not_among htype hk hbar, T.not_isAssign htype hk hbar]
    rfl
  · -- a comma ends the search, and so does a bracket that was not opened
    obtain ⟨ch, hch, hat⟩ := Bytes.exists_isAt_of_among hend
    simp only [List.mem_cons, List.not_mem_nil, or_false] at hch
    rcases hch with rfl | rfl
    · refine findStopFrom_of_stop (Bytes.lt_size_of_isAt hat) ?_ .type
      rw [Bytes.satAt_of_isAt hat]
      rfl
    · exact findStopFrom_of_isCloser (Bytes.satAt_of_isAt hat _)

/-- A colon behind a name and in front of a blank stands alone. -/
private theorem isColon_of_name {x : Ident} (h : b.Holds i x.bytes)
    (hcolon : b.isAt (i + x.bytes.size) ':' = true)
    (hblank : b.isAt (i + x.bytes.size + 1) ' ' = true) : isColon b (i + x.bytes.size) = true := by
  have hpos := x.size_pos
  have hpart : b.satAt (i + x.bytes.size - 1) Byte.isNamePart = true :=
    Ident.isNamePart h (by omega) (by omega)
  have hnext : b.isAt (i + x.bytes.size + 1) ':' = false :=
    (Bytes.satAt_of_isAt hblank _).trans rfl
  rw [isColon, hcolon, hnext, Bytes.isBefore, Bytes.isAt_eq_false hpart rfl]
  simp

/-- The next parameter of a list is found behind its comma. Its name starts behind one blank and
ends at the colon, which stands alone. -/
theorem nextAnnotated_eq {p : Param}
    (h : b.Holds i (Bytes.ofString " " ++ (p.name.bytes ++ p.type.ascription))) :
    nextAnnotated b i = some (i + 1 + p.name.bytes.size, i + 1 + p.name.bytes.size) := by
  simp only [Bytes.holds_append] at h
  obtain ⟨hspace, hname, hascription⟩ := h
  have hname : b.Holds (i + 1) p.name.bytes := hname
  obtain ⟨hcolon, hblank, -⟩ := TypeText.ascription_cases hascription
  have hcolon : b.isAt (i + 1 + p.name.bytes.size) ':' = true := hcolon
  have hstart := Ident.isNameStart hname
  have hskip : b.skipSpace i = i + 1 :=
    hspace.skipWhile_eq rfl (Bytes.satAt_eq_false hstart (Byte.excludes_isSpace rfl))
  have hitem : itemName b i = i + 1 := by
    rw [itemName, hskip, if_neg fun hdots => ?_]
    -- a name does not start with a dot
    have hdot : b.isAt (i + 1) '.' = true :=
      Bytes.satAt_of_hasAt (k := 0) hdots (by decide) rfl
    rw [Bytes.isAt_eq_false hstart rfl] at hdot
    simp at hdot
  have hstop : nameStop b (i + 1) = i + 1 + p.name.bytes.size :=
    Ident.nameStop_eq hname ((Bytes.satAt_of_isAt hcolon _).trans rfl)
  have hblanks : b.skipBlanks (i + 1 + p.name.bytes.size) = i + 1 + p.name.bytes.size :=
    Bytes.skipWhile_eq (Nat.le_refl _) (fun k hk hki => by omega)
      ((Bytes.satAt_of_isAt hcolon _).trans rfl)
  have hmarker : markerColon b (i + 1 + p.name.bytes.size) = i + 1 + p.name.bytes.size := by
    rw [markerColon, Bytes.isAt_eq_satAt, Bytes.satAt_of_isAt hcolon]
    rfl
  have hpos := p.name.size_pos
  rw [nextAnnotated, hitem]
  simp only [hstop, hblanks, hmarker, isColon_of_name hname hcolon hblank]
  simp [hpos]

/-- One parameter of a list: its type ends with ink, so that nothing is trimmed. -/
private theorem annotatedItem_eq {T : TypeText [',', ';']} (h : b.Holds i T.ascription)
    (hend : b.satAt (i + T.ascription.size) (·.among [',', ')']) = true) (copied : Nat) :
    (AnnotatedItem.mk copied i i).typeStop b .parameter = i + T.ascription.size ∧
      (AnnotatedItem.mk copied i i).stop b .parameter = i + T.ascription.size ∧
        (AnnotatedItem.mk copied i i).segments b .parameter =
          [.keep b copied i, .piece (.erased T.ascription)] := by
  have htype : (AnnotatedItem.mk copied i i).typeStop b .parameter = i + T.ascription.size :=
    annotatedTypeStop_eq h hend
  have hstop : (AnnotatedItem.mk copied i i).stop b .parameter = i + T.ascription.size := by
    have hpos : i < i + T.ascription.size := by
      rw [T.size_ascription]
      omega
    rw [AnnotatedItem.stop, htype]
    exact Bytes.trimEnd_of_ink hpos (TypeText.ascription_last h)
  refine ⟨htype, hstop, ?_⟩
  rw [AnnotatedItem.segments, hstop, Segment.erase, h.slice]

/-- A comma leads to the next parameter. -/
private theorem annotatedItem_next {p q : Param}
    (h : b.Holds i
      (p.type.ascription ++ (Bytes.ofString ", " ++ (q.name.bytes ++ q.type.ascription))))
    (copied : Nat) :
    (AnnotatedItem.mk copied i i).next b .parameter =
      some ⟨i + p.type.ascription.size, i + p.type.ascription.size + 2 + q.name.bytes.size,
        i + p.type.ascription.size + 2 + q.name.bytes.size⟩ := by
  have hsplit : Bytes.ofString ", " = Bytes.ofString "," ++ Bytes.ofString " " := rfl
  rw [Bytes.holds_append, hsplit, Array.append_assoc, Bytes.holds_append] at h
  obtain ⟨hascription, hcomma, hitem⟩ := h
  have hitem : b.Holds (i + p.type.ascription.size + 1) _ := hitem
  have hcomma : b.isAt (i + p.type.ascription.size) ',' = true := hcomma.isAt_head rfl
  obtain ⟨htype, hstop, -⟩ := annotatedItem_eq hascription (Bytes.satAt_of_isAt hcomma _) copied
  rw [AnnotatedItem.next, htype, hstop]
  simp only [hcomma, if_true, nextAnnotated_eq hitem, Option.map_some]

/-- **The annotations of a list are commented out one by one.** By induction on the parameters
behind the first one. -/
theorem annotatedItems_params {p : Param} {ps : List Param}
    (h : b.Holds i (p.type.ascription ++ (Piece.sourceOf (laterParams ps) ++ Bytes.ofString ")")))
    (copied : Nat) :
    annotatedItems b .parameter ⟨copied, i, i⟩ =
      { stop := i + p.type.ascription.size + (Piece.sourceOf (laterParams ps)).size
        segments := .keep b copied i :: .piece (.erased p.type.ascription) ::
          (laterParams ps).map .piece } := by
  induction ps generalizing p i copied with
  | nil =>
    obtain ⟨hascription, hclose⟩ := Bytes.holds_append.mp h
    have hclose : b.isAt (i + p.type.ascription.size) ')' = true := hclose.isAt_head rfl
    obtain ⟨htype, hstop, hsegments⟩ :=
      annotatedItem_eq hascription (Bytes.satAt_of_isAt hclose _) copied
    -- no comma follows, so the list is over
    have hnext : (AnnotatedItem.mk copied i i).next b .parameter = none := by
      rw [AnnotatedItem.next, htype]
      exact if_neg (by rw [Bytes.isAt_eq_satAt, Bytes.satAt_of_isAt hclose]; decide)
    rw [Alike.annotatedItems_eq_match, hnext]
    simp only [hstop, hsegments]
    rfl
  | cons q rest ih =>
    simp only [sourceOf_laterParams_cons, Array.append_assoc, Bytes.holds_append] at h
    obtain ⟨hascription, hcomma, hname, hnext, hrest, hclose⟩ := h
    have hkept : b.slice (i + p.type.ascription.size)
        (i + p.type.ascription.size + 2 + q.name.bytes.size) =
          Bytes.ofString ", " ++ q.name.bytes := by
      have hkept := (hcomma.append hname).slice
      rwa [Array.size_append, ← Nat.add_assoc] at hkept
    have hitem := annotatedItem_next
      (hascription.append (hcomma.append (hname.append hnext))) copied
    obtain ⟨-, -, hsegments⟩ := annotatedItem_eq hascription (hcomma.satAt_head rfl) copied
    -- the comma and the name of `q` are kept by the item of `q`, not by that of `p`
    have htail := ih (i := i + p.type.ascription.size + 2 + q.name.bytes.size)
      (hnext.append (hrest.append hclose))
      (i + p.type.ascription.size)
    have hsize : i + p.type.ascription.size + 2 + q.name.bytes.size + q.type.ascription.size +
        (Piece.sourceOf (laterParams rest)).size =
          i + p.type.ascription.size + (Piece.sourceOf (laterParams (q :: rest))).size := by
      rw [sourceOf_laterParams_cons]
      simp only [Array.size_append]
      rw [show (Bytes.ofString ", ").size = 2 from rfl]
      omega
    rw [Alike.annotatedItems_eq_match, hitem]
    simp only [htail, hsegments, hsize, Segment.keep, hkept, laterParams_cons]
    rfl

end Items

/-! ### Backward over the list -/

/-- A scan that passes over the bytes of the class `p` passes over what is written for the piece. -/
def Piece.PassedBy (p : Byte → Bool) : Piece → Prop
  | .kept t => t.toList.all p = true
  | .erased t => ∀ k, t.isAt k '/' = false

/-- **A scan backward passes over what is written for pieces**, and sees their kept parts only. By
induction on the pieces. -/
theorem scanBack_outputOf {σ α : Type} {b : Bytes} {visit : σ → Nat → Visit σ α} {s : σ}
    {p : Byte → Bool} (hslash : p (Byte.ofChar '/') = false)
    (hgo : ∀ k, b.satAt k p = true → visit s k = .go s) {ps : List Piece} {i : Nat}
    (hps : ∀ q ∈ ps, q.PassedBy p) (h : b.Holds i (Piece.outputOf ps)) :
    scanBack b visit s (i + (Piece.outputOf ps).size) = scanBack b visit s i := by
  induction ps generalizing i with
  | nil => rfl
  | cons q rest ih =>
    rw [Piece.outputOf_cons, Bytes.holds_append] at h
    rw [Piece.outputOf_cons, Array.size_append, ← Nat.add_assoc,
      ih (fun q hq => hps q (List.mem_cons_of_mem _ hq)) h.2]
    have hq := hps q List.mem_cons_self
    -- the scan leaves a piece in the state in which it entered it: a comment is jumped over whole
    cases q with
    | kept t =>
      have hsat {k : Nat} (hik : i ≤ k) (hk : k < i + t.size) : b.satAt k p = true :=
        h.1.satAt_of_all hq hik hk
      exact scanBack_of_go (Nat.le_add_right _ _)
        (fun k hik hk => Bytes.isAt_eq_false (hsat hik hk) hslash)
        (fun k hik hk => hgo k (hsat hik hk))
    | erased t => exact scanBack_commentOut h.1 hq

/-- The bytes between the types of a list. -/
def Byte.isListPart (c : Byte) : Bool :=
  c.isNamePart || c.among [' ', ',']

theorem Ident.all_isListPart (x : Ident) : x.bytes.toList.all Byte.isListPart = true :=
  List.all_eq_true.mpr fun c hc => by
    rw [Byte.isListPart, List.all_eq_true.mp x.parts c hc, Bool.true_or]

/-- A scan backward passes over what is written for a list: names, commas, blanks and comments. -/
theorem passedBy_paramPieces (ps : List Param) :
    ∀ q ∈ paramPieces ps, q.PassedBy Byte.isListPart := by
  have hlater : ∀ q ∈ laterParams ps.tail, q.PassedBy Byte.isListPart := by
    intro q hq
    obtain ⟨p, -, hp⟩ := List.mem_flatMap.mp hq
    simp only [List.mem_cons, List.not_mem_nil, or_false] at hp
    rcases hp with rfl | rfl
    · -- a comma, a blank and a name are kept, and a type is commented out
      rw [Piece.PassedBy, Array.toList_append, List.all_append, p.name.all_isListPart]
      rfl
    · exact p.type.ascription_noSlash
  cases ps with
  | nil => simp [paramPieces]
  | cons p rest =>
    simp only [paramPieces, List.mem_cons]
    rintro q (rfl | rfl | hq)
    · exact p.name.all_isListPart
    · exact p.type.ascription_noSlash
    · exact hlater q hq

/-- The end of a list of parameters is in the bracket that opens the list. The scan passes over the
whole list and halts there. -/
theorem enclosingOpen_params {b : Bytes} {i : Nat} {ps : List Param} (hopen : b.isAt i '(' = true)
    (h : b.Holds (i + 1) (Piece.outputOf (paramPieces ps))) :
    enclosingOpen b (i + 1 + (Piece.outputOf (paramPieces ps)).size) = some i := by
  have hopener : b.satAt i Byte.isOpener = true := Bytes.satAt_of_isAt hopen _
  have hcloser : b.satAt i Byte.isCloser = false := (Bytes.satAt_of_isAt hopen _).trans rfl
  rw [enclosingOpen, visitEnclosing, scanBack_outputOf (p := Byte.isListPart) rfl (fun k hk => ?_)
    (passedBy_paramPieces ps) h, scanBack_of_halt (a := some i)]
  · rfl
  · exact (Bytes.satAt_of_isAt hopen _).trans rfl
  · simp [visitOutside, hopener, hcloser]
  · -- between the types there are neither brackets nor semicolons
    have hsemicolon : b.isAt k ';' = false := Bytes.isAt_eq_false hk rfl
    rw [visitOutside_zero hk rfl, hsemicolon]
    rfl

/-! ### The first annotation -/

section First

variable {b : Bytes} {i : Nat} {p : Param}

/-- What follows the bracket of a list is a parameter. -/
private theorem annotatedBy_first (hopen : b.isAt i '(' = true) :
    annotatedBy b (i + 1) = some .parameter := by
  have hopener : b.lastInk (i + 1) = some i := by
    refine Bytes.lastInk_of_ink (by omega) ?_ fun m hm hmi => by omega
    rw [Bytes.satAt_of_isAt hopen]
    rfl
  have hdots : (decide (3 ≤ i + 1) && b.hasAt (i + 1 - 3) "...") = false := by
    rw [Bool.and_eq_false_iff, decide_eq_false_iff_not]
    by_cases hle : 3 ≤ i + 1
    · refine .inr (eq_false_of_ne_true fun hdots => ?_)
      -- the last of the dots would stand in place of the bracket
      have hdot : b.isAt (i + 1 - 3 + 2) '.' = true := Bytes.satAt_of_hasAt hdots (by decide) rfl
      rw [show i + 1 - 3 + 2 = i by omega, Bytes.isAt_eq_satAt, Bytes.satAt_of_isAt hopen] at hdot
      exact absurd hdot (by decide)
    · exact .inl hle
  rw [annotatedBy, hdots]
  simp [hopener, hopen]

/-- The first name of a list is annotated as a parameter: the last ink before the colon ends a name
that starts behind the bracket. -/
private theorem annotationOf_first (hopen : b.isAt i '(' = true)
    (hname : b.Holds (i + 1) p.name.bytes) :
    annotationOf b (i + 1 + p.name.bytes.size) =
      some (i + 1 + p.name.bytes.size, .parameter) := by
  have hpos := p.name.size_pos
  have hpart : b.satAt (i + 1 + p.name.bytes.size - 1) Byte.isNamePart = true :=
    Ident.isNamePart hname (by omega) (by omega)
  -- the last ink is the end of the name, and no marker
  have hlast : b.lastInk (i + 1 + p.name.bytes.size) = some (i + 1 + p.name.bytes.size - 1) := by
    refine Bytes.lastInk_of_ink (by omega) ?_ fun m hm hmi => by omega
    rw [Bytes.satAt_not (Bytes.lt_size_of_satAt hpart),
      Bytes.satAt_eq_false hpart (Byte.excludes_isSpace rfl)]
    rfl
  have hmark : b.satAt (i + 1 + p.name.bytes.size - 1) (·.among ['?', '!']) = false :=
    Bytes.satAt_eq_false hpart (Byte.excludes_among rfl)
  -- the name starts behind the bracket
  have hpattern : patternStart b (i + 1 + p.name.bytes.size - 1) = some (i + 1) := by
    have hclose : b.satAt (i + 1 + p.name.bytes.size - 1) (·.among ['}', ']']) = false :=
      Bytes.satAt_eq_false hpart (Byte.excludes_among rfl)
    have hstart : nameStart b (i + 1 + p.name.bytes.size) = i + 1 :=
      Ident.nameStart_eq hname (.inr ((Bytes.satAt_of_isAt hopen _).trans rfl))
    rw [patternStart, hclose, Nat.sub_add_cancel (by omega), hstart]
    simp [hpos]
  simp only [annotationOf, hlast, hmark, hpattern, annotatedBy_first hopen, Option.bind_eq_bind,
    Option.bind_some, Bool.false_eq_true, if_false]

/-- A name is no list of parameters. -/
private theorem not_followsParameters {x : Ident} (h : b.Holds i x.bytes) :
    followsParameters b (i + x.bytes.size) = false := by
  have hpos := x.size_pos
  exact not_followsParameters_of_ink (Ident.isNamePart h (k := i + x.bytes.size - 1) (by omega)
    (by omega)) (Byte.excludes_isSpace rfl) rfl (by omega) fun j hj hlt => by omega

/-- **The first annotation of a list is a construct.** Of those that rank before it only a return
type starts with a colon, and no return type follows a name. -/
theorem nextMatch_first {r : Rules} (hon : r.enables .annotated = true)
    (hopen : b.isAt i '(' = true) (h : b.Holds (i + 1) (p.name.bytes ++ p.type.ascription)) :
    r.nextMatch b (i + 1 + p.name.bytes.size) =
      some ⟨.annotated, ⟨i + 1 + p.name.bytes.size, i + 1 + p.name.bytes.size + 1⟩⟩ := by
  obtain ⟨hname, hascription⟩ := Bytes.holds_append.mp h
  obtain ⟨hcolon, hblank, -⟩ := TypeText.ascription_cases hascription
  refine Rules.nextMatch_of_matchAt hon ?_ rfl fun k hk => ?_
  · rw [Construct.matchAt, annotationAt, isColon_of_name hname hcolon hblank,
      annotationOf_first hopen hname]
    simp
  · -- a return type has its colon behind a list
    by_cases hreturn : k = .returnType
    · rw [hreturn, Construct.matchAt, returnTypeAt, returnTypeStop, not_followsParameters hname]
      simp
    · have hstarts : ∀ k ∈ Construct.all, k.rank < Construct.annotated.rank → k ≠ .returnType →
          k.starts (Byte.ofChar ':') = false := by decide
      exact matchAt_eq_none_of_starts
        ((Bytes.satAt_of_isAt hcolon _).trans (hstarts k (Construct.mem_all k) hk hreturn))

/-- The patch of the first annotation is that of the whole list. -/
private theorem patchOf_first {ps : List Param} (hopen : b.isAt i '(' = true)
    (h : b.Holds (i + 1) (p.name.bytes ++ (p.type.ascription ++
      (Piece.sourceOf (laterParams ps) ++ Bytes.ofString ")")))) :
    patchOf b ⟨.annotated, ⟨i + 1 + p.name.bytes.size, i + 1 + p.name.bytes.size + 1⟩⟩ =
      { stop := i + 1 + p.name.bytes.size + p.type.ascription.size +
          (Piece.sourceOf (laterParams ps)).size
        segments := (.kept #[] :: .erased p.type.ascription :: laterParams ps).map .piece } := by
  obtain ⟨hname, hlist⟩ := Bytes.holds_append.mp h
  simp only [patchOf, annotationPatch, Match.start, Match.stop, Nat.add_sub_cancel,
    annotationOf_first hopen hname, annotatedItems_params hlist, Segment.keep, Bytes.slice_self,
    List.map_cons]

/-- Nothing starts within the first name, as it starts no statement and a colon follows it. -/
private theorem silentAt_first (hopen : b.isAt i '(' = true)
    (h : b.Holds (i + 1) (p.name.bytes ++ p.type.ascription)) {k : Nat} (hik : i + 1 ≤ k)
    (hk : k < i + 1 + p.name.bytes.size) : SilentAt b k := by
  obtain ⟨hname, hascription⟩ := Bytes.holds_append.mp h
  obtain ⟨hcolon, -, -⟩ := TypeText.ascription_cases hascription
  have hstatement : atStatementStart b (i + 1) = false :=
    not_atStatementStart (Nat.lt_succ_self i) ((Bytes.satAt_of_isAt hopen _).trans rfl)
      fun m hm hmi => by omega
  have hskip : b.skipBlanks (i + 1 + p.name.bytes.size) = i + 1 + p.name.bytes.size :=
    Bytes.skipWhile_eq (Nat.le_refl _) (fun m hm hmi => by omega)
      ((Bytes.satAt_of_isAt hcolon _).trans rfl)
  refine Ident.silentAt hname ((Bytes.satAt_of_isAt hcolon _).trans rfl) (.inl hstatement)
    (.inr ?_) hik hk
  rw [hskip]
  exact not_keywordAt_of_not_isLetter ((Bytes.satAt_of_isAt hcolon _).trans rfl) rfl (by decide)

end First

/-- **A list of parameters is written with its types commented out.** The first name is copied, and
one round writes all that follows; an empty list is left as it is. -/
theorem Rules.Writes.params {r : Rules} (hon : r.enables .annotated = true) {done rest out : Bytes}
    (ps : List Param) (h : r.Writes (done ++ Bytes.ofString "(" ++ Piece.outputOf (paramPieces ps))
      (Bytes.ofString ")" ++ rest) out) :
    r.Writes (done ++ Bytes.ofString "(")
      (Piece.sourceOf (paramPieces ps) ++ (Bytes.ofString ")" ++ rest))
      (Piece.outputOf (paramPieces ps) ++ out) := by
  cases ps with
  | nil => simpa [paramPieces, Piece.sourceOf, Piece.outputOf] using h
  | cons p ps =>
    have hsource : Piece.sourceOf (paramPieces (p :: ps)) =
        p.name.bytes ++ (p.type.ascription ++ Piece.sourceOf (laterParams ps)) := by
      rw [paramPieces, Piece.sourceOf_cons, Piece.sourceOf_cons]
      rfl
    have houtput : Piece.outputOf (paramPieces (p :: ps)) = p.name.bytes ++
        Piece.outputOf (.kept #[] :: .erased p.type.ascription :: laterParams ps) := by
      simp only [paramPieces, Piece.outputOf_cons, Piece.output, Array.empty_append]
    rw [houtput, ← Array.append_assoc] at h
    rw [hsource, houtput, @Array.append_assoc _ p.name.bytes (p.type.ascription ++ _),
      @Array.append_assoc _ p.name.bytes]
    obtain ⟨b, hb⟩ : ∃ b : Bytes, b = done ++ Bytes.ofString "(" ++ (p.name.bytes ++
        (p.type.ascription ++ Piece.sourceOf (laterParams ps) ++ (Bytes.ofString ")" ++ rest))) :=
      ⟨_, rfl⟩
    have hplaced : b.Holds done.size (Bytes.ofString "(" ++ (p.name.bytes ++ (p.type.ascription ++
        (Piece.sourceOf (laterParams ps) ++ (Bytes.ofString ")" ++ rest))))) := by
      rw [hb]
      simp only [Array.append_assoc]
      exact Bytes.holds_append_right _ _
    simp only [Bytes.holds_append] at hplaced
    obtain ⟨hopen, hname, hascription, hlater, hclose, -⟩ := hplaced
    have hopen : b.isAt done.size '(' = true := hopen.isAt_head rfl
    have hsize : (done ++ Bytes.ofString "(").size = done.size + 1 := Array.size_append
    -- the first name is copied, and its annotation writes the rest of the list
    refine Rules.Writes.copy hb (fun k hk hki => ?_) ?_
    · rw [hsize] at hk hki
      exact silentAt_first hopen (hname.append hascription) hk hki
    · have hnext := nextMatch_first hon hopen (hname.append hascription)
      have hpatch := patchOf_first hopen (hname.append (hascription.append (hlater.append hclose)))
      rw [← hsize, ← Array.size_append] at hnext hpatch
      refine Rules.Writes.round (hb.trans Array.append_assoc.symm) hnext rfl ?_ ?_ h
      · rw [hpatch]
        simp only [Array.size_append, Nat.add_assoc]
      · rw [hpatch]

end TypeErasure
