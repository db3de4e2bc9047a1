import TypeErasure.Proofs.Alike.Class
import TypeErasure.Proofs.Stepwise
import TypeErasure.Proofs.TypeText

/-!
# Classes made of fields

A `FieldClass` is a class whose body holds nothing but typed fields, each in its own line: any
number of modifiers, a name, a marker and a type. Its text is divided into what means something at
run time and what does not (`FieldClass.pieces`).

Main statement: the erasure of such a class comments out exactly its types, their markers and the
modifiers that only types know (`erase_fieldClass`). The walk through the body reads the fields one
after another (`walkMembers_fields`) up to the closing bracket, so that the run has nothing left to
find.
-/

namespace TypeErasure

/-! ### Fields -/

/-- A modifier of a field. -/
structure FieldModifier where
  word : String
  known : word ∈ ["public", "private", "protected", "readonly", "override", "static", "accessor"]

namespace FieldModifier

/-- The modifier and the space behind it. -/
def text (m : FieldModifier) : Bytes :=
  Bytes.ofString m.word ++ Bytes.ofString " "

/-- Only `static` and `accessor` mean something at run time. -/
def piece (m : FieldModifier) : Piece :=
  if m.word ∈ ["static", "accessor"] then .kept m.text else .erased m.text

/-- The source of a modifier is its text, kept or not. -/
private theorem source_piece (m : FieldModifier) : m.piece.source = m.text := by
  rw [piece]
  split <;> rfl

/-- The modifier as a name. -/
def ident (m : FieldModifier) : Ident where
  bytes := Bytes.ofString m.word
  head := (by decide : ∀ w ∈ ["public", "private", "protected", "readonly", "override", "static",
    "accessor"], (Bytes.ofString w).satAt 0 Byte.isNameStart = true) m.word m.known
  parts := (by decide : ∀ w ∈ ["public", "private", "protected", "readonly", "override", "static",
    "accessor"], (Bytes.ofString w).toList.all Byte.isNamePart = true) m.word m.known

/-- The words that the eraser tells the modifier from, checked for all seven. -/
private theorem any_words (m : FieldModifier) :
    (ghostModifiers.any fun w => Bytes.ofString w == m.ident.bytes) = false ∧
      (typeModifiers.any fun w => Bytes.ofString w == m.ident.bytes) =
        !decide (m.word ∈ ["static", "accessor"]) ∧
      (fieldModifiers.any fun w => Bytes.ofString w == m.ident.bytes) =
        decide (m.word ∈ ["static", "accessor"]) :=
  (by decide : ∀ v ∈ ["public", "private", "protected", "readonly", "override", "static",
    "accessor"], (ghostModifiers.any fun w => Bytes.ofString w == Bytes.ofString v) = false ∧
      (typeModifiers.any fun w => Bytes.ofString w == Bytes.ofString v) =
        !decide (v ∈ ["static", "accessor"]) ∧
      (fieldModifiers.any fun w => Bytes.ofString w == Bytes.ofString v) =
        decide (v ∈ ["static", "accessor"])) m.word m.known

theorem size_text (m : FieldModifier) : m.text.size = m.ident.bytes.size + 1 := by
  rw [text, Array.size_append]
  rfl

end FieldModifier

/-- The marker between the name and the type of a field. -/
inductive Marker where
  | none
  | optional
  | definite
  deriving DecidableEq, Repr

def Marker.text : Marker → Bytes
  | none => #[]
  | optional => Bytes.ofString "?"
  | definite => Bytes.ofString "!"

/-- A field with a type. -/
structure ClassField where
  modifiers : List FieldModifier
  name : Ident
  marker : Marker
  type : TypeText [';', '\n']
  name_ne : name.bytes ≠ Bytes.ofString "constructor"

namespace ClassField

/-- The marker and the type. -/
def ascription (f : ClassField) : Bytes :=
  f.marker.text ++ (Bytes.ofString ": " ++ f.type.bytes)

/-- The line of the field, divided into what is kept and what is commented out. -/
def pieces (f : ClassField) : List Piece :=
  .kept (Bytes.ofString "\n  ") :: (f.modifiers.map FieldModifier.piece ++
    [.kept f.name.bytes, .erased f.ascription, .kept (Bytes.ofString ";")])

end ClassField

/-- A class whose body is a list of fields. -/
structure FieldClass where
  name : Ident
  fields : List ClassField
  name_ne_as : name.bytes ≠ Bytes.ofString "as"
  name_ne_implements : name.bytes ≠ Bytes.ofString "implements"

/-- The class, divided into what is kept and what is commented out. -/
def FieldClass.pieces (c : FieldClass) : List Piece :=
  .kept (Bytes.ofString "class ") :: .kept c.name.bytes :: .kept (Bytes.ofString " \x7b") ::
    (c.fields.flatMap ClassField.pieces ++ [.kept (Bytes.ofString "\n\x7d")])

/-! ### Modifiers -/

/-- Code goes on behind whitespace. -/
private theorem skipTrivia_of_skipSpace {b : Bytes} {i j : Nat} (h : b.skipSpace i = j)
    (hinert : b.satAt j Byte.opensInert = false) : skipTrivia b i = j := by
  rw [skipTrivia_eq_ite, h, literalAt_eq_none_of_not_opensInert hinert]

section Members

variable {b : Bytes} {i k : Nat}

/-- A name behind modifiers starts with a name byte, as the modifiers do. -/
private theorem isNameStart_of_modifiers {ms : List FieldModifier} {x : Ident}
    (h : b.Holds k (Piece.sourceOf (ms.map FieldModifier.piece) ++ x.bytes)) :
    b.satAt k Byte.isNameStart = true := by
  cases ms with
  | nil =>
    rw [List.map_nil, Piece.sourceOf_nil, Array.empty_append] at h
    exact Ident.isNameStart h
  | cons m rest =>
    rw [List.map_cons, Piece.sourceOf_cons, m.source_piece, FieldModifier.text] at h
    simp only [Bytes.holds_append] at h
    exact Ident.isNameStart (x := m.ident) h.1.1.1

/-- A modifier ends with its space, if a name follows. The word that is read there is the
modifier. -/
theorem modifierStop_eq {m : FieldModifier} (h : b.Holds k m.text)
    (hnext : b.satAt (k + m.text.size) Byte.isNameStart = true) :
    modifierStop b k = some (k + m.text.size) ∧
      ∀ words, wordAt b k words = words.any fun w => Bytes.ofString w == m.ident.bytes := by
  have hword : b.Holds k m.ident.bytes := (Bytes.holds_append.mp h).1
  have hspace : b.isAt (k + m.ident.bytes.size) ' ' = true :=
    (Bytes.holds_append.mp h).2.isAt_head rfl
  have hend : b.satAt (k + m.ident.bytes.size) Byte.isNamePart = false :=
    (Bytes.satAt_of_isAt hspace _).trans rfl
  -- one space stands between the modifier and what follows
  have hskip : b.skipBlanks (k + m.ident.bytes.size) = k + m.text.size := by
    rw [m.size_text] at hnext ⊢
    refine Bytes.skipWhile_eq (by omega) (fun n hn hnk => ?_) ?_
    · rw [show n = k + m.ident.bytes.size by omega, Bytes.satAt_of_isAt hspace]
      rfl
    · exact Bytes.satAt_eq_false hnext (Byte.excludes_among rfl)
  refine ⟨?_, Ident.wordAt_eq hword hend⟩
  have hsize := m.ident.size_pos
  have htext := m.size_text
  rw [modifierStop, Ident.nameStop_eq hword hend]
  simp only [hskip]
  rw [if_pos]
  simp only [Bool.and_eq_true, decide_eq_true_eq]
  refine ⟨⟨by omega, by omega⟩, Bytes.satAt_mono hnext fun c hc => ?_⟩
  rw [startsMemberName, hc, Bool.true_or]

/-- **The modifiers of a field are read one by one**, up to its name. By induction on the modifiers;
the name is no modifier, since a marker or a colon stands behind it. -/
theorem modifiersAt_eq {ms : List FieldModifier} {x : Ident}
    (h : b.Holds k (Piece.sourceOf (ms.map FieldModifier.piece) ++ x.bytes))
    (hend : b.satAt (k + (Piece.sourceOf (ms.map FieldModifier.piece) ++ x.bytes).size)
      (·.among ['?', '!', ':']) = true) :
    modifiersAt b k = .named ((ms.map FieldModifier.piece).map .piece)
      (k + (Piece.sourceOf (ms.map FieldModifier.piece)).size) := by
  induction ms generalizing k with
  | nil =>
    rw [List.map_nil, Piece.sourceOf_nil, Array.empty_append] at h hend
    have hstop : nameStop b k = k + x.bytes.size :=
      Ident.nameStop_eq h (Bytes.not_satAt_of_among _ hend rfl)
    -- no blank stands behind the name
    have hnext : b.skipBlanks (k + x.bytes.size) = k + x.bytes.size :=
      Bytes.skipWhile_eq (Nat.le_refl _) (fun m hm hmk => by omega)
        (Bytes.not_satAt_of_among _ hend rfl)
    have hnone : modifierStop b k = none := by
      rw [modifierStop, hstop, hnext]
      simp
    rw [Alike.modifiersAt_eq_match, hnone]
    rfl
  | cons m rest ih =>
    rw [List.map_cons, Piece.sourceOf_cons, m.source_piece, Array.append_assoc] at h hend
    rw [Bytes.holds_append] at h
    obtain ⟨hm, hrest⟩ := h
    obtain ⟨hstop, hwords⟩ := modifierStop_eq hm (isNameStart_of_modifiers hrest)
    have htail := ih hrest (by rwa [Array.size_append, ← Nat.add_assoc] at hend)
    have hslice : b.slice k (k + m.text.size) = m.text := hm.slice
    obtain ⟨hghost, htype, hfield⟩ := m.any_words
    have hsize : k + m.text.size + (Piece.sourceOf (rest.map FieldModifier.piece)).size =
        k + (Piece.sourceOf ((m :: rest).map FieldModifier.piece)).size := by
      rw [List.map_cons, Piece.sourceOf_cons, m.source_piece, Array.size_append, Nat.add_assoc]
    rw [Alike.modifiersAt_eq_match, hstop]
    simp only [hwords, hghost, htype, hfield, htail, hsize, Segment.erase, Segment.keep, hslice,
      Modifiers.cons, List.map_cons, FieldModifier.piece]
    -- a modifier is kept if it means something at run time, and else commented out
    by_cases hkept : m.word ∈ ["static", "accessor"]
    · simp [hkept]
    · simp [hkept]

/-! ### Markers, types and initializers -/

/-- There is no trivia at a sign. -/
private theorem skipTrivia_of_among (chars : List Char) (h : b.satAt i (·.among chars) = true)
    (hspace : chars.all (fun ch => !(Byte.ofChar ch).isSpace) = true)
    (hinert : chars.all (fun ch => !(Byte.ofChar ch).opensInert) = true) : skipTrivia b i = i :=
  skipTrivia_of_skipSpace
    (Bytes.skipWhile_eq (Nat.le_refl i) (fun k hk hki => by omega)
      (Bytes.not_satAt_of_among chars h hspace))
    (Bytes.not_satAt_of_among chars h hinert)

/-- The colon is found behind the marker, and the annotation starts in front of it. One case for
each marker. -/
theorem skipMarker_eq (marker : Marker) (h : b.Holds i (marker.text ++ Bytes.ofString ": ")) :
    b.satAt i (·.among ['?', '!', ':']) = true ∧
      skipMarker b i = i + marker.text.size ∧
        (if isMarker b i then i else i + marker.text.size) = i := by
  rw [Bytes.holds_append] at h
  have hcolon : b.isAt (i + marker.text.size) ':' = true := h.2.isAt_head rfl
  -- a marker is a single byte, and the colon stands right behind it
  have hmarked (hmark : b.satAt i (·.among ['?', '!']) = true) (hnext : b.isAt (i + 1) ':' = true) :
      isMarker b i = true ∧ skipTrivia b (i + 1) = i + 1 := by
    constructor
    · rw [isMarker, hmark, Bytes.isAt_eq_satAt, Bytes.satAt_of_isAt hnext]
      rfl
    · exact skipTrivia_of_among [':'] (Bytes.satAt_of_isAt hnext _) rfl rfl
  cases marker with
  | none =>
    have hcolon : b.isAt i ':' = true := hcolon
    have hnone : isMarker b i = false := by
      rw [isMarker, Bytes.satAt_of_isAt hcolon]
      rfl
    refine ⟨Bytes.satAt_of_isAt hcolon _, ?_, if_neg (by simp [hnone])⟩
    rw [skipMarker, if_neg (by simp [hnone])]
    rfl
  | optional =>
    have hmark : b.isAt i '?' = true := h.1.isAt_head rfl
    obtain ⟨his, hskip⟩ := hmarked (Bytes.satAt_of_isAt hmark _) hcolon
    exact ⟨Bytes.satAt_of_isAt hmark _, (if_pos his).trans hskip, if_pos his⟩
  | definite =>
    have hmark : b.isAt i '!' = true := h.1.isAt_head rfl
    obtain ⟨his, hskip⟩ := hmarked (Bytes.satAt_of_isAt hmark _) hcolon
    exact ⟨Bytes.satAt_of_isAt hmark _, (if_pos his).trans hskip, if_pos his⟩

/-- The type of a field ends at the `;`: at the blank before the type and within it there is no
reason to stop. -/
theorem fieldTypeStop_eq {T : TypeText [';', '\n']}
    (h : b.Holds i (Bytes.ofString " " ++ (T.bytes ++ Bytes.ofString ";"))) :
    fieldTypeStop b i = i + 1 + T.bytes.size := by
  simp only [Bytes.holds_append] at h
  obtain ⟨hblank, htype, hsemicolon⟩ := h
  have hblank : b.isAt i ' ' = true := hblank.isAt_head rfl
  have htype : b.Holds (i + 1) T.bytes := htype
  have hsemicolon : b.isAt (i + 1 + T.bytes.size) ';' = true := hsemicolon.isAt_head rfl
  refine T.findStop_eq hblank htype ?_ (fun n hn hbar => ?_) ?_
  · rw [isAssign, endsLine]
    simp only [Bytes.isAt_eq_satAt, Bytes.satAt_of_isAt hblank]
    rfl
  · rw [T.not_isAt htype hn hbar ';' (by decide), T.not_isAssign htype hn hbar, endsLine,
      T.not_isAt htype hn hbar '\n' (by decide)]
    rfl
  · exact findStopFrom_of_stop (Bytes.lt_size_of_isAt hsemicolon) (by simp [hsemicolon]) .type

/-- At a `;` there is no initializer. -/
theorem fieldInitializer_eq (h : b.isAt i ';' = true) : fieldInitializer b i = ([], i) := by
  have htrivia : skipTrivia b i = i :=
    skipTrivia_of_among [';'] (Bytes.satAt_of_isAt h _) rfl rfl
  have hassign : isAssign b i = false := by
    rw [isAssign, Bytes.isAt_eq_satAt, Bytes.satAt_of_isAt h]
    rfl
  rw [fieldInitializer, htrivia]
  simp [hassign]

/-- The name of a field is read to its end. -/
theorem memberNameStop_eq {x : Ident} (h : b.Holds k x.bytes)
    (hend : b.satAt (k + x.bytes.size) Byte.isNamePart = false)
    (hx : x.bytes ≠ Bytes.ofString "constructor") :
    memberNameStop b k = some (k + x.bytes.size) := by
  have hstart := Ident.isNameStart h
  have hsize := x.size_pos
  have hword : wordAt b k ["constructor"] = false := by
    rw [Ident.wordAt_eq h hend]
    simpa using fun heq => hx (by rw [heq])
  have hquote : b.satAt k Byte.isQuote = false :=
    Bytes.satAt_eq_false hstart (Byte.excludes_among rfl)
  rw [memberNameStop, Bytes.isAt_eq_false hstart rfl, Bytes.isAt_eq_false hstart rfl, hquote,
    Ident.nameStop_eq h hend, hword]
  simp [hsize]

/-- The marker and the type of a field are found behind its name. They are commented out together,
and nothing is kept between the name and them. -/
theorem fieldType_eq {f : ClassField}
    (h : b.Holds i (f.ascription ++ Bytes.ofString ";")) :
    fieldType b i i (i + f.marker.text.size) =
      ([.piece (.kept #[]), .piece (.erased f.ascription)], i + f.ascription.size) := by
  have hslice : b.slice i (i + f.ascription.size) = f.ascription :=
    (Bytes.holds_append.mp h).1.slice
  have hsize : f.ascription.size = f.marker.text.size + 2 + f.type.bytes.size := by
    rw [ClassField.ascription, Array.size_append, Array.size_append, Nat.add_assoc]
    rfl
  have hsplit : Bytes.ofString ": " = Bytes.ofString ":" ++ Bytes.ofString " " := rfl
  rw [ClassField.ascription, hsplit] at h
  simp only [Array.append_assoc, Bytes.holds_append] at h
  obtain ⟨hmarker, hcolon, hblank, htype, hsemicolon⟩ := h
  have hline : b.Holds (i + f.marker.text.size + 1)
      (Bytes.ofString " " ++ (f.type.bytes ++ Bytes.ofString ";")) :=
    Bytes.holds_append.mpr ⟨hblank, Bytes.holds_append.mpr ⟨htype, hsemicolon⟩⟩
  have hstop : fieldTypeStop b (i + f.marker.text.size + 1) = i + f.ascription.size := by
    rw [fieldTypeStop_eq hline, hsize]
    omega
  -- the type ends with ink, so that nothing is trimmed
  have hlast : b.satAt (i + f.ascription.size - 1) Byte.isSpace = false := by
    have htype : b.Holds (i + f.marker.text.size + 2) f.type.bytes := htype
    rw [hsize, show i + (f.marker.text.size + 2 + f.type.bytes.size) =
      i + f.marker.text.size + 2 + f.type.bytes.size by omega]
    exact f.type.not_isSpace_last htype
  have hstart : (if isMarker b i then i else i + f.marker.text.size) = i :=
    (skipMarker_eq f.marker (Bytes.holds_append.mpr ⟨hmarker,
      Bytes.holds_append (s := Bytes.ofString ":") |>.mpr ⟨hcolon, hblank⟩⟩)).2.2
  have hcolon : b.isAt (i + f.marker.text.size) ':' = true := hcolon.isAt_head rfl
  rw [fieldType, if_pos hcolon]
  simp only [hstart, hstop, Bytes.trimEnd_of_ink (by omega : i < i + f.ascription.size) hlast,
    Segment.keep, Segment.erase, Bytes.slice_self, hslice]

/-- **A field is read from its name to its `;`.** Its name, its marker and its type are found one
behind the other, and no initializer follows. -/
theorem namedMember_eq {f : ClassField} (modifiers : List Segment)
    (h : b.Holds k (f.name.bytes ++ (f.ascription ++ Bytes.ofString ";"))) :
    namedMember b modifiers k =
      .field (modifiers ++
          [.piece (.kept f.name.bytes), .piece (.kept #[]), .piece (.erased f.ascription)])
        (k + f.name.bytes.size + f.ascription.size) := by
  obtain ⟨hname, hrest⟩ := Bytes.holds_append.mp h
  obtain ⟨hascription, hsemicolon⟩ := Bytes.holds_append.mp hrest
  have hmarker : b.Holds (k + f.name.bytes.size) (f.marker.text ++ Bytes.ofString ": ") := by
    rw [ClassField.ascription, ← Array.append_assoc] at hascription
    exact (Bytes.holds_append.mp hascription).1
  obtain ⟨hnext, hskip, -⟩ := skipMarker_eq f.marker hmarker
  have hend := Bytes.not_satAt_of_among (q := Byte.isNamePart) _ hnext rfl
  have hcolon : b.isAt (k + f.name.bytes.size + f.marker.text.size) ':' = true :=
    (Bytes.holds_append.mp hmarker).2.isAt_head rfl
  -- the colon tells the field from a method
  have hother : b.satAt (k + f.name.bytes.size + f.marker.text.size) (·.among ['(', '<', '{']) =
      false := (Bytes.satAt_of_isAt hcolon _).trans rfl
  have hsemicolon : b.isAt (k + f.name.bytes.size + f.ascription.size) ';' = true :=
    hsemicolon.isAt_head rfl
  have hslice : b.slice k (k + f.name.bytes.size) = f.name.bytes := hname.slice
  rw [namedMember, memberNameStop_eq hname hend f.name_ne]
  simp only [skipTrivia_of_among _ hnext rfl rfl, hskip, hother, fieldType_eq hrest,
    fieldInitializer_eq hsemicolon, Segment.keep, hslice]
  simp

/-- The member that starts with the modifiers of a field is the field, since they lead to a name. -/
theorem memberAt_eq {f : ClassField}
    (h : b.Holds k (Piece.sourceOf (f.modifiers.map FieldModifier.piece) ++
      (f.name.bytes ++ (f.ascription ++ Bytes.ofString ";")))) :
    memberAt b k =
      .field ((f.modifiers.map FieldModifier.piece).map .piece ++
          [.piece (.kept f.name.bytes), .piece (.kept #[]), .piece (.erased f.ascription)])
        (k + (Piece.sourceOf (f.modifiers.map FieldModifier.piece)).size + f.name.bytes.size +
          f.ascription.size) := by
  have hnamed := (Bytes.holds_append.mp h).2
  rw [← Array.append_assoc, Bytes.holds_append] at h
  obtain ⟨hmodifiers, hascription⟩ := h
  have hend : b.satAt (k + (Piece.sourceOf (f.modifiers.map FieldModifier.piece) ++
      f.name.bytes).size) (·.among ['?', '!', ':']) = true := by
    rw [ClassField.ascription, ← Array.append_assoc, Bytes.holds_append] at hascription
    exact (skipMarker_eq f.marker (Bytes.holds_append.mp hascription.1).1).1
  -- a name is no index signature
  have hindex : isIndexSignature b
      (k + (Piece.sourceOf (f.modifiers.map FieldModifier.piece)).size) = false := by
    rw [isIndexSignature, Bytes.isAt_eq_false
      (Ident.isNameStart (Bytes.holds_append.mp hnamed).1) rfl]
    rfl
  rw [memberAt, modifiersAt_eq hmodifiers hend]
  simp only [hindex, namedMember_eq _ hnamed]
  rfl

/-! ### The walk -/

private theorem Walk.after_after (w : Walk) (s t : List Segment) :
    (w.after s).after t = w.after (t ++ s) := by
  rw [after, after, after, List.append_assoc]

/-- The walk reads a `;` between fields. -/
private theorem walkMembers_semicolon (h : b.Holds i (Bytes.ofString ";")) :
    walkMembers b i = (walkMembers b (i + 1)).after
      [.piece (.kept #[]), .piece (.kept (Bytes.ofString ";"))] := by
  have hat : b.isAt i ';' = true := h.isAt_head rfl
  have hskip : skipTrivia b i = i := skipTrivia_of_among [';'] (Bytes.satAt_of_isAt hat _) rfl rfl
  have hbrace : b.isAt i '}' = false := (Bytes.satAt_of_isAt hat _).trans rfl
  have hslice : b.slice i (i + 1) = Bytes.ofString ";" := h.slice
  rw [Alike.walkMembers_eq_ite, hskip, if_pos ⟨Bytes.lt_size_of_isAt hat, by rw [hbrace]; rfl⟩,
    if_pos hat, Segment.keep, Segment.keep, Bytes.slice_self, hslice]

/-- **The walk reads a field with its `;`.** It skips the whitespace before the field, reads the
member there, and then the `;` as a member of its own. -/
theorem walkMembers_field {f : ClassField} (h : b.Holds i (Piece.sourceOf f.pieces)) :
    ∃ ps, Piece.outputOf ps = Piece.outputOf f.pieces ∧
      walkMembers b i =
        (walkMembers b (i + (Piece.sourceOf f.pieces).size)).after (ps.map .piece) := by
  have hsource : Piece.sourceOf f.pieces = Bytes.ofString "\n  " ++
      (Piece.sourceOf (f.modifiers.map FieldModifier.piece) ++
        (f.name.bytes ++ (f.ascription ++ Bytes.ofString ";"))) := by
    rw [ClassField.pieces, Piece.sourceOf_cons, Piece.sourceOf_append]
    simp [Piece.sourceOf, Piece.source]
  rw [hsource, Bytes.holds_append] at h
  obtain ⟨hindent, hmember⟩ := h
  have hmember : b.Holds (i + 3) _ := hmember
  have hstart : b.satAt (i + 3) Byte.isNameStart = true := by
    rw [← Array.append_assoc] at hmember
    exact isNameStart_of_modifiers (Bytes.holds_append.mp hmember).1
  have hskip : skipTrivia b i = i + 3 :=
    skipTrivia_of_skipSpace
      (hindent.skipWhile_eq rfl (Bytes.satAt_eq_false hstart (Byte.excludes_isSpace rfl)))
      (Bytes.satAt_eq_false hstart (Byte.excludes_opensInert rfl))
  have hmember' := hmember
  simp only [Bytes.holds_append] at hmember'
  have hslice : b.slice i (i + 3) = Bytes.ofString "\n  " := hindent.slice
  have hsize : i + 3 + (Piece.sourceOf (f.modifiers.map FieldModifier.piece)).size +
      f.name.bytes.size + f.ascription.size + 1 = i + (Piece.sourceOf f.pieces).size := by
    rw [hsource]
    simp only [Array.size_append]
    rw [show (Bytes.ofString "\n  ").size = 3 from rfl, show (Bytes.ofString ";").size = 1 from rfl]
    omega
  -- the walk also keeps empty texts, which write nothing
  refine ⟨.kept (Bytes.ofString "\n  ") :: (f.modifiers.map FieldModifier.piece ++
    [.kept f.name.bytes, .kept #[], .erased f.ascription, .kept #[], .kept (Bytes.ofString ";")]),
    ?_, ?_⟩
  · simp [ClassField.pieces, Piece.outputOf, Piece.output]
  · rw [Alike.walkMembers_eq_ite, hskip, if_pos ⟨Bytes.lt_size_of_satAt hstart, by
      rw [Bytes.isAt_eq_false hstart rfl]; rfl⟩, Bytes.isAt_eq_false hstart rfl,
      memberAt_eq hmember]
    simp only [Bool.false_eq_true, if_false]
    rw [walkMembers_semicolon hmember'.2.2.2, Walk.after_after, hsize]
    simp [Segment.keep, hslice]

/-- The walk reads all fields of a body and stops at its closing bracket. By induction on the
fields. -/
theorem walkMembers_fields {fs : List ClassField}
    (h : b.Holds i (Piece.sourceOf (fs.flatMap ClassField.pieces) ++ Bytes.ofString "\n\x7d")) :
    ∃ ps, Piece.outputOf ps =
        Piece.outputOf (fs.flatMap ClassField.pieces) ++ Bytes.ofString "\n" ∧
      walkMembers b i = ⟨ps.map .piece,
        i + (Piece.sourceOf (fs.flatMap ClassField.pieces)).size + 1, false⟩ := by
  induction fs generalizing i with
  | nil =>
    rw [List.flatMap_nil, Piece.sourceOf_nil, Array.empty_append] at h
    have hbrace : b.isAt (i + 1) '}' = true := h.isAt_of rfl
    rw [show Bytes.ofString "\n\x7d" = Bytes.ofString "\n" ++ Bytes.ofString "\x7d" from rfl,
      Bytes.holds_append] at h
    -- only the line break is skipped
    have hskip : skipTrivia b i = i + 1 :=
      skipTrivia_of_skipSpace
        (h.1.skipWhile_eq rfl ((Bytes.satAt_of_isAt hbrace _).trans rfl))
        ((Bytes.satAt_of_isAt hbrace _).trans rfl)
    have hslice : b.slice i (i + 1) = Bytes.ofString "\n" := h.1.slice
    refine ⟨[.kept (Bytes.ofString "\n")], rfl, ?_⟩
    rw [Alike.walkMembers_eq_ite, hskip, if_neg (by simp [hbrace]), Segment.keep, hslice]
    rfl
  | cons f rest ih =>
    rw [List.flatMap_cons, Piece.sourceOf_append, Array.append_assoc, Bytes.holds_append] at h
    obtain ⟨hfield, hrest⟩ := h
    obtain ⟨ps, hps, hwalk⟩ := walkMembers_field hfield
    obtain ⟨qs, hqs, htail⟩ := ih hrest
    refine ⟨ps ++ qs, ?_, ?_⟩
    · rw [Piece.outputOf_append, hps, hqs, List.flatMap_cons, Piece.outputOf_append,
        Array.append_assoc]
    · rw [hwalk, htail, Walk.after, List.map_append, List.flatMap_cons, Piece.sourceOf_append,
        Array.size_append, Nat.add_assoc i]

end Members

/-! ### The header -/

/-- The keyword of a class. -/
def Ident.class : Ident where
  bytes := Bytes.ofString "class"
  head := rfl
  parts := rfl

/-- The text starts with the header of the class `x` and the bracket of its body. -/
structure ClassHead (b : Bytes) (x : Ident) : Prop where
  declares : Declares b Ident.class x
  space : b.isAt (6 + x.bytes.size) ' ' = true
  brace : b.isAt (6 + x.bytes.size + 1) '{' = true

/-- The parts of the header in their places. -/
private theorem classHead_of_holds {b : Bytes} {x : Ident}
    (h : b.Holds 0 (Ident.class.bytes ++ (Bytes.ofString " " ++ (x.bytes ++ (Bytes.ofString " " ++
      Bytes.ofString "\x7b"))))) : ClassHead b x := by
  simp only [Bytes.holds_append, Nat.zero_add] at h
  obtain ⟨hkeyword, hblank, hname, hspace, hbrace⟩ := h
  have hspace : b.isAt (6 + x.bytes.size) ' ' = true := hspace.isAt_head rfl
  exact ⟨⟨hkeyword, hblank.isAt_head rfl, hname, (Bytes.satAt_of_isAt hspace _).trans rfl⟩, hspace,
    hbrace.isAt_head rfl⟩

namespace ClassHead

variable {b : Bytes} {x : Ident} {i : Nat}

/-- The bracket is that of a class body: before it, behind a space, stands the name that the keyword
declares. -/
theorem endsClassHeader (h : ClassHead b x) : endsClassHeader b (6 + x.bytes.size + 1) = true := by
  have hlast : lastCode b (6 + x.bytes.size + 1) = some (6 + x.bytes.size - 1) := by
    rw [lastCode_of_space (i := 6 + x.bytes.size) (by omega) fun k hk hki => ?_]
    · exact Ident.lastCode_eq h.declares.name
    · rw [show k = 6 + x.bytes.size by omega, Bytes.satAt_of_isAt h.space]
      rfl
  rw [h.declares.endsClassHeader_eq hlast, Bool.or_eq_true]
  exact .inr rfl

/-- Nothing starts in front of the bracket. No construct starts with `class`, and the name is none
of the two words that could start one. -/
theorem silentAt (h : ClassHead b x) (has : x.bytes ≠ Bytes.ofString "as")
    (himplements : x.bytes ≠ Bytes.ofString "implements") (hi : i < 6 + x.bytes.size + 1) :
    SilentAt b i := by
  have hbrace {w : String} (hw : (Bytes.ofString w).toList.all Byte.isLetter = true)
      (hpos : 0 < (Bytes.ofString w).size) : keywordAt b (6 + x.bytes.size + 1) w = false :=
    not_keywordAt_of_not_isLetter ((Bytes.satAt_of_isAt h.brace _).trans rfl) hw hpos
  have hskip : b.skipBlanks (6 + x.bytes.size) = 6 + x.bytes.size + 1 := by
    refine Bytes.skipWhile_eq (by omega) (fun k hk hki => ?_)
      ((Bytes.satAt_of_isAt h.brace _).trans rfl)
    rw [show k = 6 + x.bytes.size by omega, Bytes.satAt_of_isAt h.space]
    rfl
  have hcast : castAt b Ident.class.bytes.size = none := by
    refine castAt_eq_none ?_
    rw [h.declares.keywordAt_eq rfl, decide_eq_false has]
  rcases Nat.lt_or_ge i (6 + x.bytes.size) with hlt | hge
  · -- the keyword, the name and the space between them
    refine h.declares.silentAt (by decide) himplements hcast ?_ hlt
    exact (congrArg (keywordAt b · "class") hskip).trans (hbrace rfl (by decide))
  · -- the space in front of the bracket
    obtain rfl : i = 6 + x.bytes.size := by omega
    exact silentAt_of_blank h.space (hbrace rfl (by decide))
      (castAt_eq_none (hbrace rfl (by decide)))

/-- **The body of a class is a construct**, and none that ranks before it starts with a bracket. -/
theorem nextMatch (h : ClassHead b x) {r : Rules} (hr : r.enables .classMembers = true) :
    r.nextMatch b (6 + x.bytes.size + 1) =
      some ⟨.classMembers, ⟨6 + x.bytes.size + 1, 6 + x.bytes.size + 1 + 1⟩⟩ := by
  have habstract : keywordAt b (6 + x.bytes.size + 1) "abstract" = false :=
    not_keywordAt_of_not_isLetter ((Bytes.satAt_of_isAt h.brace _).trans rfl) rfl (by decide)
  refine Rules.nextMatch_of_matchAt hr ?_ rfl fun k hk =>
    matchAt_eq_none_of_rank (q := .classMembers) h.brace (by decide) hk
  simp [Construct.matchAt, classMembersAt, abstractAt, habstract, classBraceAt, h.brace,
    h.endsClassHeader]

end ClassHead

/-- The patch of the body is that of its fields, with the opening bracket in front. -/
private theorem exists_patchOf_body {b : Bytes} {i : Nat} {fs : List ClassField}
    (h : b.Holds i (Bytes.ofString "\x7b" ++
      (Piece.sourceOf (fs.flatMap ClassField.pieces) ++ Bytes.ofString "\n\x7d"))) :
    ∃ ps, Piece.outputOf ps = Bytes.ofString "\x7b" ++
        (Piece.outputOf (fs.flatMap ClassField.pieces) ++ Bytes.ofString "\n") ∧
      (patchOf b ⟨.classMembers, ⟨i, i + 1⟩⟩).segments = ps.map .piece ∧
      (patchOf b ⟨.classMembers, ⟨i, i + 1⟩⟩).stop =
        i + 1 + (Piece.sourceOf (fs.flatMap ClassField.pieces)).size + 1 := by
  obtain ⟨hbrace, hbody⟩ := Bytes.holds_append.mp h
  obtain ⟨ps, hps, hwalk⟩ := walkMembers_fields hbody
  have hwalk : walkMembers b (i + 1) = _ := hwalk
  have hslice : b.slice i (i + 1) = Bytes.ofString "\x7b" := hbrace.slice
  -- the bracket is no `abstract`
  have hfirst : b.isAt i 'a' = false :=
    (Bytes.satAt_of_isAt (hbrace.isAt_head rfl : b.isAt i '{' = true) _).trans rfl
  have hpatch : patchOf b ⟨.classMembers, ⟨i, i + 1⟩⟩ =
      { stop := i + 1 + (Piece.sourceOf (fs.flatMap ClassField.pieces)).size + 1
        segments := .piece (.kept (Bytes.ofString "\x7b")) :: ps.map .piece } := by
    simp only [patchOf, classMembersPatch, Match.start, Match.stop, hfirst, Nat.add_sub_cancel,
      hwalk, clauseSegments, Segment.keep, hslice, Bool.false_eq_true, if_false, Nat.lt_irrefl,
      List.nil_append]
    rfl
  refine ⟨.kept (Bytes.ofString "\x7b") :: ps, ?_, by rw [hpatch]; rfl, by rw [hpatch]⟩
  rw [Piece.outputOf_cons, hps]
  rfl

/-! ### The erasure -/

namespace FieldClass

/-- The text in front of the body. -/
def head (c : FieldClass) : Bytes :=
  Bytes.ofString "class " ++ (c.name.bytes ++ Bytes.ofString " ")

private theorem size_head (c : FieldClass) : c.head.size = 6 + c.name.bytes.size + 1 := by
  rw [head, Array.size_append, Array.size_append, ← Nat.add_assoc]
  rfl

/-- The source is the head, the body and the closing bracket. -/
theorem sourceOf_pieces (c : FieldClass) :
    Piece.sourceOf c.pieces = c.head ++ ((Bytes.ofString "\x7b" ++
      (Piece.sourceOf (c.fields.flatMap ClassField.pieces) ++ Bytes.ofString "\n")) ++
        Bytes.ofString "\x7d") := by
  have hopen : Bytes.ofString " \x7b" = Bytes.ofString " " ++ Bytes.ofString "\x7b" := rfl
  have hclose : Bytes.ofString "\n\x7d" = Bytes.ofString "\n" ++ Bytes.ofString "\x7d" := rfl
  simp only [pieces, head, Piece.sourceOf_cons, Piece.sourceOf_append, Piece.source, hopen, hclose,
    Piece.sourceOf_nil, Array.append_assoc, Array.append_empty]

/-- The output is made of the same parts. -/
theorem outputOf_pieces (c : FieldClass) :
    Piece.outputOf c.pieces = c.head ++ ((Bytes.ofString "\x7b" ++
      (Piece.outputOf (c.fields.flatMap ClassField.pieces) ++ Bytes.ofString "\n")) ++
        Bytes.ofString "\x7d") := by
  have hopen : Bytes.ofString " \x7b" = Bytes.ofString " " ++ Bytes.ofString "\x7b" := rfl
  have hclose : Bytes.ofString "\n\x7d" = Bytes.ofString "\n" ++ Bytes.ofString "\x7d" := rfl
  simp only [pieces, head, Piece.outputOf_cons, Piece.outputOf_append, Piece.output, hopen, hclose,
    Piece.outputOf_nil, Array.append_assoc, Array.append_empty]

end FieldClass

/-- **The fields of a class are erased exactly**: each modifier that only types know and each marker
with its type is replaced by a comment that holds it, and nothing else changes. The head is copied,
one round writes the body as far as the closing bracket, and this is copied too. -/
theorem erase_fieldClass (c : FieldClass) :
    ∃ e, erase {} (Piece.sourceOf c.pieces) = .ok e ∧ e.output = Piece.outputOf c.pieces := by
  rw [c.sourceOf_pieces, c.outputOf_pieces]
  obtain ⟨b, hb⟩ : ∃ b : Bytes, b = #[] ++ (c.head ++ ((Bytes.ofString "\x7b" ++
      (Piece.sourceOf (c.fields.flatMap ClassField.pieces) ++ Bytes.ofString "\n")) ++
        Bytes.ofString "\x7d")) := ⟨_, rfl⟩
  have hholds : b.Holds 0 _ := hb ▸ Bytes.holds_append_right #[] _
  have hhead : ClassHead b c.name := by
    have hclass : Bytes.ofString "class " = Ident.class.bytes ++ Bytes.ofString " " := rfl
    refine classHead_of_holds ?_
    simp only [FieldClass.head, hclass, Array.append_assoc, Bytes.holds_append] at hholds ⊢
    obtain ⟨hkeyword, hblank, hname, hspace, hbrace, -⟩ := hholds
    exact ⟨hkeyword, hblank, hname, hspace, hbrace⟩
  have hbody : b.Holds c.head.size (Bytes.ofString "\x7b" ++
      (Piece.sourceOf (c.fields.flatMap ClassField.pieces) ++ Bytes.ofString "\n\x7d")) := by
    have hbody := (Bytes.holds_append.mp hholds).2
    rw [Nat.zero_add] at hbody
    simp only [Array.append_assoc] at hbody
    exact hbody
  obtain ⟨ps, hps, hsegments, hstop⟩ := exists_patchOf_body hbody
  -- the head is copied, one round writes the body, and its closing bracket is copied
  refine Rules.Writes.copy hb (fun i _ hi => ?_) ?_
  · rw [Array.size_empty, Nat.zero_add, c.size_head] at hi
    exact hhead.silentAt c.name_ne_as c.name_ne_implements hi
  rw [Array.empty_append] at hb ⊢
  rw [← hps]
  -- the round that writes the body
  refine Rules.Writes.round hb ?_ rfl ?_ hsegments ?_
  · rw [c.size_head]
    exact hhead.nextMatch rfl
  · have hopen : (Bytes.ofString "\x7b").size = 1 := rfl
    have hline : (Bytes.ofString "\n").size = 1 := rfl
    rw [hstop, Array.size_append, Array.size_append, hopen, hline]
    omega
  · -- nothing is found in what is left, the closing bracket
    refine Rules.Writes.of_silent rfl fun i hi hlt => ?_
    have hlast : i = (c.head ++ Piece.outputOf ps).size :=
      Nat.le_antisymm (Nat.le_of_lt_succ hlt) hi
    have hbrace := Bytes.holds_append_right (c.head ++ Piece.outputOf ps) (Bytes.ofString "\x7d")
    rw [hlast]
    exact silentAt_of_isAt (hbrace.isAt_head rfl : Bytes.isAt _ _ '}' = true) rfl rfl

/-- A field may be named like a modifier, and its type may hold a `;` or a line break in a group or
in a string. -/
theorem erase_fieldClass_nested :
    ∃ c : FieldClass,
      Piece.sourceOf c.pieces = Bytes.ofString
        "class C \x7b\n  public static readonly?: \x7b;\n\x7d;\n  x!: ';';\n\x7d" ∧
      Piece.outputOf c.pieces = Bytes.ofString
        "class C \x7b\n  /*public */static readonly/*?: \x7b;\n\x7d*/;\n  x/*!: ';'*/;\n\x7d" ∧
      ∃ e, erase {} (Piece.sourceOf c.pieces) = .ok e ∧ e.output = Piece.outputOf c.pieces := by
  let c : FieldClass := {
    name := ⟨Bytes.ofString "C", by decide, by decide⟩
    fields := [
      { modifiers := [⟨"public", by decide⟩, ⟨"static", by decide⟩]
        name := ⟨Bytes.ofString "readonly", by decide, by decide⟩
        marker := .optional
        type := ⟨Bytes.ofString "\x7b;\n\x7d", by decide, by decide, by decide, by decide +kernel⟩
        name_ne := by decide },
      { modifiers := []
        name := ⟨Bytes.ofString "x", by decide, by decide⟩
        marker := .definite
        type := ⟨Bytes.ofString "';'", by decide, by decide, by decide, by decide +kernel⟩
        name_ne := by decide }]
    name_ne_as := by decide
    name_ne_implements := by decide }
  exact ⟨c, by decide +kernel, by decide +kernel, erase_fieldClass c⟩

end TypeErasure
