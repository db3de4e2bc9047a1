import TypeErasure.Proofs.Parameters

/-!
# Headers of functions

A `FunctionHeader` is a function with type parameters, typed parameters and a return type, and an
empty body. Its text is divided into what means something at run time and what does not
(`FunctionHeader.pieces`).

Main statement: the erasure of such a function comments out exactly its types
(`erase_functionHeader`). Three constructs hand over to each other: the list of type parameters
(`Rules.Writes.generics`), the list of annotations (`Rules.Writes.params`) and the return type
(`Rules.Writes.result`). The last one is recognised by the list before it, which is searched for
backward, over the comments that the other two have left.
-/

namespace TypeErasure

/-! ### Type parameters -/

/-- The bytes of a list of type parameters. -/
def Byte.isGenericPart (c : Byte) : Bool :=
  c.isNamePart || c.among [' ', ',', '<', '>']

/-- What stands between the brackets of a list of type parameters: names, spaces, commas and inner
lists. It starts with a name. -/
structure Generics where
  bytes : Bytes
  head : bytes.satAt 0 Byte.isNameStart = true
  parts : bytes.toList.all Byte.isGenericPart = true
  closed : bytes.closedFrom (fun _ => false) 0 0 = true

/-- The list with its brackets. -/
def Generics.text (g : Generics) : Bytes :=
  Bytes.ofString "<" ++ (g.bytes ++ Bytes.ofString ">")

/-- The type parameters of a function, if it has any. -/
def genericPieces : Option Generics → List Piece
  | none => []
  | some g => [.erased g.text]

namespace Generics

variable {b : Bytes} {i k : Nat}

/-- The list is made of nothing else. -/
private theorem all_not_is (g : Generics) {ch : Char}
    (hch : (Byte.ofChar ch).isGenericPart = false) :
    g.bytes.toList.all (fun c => !c.is ch) = true := by
  refine List.all_eq_true.mpr fun c hc => ?_
  cases his : c.is ch with
  | false => rfl
  | true =>
    have hpart := List.all_eq_true.mp g.parts c hc
    rw [Byte.apply_of_is his Byte.isGenericPart, hch] at hpart
    simp at hpart

/-- A character that is no part of a list does not stand in it. -/
theorem not_isAt (g : Generics) {ch : Char} (hch : (Byte.ofChar ch).isGenericPart = false)
    (k : Nat) : g.bytes.isAt k ch = false :=
  Bytes.not_isAt_of_all (g.all_not_is hch) k

/-- No `=` stands before a byte of the list, so none of its brackets is the head of an arrow. -/
private theorem not_isBefore_eq (g : Generics) (h : b.Holds i g.bytes)
    (hapart : b.isBefore i '=' = false)
    (hk : k < g.bytes.size) : b.isBefore (i + k) '=' = false := by
  have hat : b.TypeAt i g.bytes := ⟨h, g.not_isAt rfl, hapart⟩
  rw [hat.isBefore_eq hk, Bytes.isBefore, g.not_isAt rfl, Bool.and_false]

/-- A list of types goes on behind a byte that is no bracket: a byte of a name, a space or a
comma. -/
private theorem typeListClose_of_isListPart {o : OpenBrackets} {c : Byte} (hc : b[i]? = some c)
    (hpart : c.isListPart = true) : typeListClose b o i = typeListClose b o (i + 1) := by
  rw [Byte.isListPart, Bool.or_eq_true] at hpart
  rcases hpart with hname | hsign
  · exact Alike.typeListClose_of_isNamePart hc hname
  · have hnot {q : Byte → Bool} (hq : [' ', ','].all (fun ch => !q (Byte.ofChar ch)) = true) :
        q c = false := by
      simpa using Byte.of_among (q := fun c => !q c) [' ', ','] hsign hq
    -- spaces and commas are allowed in a list of types
    have hfits : fitsType b o i c = true := by
      rw [fitsType, hnot (q := (·.is '=')) rfl, hnot (q := (·.among ['&', '|'])) rfl,
        hnot (q := (·.is ';')) rfl]
      exact Byte.of_among [' ', ','] hsign
        (q := fun c => c.isNamePart || c.isSpace || c.among [',', '.', '?', ':', '-']) rfl
    rw [Alike.typeListClose_eq_match, hc]
    simp only [hnot (q := (·.is '<')) rfl, hnot (q := (·.is '>')) rfl, hnot (q := Byte.isQuote) rfl,
      hnot (q := Byte.isOpener) rfl, hnot (q := Byte.isCloser) rfl, hfits, if_true]
    rfl

/-- An angle bracket opens an inner list. -/
private theorem typeListClose_open {o : OpenBrackets} (h : b.isAt i '<' = true) :
    typeListClose b o i = typeListClose b { o with angle := o.angle + 1 } (i + 1) := by
  rw [Alike.typeListClose_eq_match, Bytes.getElem?_of_isAt h]
  rfl

/-- An angle bracket closes the list, or an inner one. -/
private theorem typeListClose_close {o : OpenBrackets} (h : b.isAt i '>' = true)
    (hapart : b.isBefore i '=' = false) :
    typeListClose b o i = if o.angle = 1 then if o.onlyAngle then some i else none
      else typeListClose b { o with angle := o.angle - 1 } (i + 1) := by
  rw [Alike.typeListClose_eq_match, Bytes.getElem?_of_isAt h, hapart]
  rfl

/-- **The search for the end of a list passes over its types.** The induction follows the check that
the list closes what it opens. -/
theorem typeListClose_eq (g : Generics) (h : b.Holds i g.bytes) (hapart : b.isBefore i '=' = false)
    {depth : Nat} (hclosed : g.bytes.closedFrom (fun _ => false) depth k = true)
    (hk : k ≤ g.bytes.size) :
    typeListClose b { angle := depth + 1 } (i + k) =
      typeListClose b { angle := 1 } (i + g.bytes.size) := by
  -- the bytes of the list, in their place
  have hbyte {k : Nat} {c : Byte} (hc : g.bytes[k]? = some c) :
      c.isGenericPart = true ∧ k < g.bytes.size ∧ b[i + k]? = some c := by
    obtain ⟨hlt, rfl⟩ := Array.getElem?_eq_some_iff.mp hc
    exact ⟨List.all_eq_true.mp g.parts _ (Array.getElem_mem_toList hlt), hlt, (h k hlt).trans hc⟩
  have hat {k : Nat} {c : Byte} (hc : g.bytes[k]? = some c) {ch : Char} (his : c.is ch = true) :
      b.isAt (i + k) ch = true := by
    rw [Bytes.isAt, (hbyte hc).2.2]
    exact his
  -- both count the same brackets, but the search has one more open, that of the list itself
  fun_induction g.bytes.closedFrom (fun _ => false) depth k with
  | case1 depth k hc =>
    have hsize : k = g.bytes.size := by
      have := Array.getElem?_eq_none_iff.mp hc
      omega
    rw [hsize, beq_iff_eq.mp hclosed]
  | case2 => simp at hclosed
  | case3 => simp at hclosed
  | case4 depth k c hc hbar hquote next hnext ih =>
    -- the list holds no strings
    have hnone : c.among ['\'', '"', '`'] = false := Byte.excludes_among rfl c (hbyte hc).1
    rw [hnone] at hquote
    simp at hquote
  | case5 depth k c hc hbar hquote hopen ih =>
    -- of the brackets that open something the list holds only `<`
    have hother : c.among ['(', '[', '{'] = false := Byte.excludes_among rfl c (hbyte hc).1
    have hangle : c.is '<' = true := by
      simp only [Byte.among, List.any_cons, List.any_nil, Bool.or_eq_false_iff] at hother
      simpa [Byte.among, hother] using hopen
    rw [typeListClose_open (hat hc hangle)]
    exact ih hclosed (hbyte hc).2.1
  | case6 depth k c hc hbar hquote hopen hclose ih =>
    obtain ⟨hpart, hlt, -⟩ := hbyte hc
    rw [Bool.and_eq_true, bne_iff_ne] at hclosed
    have hother : c.among [')', ']', '}'] = false := Byte.excludes_among rfl c hpart
    have hangle : c.is '>' = true := by
      rw [hother, Bool.false_or, Bool.and_eq_true] at hclose
      exact hclose.1
    obtain ⟨inner, rfl⟩ : ∃ inner, depth = inner + 1 := ⟨depth - 1, by omega⟩
    rw [typeListClose_close (hat hc hangle) (g.not_isBefore_eq h hapart hlt)]
    exact ih hclosed.2 hlt
  | case7 depth k c hc hbar hquote hopen hclose ih =>
    obtain ⟨hpart, hlt, hb⟩ := hbyte hc
    have hleft : c.is '<' = false := eq_false_of_ne_true fun his =>
      hopen (List.any_eq_true.mpr ⟨'<', by decide, his⟩)
    have hright : c.is '>' = false := by
      -- the list holds no `=`, so none of its brackets belongs to an arrow
      have hequals : g.bytes.isBefore k '=' = false := by
        rw [Bytes.isBefore, g.not_isAt rfl, Bool.and_false]
      rw [hequals, Bool.not_false, Bool.and_true, Bool.not_eq_true, Bool.or_eq_false_iff] at hclose
      exact hclose.2
    have hlist : c.isListPart = true := by
      simpa [Byte.isGenericPart, Byte.isListPart, Byte.among, hleft, hright] using hpart
    rw [typeListClose_of_isListPart hb hlist]
    exact ih hclosed hlt

/-- The list in its place, up to its closing bracket. The search goes over the opening bracket and
the types. -/
private theorem typeListClose_text (g : Generics) (h : b.Holds i g.text) :
    typeListClose b {} i = some (i + 1 + g.bytes.size) := by
  rw [text, Bytes.holds_append, Bytes.holds_append] at h
  obtain ⟨hopen, htypes, hclose⟩ := h
  have htypes : b.Holds (i + 1) g.bytes := htypes
  have hopen : b.isAt i '<' = true := hopen.isAt_head rfl
  have hclose : b.isAt (i + 1 + g.bytes.size) '>' = true := hclose.isAt_head rfl
  have hapart : b.isBefore (i + 1) '=' = false := by
    rw [Bytes.isBefore, Nat.add_sub_cancel, Bytes.isAt_eq_satAt, Bytes.satAt_of_isAt hopen]
    rfl
  have hpos : 0 < g.bytes.size := Bytes.lt_size_of_satAt g.head
  -- the closing bracket belongs to no arrow either
  have hlast : b.isBefore (i + 1 + g.bytes.size) '=' = false := by
    have hat : b.isAt (i + 1 + (g.bytes.size - 1)) '=' = false :=
      (htypes.satAt (by omega) _).trans (g.not_isAt rfl _)
    rw [Bytes.isBefore, Nat.add_sub_assoc hpos, hat, Bool.and_false]
  calc typeListClose b {} i
      = typeListClose b { angle := 1 } (i + 1 + 0) := typeListClose_open hopen
    _ = typeListClose b { angle := 1 } (i + 1 + g.bytes.size) :=
        g.typeListClose_eq htypes hapart g.closed (Nat.zero_le _)
    _ = some (i + 1 + g.bytes.size) := typeListClose_close hclose hlast

theorem size_text (g : Generics) : g.text.size = 1 + g.bytes.size + 1 := by
  rw [text, Array.size_append, Array.size_append, ← Nat.add_assoc]
  rfl

/-- **A list of type parameters behind a name and in front of a round bracket is a construct.** What
is asked of the bytes around it holds there, and no construct that ranks before it starts with a
`<`. -/
theorem nextMatch_eq (g : Generics) {r : Rules} (hon : r.enables .typeArguments = true)
    (hname : b.satAt (i - 1) Byte.isNamePart = true) (hpos : 0 < i)
    (h : b.Holds i (g.text ++ Bytes.ofString "(")) :
    r.nextMatch b i = some ⟨.typeArguments, ⟨i, i + g.text.size⟩⟩ := by
  obtain ⟨htext, hparen⟩ := Bytes.holds_append.mp h
  have hparen : b.isAt (i + g.text.size) '(' = true := hparen.isAt_head rfl
  have hparts := htext
  rw [text, Bytes.holds_append, Bytes.holds_append] at hparts
  have hopen : b.isAt i '<' = true := hparts.1.isAt_head rfl
  have hhead : b.satAt (i + 1) Byte.isNameStart = true := hparts.2.1.satAt_head g.head
  have hfirst : b.satAt (i + 1) (·.among ['<', '=']) = false :=
    Bytes.satAt_eq_false hhead (Byte.excludes_among rfl)
  have hclose : i + 1 + g.bytes.size + 1 = i + g.text.size := by
    rw [g.size_text]
    omega
  -- the round bracket stands right behind the list
  have hskip : b.skipSpace (i + g.text.size) = i + g.text.size :=
    Bytes.skipWhile_eq (Nat.le_refl _) (fun k hk hki => by omega)
      ((Bytes.satAt_of_isAt hparen _).trans rfl)
  have hfollows : followsTypeList b (i + g.text.size) = true := by
    rw [followsTypeList, Bytes.satAt_of_isAt hparen]
    rfl
  refine Rules.nextMatch_of_matchAt hon ?_ rfl fun k hk =>
    matchAt_eq_none_of_rank (q := .typeArguments) hopen (by decide) hk
  rw [Construct.matchAt, typeArgumentsAt, hopen, hname, hfirst, g.typeListClose_text htext]
  simp only [hclose, hskip, hfollows, decide_eq_true hpos]
  rfl

theorem not_isAt_slash (g : Generics) (k : Nat) : g.text.isAt k '/' = false := by
  refine Bytes.not_isAt_of_all ?_ k
  rw [text, Array.toList_append, Array.toList_append, List.all_append, List.all_append,
    g.all_not_is rfl]
  rfl

end Generics

/-- A scan backward passes over type parameters, which have become a comment. -/
private theorem passedBy_genericPieces (p : Byte → Bool) (g : Option Generics) :
    ∀ q ∈ genericPieces g, q.PassedBy p := by
  cases g with
  | none => simp [genericPieces]
  | some g =>
    intro q hq
    rw [genericPieces, List.mem_singleton] at hq
    exact hq ▸ g.not_isAt_slash

/-- **A list of type parameters is written as a comment**, and where there is none nothing is
written. -/
theorem Rules.Writes.generics {r : Rules} (hon : r.enables .typeArguments = true)
    {done rest out : Bytes} (hdone : done.satAt (done.size - 1) Byte.isNamePart = true)
    (g : Option Generics)
    (h : r.Writes (done ++ Piece.outputOf (genericPieces g)) (Bytes.ofString "(" ++ rest) out) :
    r.Writes done (Piece.sourceOf (genericPieces g) ++ (Bytes.ofString "(" ++ rest))
      (Piece.outputOf (genericPieces g) ++ out) := by
  cases g with
  | none => simpa [genericPieces, Piece.sourceOf, Piece.outputOf] using h
  | some g =>
    have hsource : Piece.sourceOf (genericPieces (some g)) = g.text := Array.append_empty
    have houtput : Piece.outputOf (genericPieces (some g)) = g.text.commentOut := Array.append_empty
    rw [houtput] at h ⊢
    rw [hsource]
    have hlt := Bytes.lt_size_of_satAt hdone
    -- the byte before the list is the last one of the name
    refine Rules.Writes.erase rfl (g.nextMatch_eq hon ?_ (by omega) ?_) rfl rfl h
    · rw [← hdone]
      exact Bytes.satAt_congr (Array.getElem?_append_left hlt) _
    · have hplaced := Bytes.holds_append_right done (g.text ++ (Bytes.ofString "(" ++ rest))
      simp only [Bytes.holds_append] at hplaced
      exact hplaced.1.append hplaced.2.1

/-! ### The return type -/

/-- A type that can be written between a list of parameters and a body. -/
abbrev ReturnType := TypeText ['{', ';', '=', '\n']

namespace ReturnType

variable {b : Bytes} {i k : Nat}

/-- Where a type that starts with a group goes on, no arrow follows. Behind whitespace there would
be an `=` of the type itself, outside of its groups, or one in front of the body. -/
private theorem not_hasAt_arrow (R : ReturnType) (h : b.Holds i (R.bytes ++ Bytes.ofString " \x7b"))
    (hclosed : R.bytes.closedFrom (R.bytes.bars ['{', ';', '=', '\n']) 0 k = true)
    (hk : k ≤ R.bytes.size) : b.hasAt (b.skipSpace (i + k)) "=>" = false := by
  obtain ⟨htype, hend⟩ := Bytes.holds_append.mp h
  have hblank : b.isAt (i + R.bytes.size) ' ' = true := hend.isAt_head rfl
  have hbrace : b.isAt (i + R.bytes.size + 1) '{' = true := hend.isAt_of rfl
  have hle : i + k ≤ b.skipSpace (i + k) := b.le_skipWhile _ _
  refine eq_false_of_ne_true fun harrow => ?_
  have hplaced : b.Holds (b.skipSpace (i + k)) (Bytes.ofString "=>") := Bytes.hasAt_iff.mp harrow
  have hequals : b.isAt (b.skipSpace (i + k)) '=' = true := hplaced.isAt_head rfl
  obtain ⟨n, hn⟩ : ∃ n, b.skipSpace (i + k) = i + n := ⟨b.skipSpace (i + k) - i, by omega⟩
  have hskipped {m : Nat} (hm : i + k ≤ m) (hmn : m < i + n) : b.satAt m Byte.isSpace = true :=
    Bytes.satAt_of_lt_skipWhile hm (Nat.lt_of_lt_of_eq hmn hn.symm)
  rw [hn] at hequals hle
  rcases Nat.lt_or_ge n R.bytes.size with hlt | hge
  · -- the type would have the sign outside of all groups
    have hspace : ∀ m, k ≤ m → m < n → R.bytes.satAt m Byte.isSpace = true := by
      intro m hm hmn
      rw [← htype.satAt (by omega)]
      exact hskipped (by omega) (by omega)
    have hbar := Bytes.not_bar_of_closedFrom
      (Bytes.closedFrom_of_space hclosed (by omega) hspace) hlt
    rw [R.not_isAt htype hlt hbar '=' (by decide)] at hequals
    simp at hequals
  · -- behind the type, there is the blank and the bracket of the body
    obtain rfl | rfl : n = R.bytes.size ∨ n = R.bytes.size + 1 := by
      refine (Nat.lt_or_ge (R.bytes.size + 1) n).elim (fun hlt => ?_) fun hle => by omega
      have hspace := hskipped (m := i + R.bytes.size + 1) (by omega) (by omega)
      rw [Bytes.satAt_of_isAt hbrace] at hspace
      exact absurd hspace (by decide)
    · rw [Bytes.isAt_eq_satAt, Bytes.satAt_of_isAt hblank] at hequals
      exact absurd hequals (by decide)
    · rw [Bytes.isAt_eq_satAt, ← Nat.add_assoc, Bytes.satAt_of_isAt hbrace] at hequals
      exact absurd hequals (by decide)

/-- The search for the end of a type starts in it, outside of all groups. A group at its start is a
round one, and is passed over whole. -/
private theorem exists_skipLeadingGroup (R : ReturnType)
    (h : b.Holds i (R.bytes ++ Bytes.ofString " \x7b")) (hapart : b.isBefore i '=' = false) :
    ∃ k, k ≤ R.bytes.size ∧
      R.bytes.closedFrom (R.bytes.bars ['{', ';', '=', '\n']) 0 k = true ∧
        skipLeadingGroup b i = some (i + k) := by
  have htype := (Bytes.holds_append.mp h).1
  have hbar := Bytes.not_bar_of_closedFrom R.closed R.size_pos
  -- outside of its groups the type holds no curly bracket, so it can only start with a round one
  have hbrace : b.isAt i '{' = false := R.not_isAt htype R.size_pos hbar '{' (by decide)
  cases hgroup : b.satAt i (·.among ['{', '(']) with
  | false => exact ⟨0, Nat.zero_le _, R.closed, by rw [skipLeadingGroup, hgroup]; rfl⟩
  | true =>
    have hopen : b.isAt i '(' = true := by
      obtain ⟨ch, hch, hat⟩ := Bytes.exists_isAt_of_among hgroup
      simp only [List.mem_cons, List.not_mem_nil, or_false] at hch
      rcases hch with rfl | rfl
      · rw [hbrace] at hat
        simp at hat
      · exact hat
    -- behind that bracket one group of the type is open
    have hinner : R.bytes.closedFrom (R.bytes.bars ['{', ';', '=', '\n']) (0 + 1) 1 = true := by
      have hfirst : R.bytes.isAt 0 '(' = true := (htype.satAt R.size_pos _).symm.trans hopen
      have hclosed := R.closed
      rw [Bytes.closedFrom_eq_ite (Bytes.getElem?_of_isAt hfirst) rfl, hbar] at hclosed
      exact hclosed
    obtain ⟨close, hle, hlt, hclose, hrest⟩ := (R.typeAt htype hapart).exists_findClose hinner
    have hclose : findClose b .type (i + 1) = i + close := hclose
    have hsize := htype.le_size R.size_pos
    refine ⟨close + 1, hlt, hrest, ?_⟩
    rw [skipLeadingGroup, hgroup, hclose]
    simp only [if_true]
    rw [if_pos (by omega), Nat.add_assoc, R.not_hasAt_arrow h hrest hlt, Bool.and_false]
    rfl

/-- The end of a return type is found in front of the body. The search passes over the rest of the
type (`Bytes.TypeAt.findStopFrom_eq`) and the blank to the bracket, and the blank is trimmed. -/
theorem returnTypeStop_eq (R : ReturnType) (hfollows : followsParameters b i = true)
    (h : b.Holds i (R.ascription ++ Bytes.ofString " \x7b")) :
    returnTypeStop b i = some (i + R.ascription.size) := by
  obtain ⟨hascription, hend⟩ := Bytes.holds_append.mp h
  obtain ⟨hcolon, hblank, htype⟩ := TypeText.ascription_cases hascription
  have hsize : i + R.ascription.size = i + 1 + 1 + R.bytes.size := by
    rw [R.size_ascription]
    omega
  rw [hsize] at hend ⊢
  have hspace : b.isAt (i + 1 + 1 + R.bytes.size) ' ' = true := hend.isAt_head rfl
  have hbrace : b.isAt (i + 1 + 1 + R.bytes.size + 1) '{' = true := hend.isAt_of rfl
  have hapart : b.isBefore (i + 1 + 1) '=' = false := by
    rw [Bytes.isBefore, Nat.add_sub_cancel, Bytes.isAt_eq_satAt, Bytes.satAt_of_isAt hblank]
    rfl
  have hskip : b.skipSpace (i + 1) = i + 1 + 1 := by
    refine Bytes.skipWhile_eq (by omega) (fun k hk hki => ?_) (R.not_isSpace_head htype)
    rw [show k = i + 1 by omega, Bytes.satAt_of_isAt hblank]
    rfl
  obtain ⟨k, hk, hclosed, hgroup⟩ := R.exists_skipLeadingGroup (htype.append hend) hapart
  -- the search goes on behind the type, up to the bracket of the body
  have hstop : findStop b .type (fun j => b.satAt j (·.among ['{', ';']) ||
      (b.isAt j '=' && b.isAt (j + 1) '>') || endsLine b (i + 1) j) (i + 1 + 1 + k) =
        i + 1 + 1 + R.bytes.size + 1 := by
    rw [findStop, (R.typeAt htype hapart).findStopFrom_eq (fun m hm hbar => ?_) hclosed hk,
      findStopFrom_of_isBlank hspace, findStopFrom_of_stop (Bytes.lt_size_of_isAt hbrace)]
    · rw [Bytes.satAt_of_isAt hbrace]
      rfl
    · rw [endsLine]
      simp only [Bytes.isAt_eq_satAt, Bytes.satAt_of_isAt hspace]
      rfl
    · rw [Bytes.not_among_of_subset (R.not_among htype hm hbar) rfl, endsLine,
        R.not_isAt htype hm hbar '=' (by decide), R.not_isAt htype hm hbar '\n' (by decide)]
      rfl
  -- the blank before the bracket is no part of the type
  have htrim : b.trimEnd (i + 1) (i + 1 + 1 + R.bytes.size + 1) = i + 1 + 1 + R.bytes.size := by
    rw [Bytes.trimEnd, Bytes.satAt_of_isAt hspace, if_pos]
    · exact Bytes.trimEnd_of_ink (by omega) (R.not_isSpace_last htype)
    · rw [decide_eq_true (by omega)]
      rfl
  rw [returnTypeStop, if_pos hfollows, hskip, hgroup]
  simp only [hstop, htrim]
  rw [if_pos]
  rw [Bytes.satAt_of_isAt hbrace, decide_eq_true (by omega)]
  rfl

/-- **A return type is a construct**, and is replaced as it is. -/
theorem nextMatch_eq (R : ReturnType) {r : Rules} (hon : r.enables .returnType = true)
    (hfollows : followsParameters b i = true)
    (h : b.Holds i (R.ascription ++ Bytes.ofString " \x7b")) :
    r.nextMatch b i = some ⟨.returnType, ⟨i, i + 1⟩⟩ ∧
      patchOf b ⟨.returnType, ⟨i, i + 1⟩⟩ = .erase b i (i + R.ascription.size) := by
  obtain ⟨hcolon, hblank, -⟩ := TypeText.ascription_cases (Bytes.holds_append.mp h).1
  have hstop := R.returnTypeStop_eq hfollows h
  have hsingle : b.isAt (i + 1) ':' = false := (Bytes.satAt_of_isAt hblank _).trans rfl
  constructor
  · refine Rules.nextMatch_of_matchAt hon ?_ rfl fun k hk =>
      matchAt_eq_none_of_rank (q := .returnType) hcolon (by decide) hk
    rw [Construct.matchAt, returnTypeAt, hcolon, hsingle, hstop]
    rfl
  · simp only [patchOf, returnTypePatch, Match.start, hstop, Option.getD_some]

end ReturnType

/-- **A return type is written as a comment**, if it follows a list of parameters. -/
theorem Rules.Writes.result {r : Rules} (hon : r.enables .returnType = true)
    {b done rest out : Bytes} (R : ReturnType)
    (hb : b = done ++ (R.ascription ++ (Bytes.ofString " \x7b" ++ rest)))
    (hfollows : followsParameters b done.size = true)
    (h : r.Writes (done ++ R.ascription.commentOut) (Bytes.ofString " \x7b" ++ rest) out) :
    r.Writes done (R.ascription ++ (Bytes.ofString " \x7b" ++ rest))
      (R.ascription.commentOut ++ out) := by
  have hplaced : b.Holds done.size _ := hb ▸ Bytes.holds_append_right done _
  simp only [Bytes.holds_append] at hplaced
  obtain ⟨hnext, hpatch⟩ := R.nextMatch_eq hon hfollows (hplaced.1.append hplaced.2.1)
  exact Rules.Writes.erase hb hnext rfl hpatch h

/-! ### The front of a header -/

/-- The keyword of a function. -/
def Ident.function : Ident where
  bytes := Bytes.ofString "function"
  head := rfl
  parts := rfl

/-- A function with types and without a body. -/
structure FunctionHeader where
  name : Ident
  generics : Option Generics
  params : List Param
  result : ReturnType
  name_ne : name.bytes ∉ (["class", "implements"] ++ controlWords).map Bytes.ofString

namespace FunctionHeader

/-- The keyword and the name. -/
def named (f : FunctionHeader) : Bytes :=
  Bytes.ofString "function " ++ f.name.bytes

/-- What stands in front of the parameters, divided into what is kept and what is commented out. -/
def front (f : FunctionHeader) : List Piece :=
  .kept (Bytes.ofString "function ") :: .kept f.name.bytes :: genericPieces f.generics

/-- The function, divided into what is kept and what is commented out. -/
def pieces (f : FunctionHeader) : List Piece :=
  f.front ++ .kept (Bytes.ofString "(") :: (paramPieces f.params ++
    [.kept (Bytes.ofString ")"), .erased f.result.ascription, .kept (Bytes.ofString " \x7b\x7d")])

variable {b : Bytes} {f : FunctionHeader} {i : Nat}

/-- A function is not named like a control word or a part of a class header. -/
private theorem name_ne_of_mem (f : FunctionHeader) {w : String}
    (hw : w ∈ ["class", "implements"] ++ controlWords) : f.name.bytes ≠ Bytes.ofString w :=
  fun hname => f.name_ne (List.mem_map.mpr ⟨w, hw, hname.symm⟩)

/-- The header starts with a declaration, whatever is done to its type parameters: the keyword, a
blank and the name, with a byte behind it that is no part of a name. -/
theorem declares {t : Bytes} {chars : List Char}
    (h : b.Holds 0 (Bytes.ofString "function " ++ (f.name.bytes ++ t)))
    (ht : t.satAt 0 (·.among chars) = true)
    (hchars : chars.all (fun ch => !(Byte.ofChar ch).isNamePart) = true) :
    Declares b Ident.function f.name ∧ b.satAt (9 + f.name.bytes.size) (·.among chars) = true := by
  have hsplit : Bytes.ofString "function " = Ident.function.bytes ++ Bytes.ofString " " := rfl
  rw [hsplit] at h
  simp only [Array.append_assoc, Bytes.holds_append, Nat.zero_add] at h
  obtain ⟨hkeyword, hblank, hname, hrest⟩ := h
  have hstop : b.satAt (9 + f.name.bytes.size) (·.among chars) = true := hrest.satAt_head ht
  have hend := Bytes.not_satAt_of_among chars hstop hchars
  exact ⟨⟨hkeyword, hblank.isAt_head rfl, hname, hend⟩, hstop⟩

/-- The size of the keyword and the name. -/
private theorem size_named (f : FunctionHeader) : f.named.size = 9 + f.name.bytes.size := by
  rw [named, Array.size_append]
  rfl

/-- They end with a byte of the name. -/
private theorem isNamePart_named (f : FunctionHeader) :
    f.named.satAt (f.named.size - 1) Byte.isNamePart = true := by
  have hpos := f.name.size_pos
  have hname : f.named.Holds 9 f.name.bytes :=
    Bytes.holds_append_right (Bytes.ofString "function ") _
  rw [f.size_named]
  exact Ident.isNamePart hname (by omega) (by omega)

/-- Nothing starts in front of the type parameters. The keyword of a function starts no construct,
and neither does its name, since a list follows it at once. -/
private theorem silentAt_named {rest : Bytes} (hb : b = f.named ++
      (Piece.sourceOf (genericPieces f.generics) ++ (Bytes.ofString "(" ++ rest)))
    (hi : i < f.named.size) : SilentAt b i := by
  -- behind the name there is one of the two lists
  have hfirst : (Piece.sourceOf (genericPieces f.generics) ++ (Bytes.ofString "(" ++ rest)).satAt 0
      (·.among ['<', '(']) = true := by
    cases f.generics with
    | none =>
      rw [show Piece.sourceOf (genericPieces none) = #[] from rfl, Array.empty_append]
      exact Bytes.satAt_append_of rfl _
    | some g =>
      have hopen : g.text.satAt 0 (·.among ['<', '(']) = true := Bytes.satAt_append_of rfl _
      exact Bytes.satAt_append_of (Bytes.satAt_append_of hopen _) _
  have hplaced : b.Holds 0 (Bytes.ofString "function " ++ (f.name.bytes ++
      (Piece.sourceOf (genericPieces f.generics) ++ (Bytes.ofString "(" ++ rest)))) := by
    rw [hb, named, Array.append_assoc]
    exact Bytes.holds_zero _
  obtain ⟨hdeclares, hstop⟩ := declares hplaced hfirst rfl
  rw [f.size_named] at hi
  have hskip : b.skipBlanks (9 + f.name.bytes.size) = 9 + f.name.bytes.size :=
    Bytes.skipWhile_eq (Nat.le_refl _) (fun k hk hki => by omega)
      (Bytes.not_satAt_of_among _ hstop rfl)
  have hcast : castAt b Ident.function.bytes.size = none := by
    refine if_neg fun hcond => ?_
    simp only [Bool.and_eq_true, hdeclares.keywordAt_eq (w := "as") rfl, decide_eq_true_eq] at hcond
    -- a function may be named `as`, which no space follows
    obtain ⟨⟨⟨⟨⟨-, has⟩, hspace⟩, -⟩, -⟩, -⟩ := hcond
    have hspace : b.satAt 11 Byte.isSpace = true := hspace
    rw [has, show 9 + (Bytes.ofString "as").size = 11 from rfl] at hstop
    rw [Bytes.not_satAt_of_among _ hstop rfl] at hspace
    simp at hspace
  refine hdeclares.silentAt (by decide) (f.name_ne_of_mem (by decide)) hcast ?_ hi
  refine (congrArg (keywordAt b · "class") hskip).trans ?_
  exact not_keywordAt_of_not_isLetter (Bytes.not_satAt_of_among _ hstop rfl) rfl (by decide)

private theorem outputOf_front (f : FunctionHeader) :
    Piece.outputOf f.front = Bytes.ofString "function " ++
      (f.name.bytes ++ Piece.outputOf (genericPieces f.generics)) := by
  rw [front, Piece.outputOf_cons, Piece.outputOf_cons]
  rfl

/-- A scan backward passes over the front, which is made of names, a space and a comment. -/
private theorem passedBy_front (f : FunctionHeader) :
    ∀ q ∈ f.front, q.PassedBy Byte.isListPart := by
  simp only [front, List.mem_cons]
  rintro q (rfl | rfl | hq)
  · rfl
  · exact f.name.all_isListPart
  · exact passedBy_genericPieces _ _ q hq

section Front

variable (h : b.Holds 0 (Piece.outputOf f.front ++ Bytes.ofString "("))

include h

/-- The front still declares the function when its type parameters have been commented out. -/
private theorem declares_front : Declares b Ident.function f.name := by
  have hfirst : (Piece.outputOf (genericPieces f.generics) ++ Bytes.ofString "(").satAt 0
      (·.among ['/', '(']) = true := by
    cases f.generics with
    | none => rfl
    | some g =>
      have hopen : g.text.commentOut.satAt 0 (·.among ['/', '(']) = true :=
        Bytes.satAt_append_of (Bytes.satAt_append_of rfl _) _
      exact Bytes.satAt_append_of (Bytes.satAt_append_of hopen _) _
  rw [outputOf_front, Array.append_assoc, Array.append_assoc] at h
  exact (declares h hfirst rfl).1

/-- The last code of the front is the name, since type parameters have become a comment. -/
private theorem lastCode_front :
    lastCode b (Piece.outputOf f.front).size = some (9 + f.name.bytes.size - 1) := by
  have hsize : (Piece.outputOf f.front).size =
      9 + f.name.bytes.size + (Piece.outputOf (genericPieces f.generics)).size := by
    rw [outputOf_front, Array.size_append, Array.size_append, ← Nat.add_assoc]
    rfl
  have hgenerics : b.Holds (9 + f.name.bytes.size) (Piece.outputOf (genericPieces f.generics)) := by
    rw [outputOf_front] at h
    simp only [Bytes.holds_append, Nat.zero_add] at h
    exact h.1.2.2
  rw [lastCode, hsize, scanBack_outputOf (p := fun _ => false) rfl (fun k hk => ?_)
    (passedBy_genericPieces _ _) hgenerics]
  · exact Ident.lastCode_eq (declares_front h).name
  · rw [Bytes.satAt, Option.any_false] at hk
    simp at hk

/-- The bracket behind the front opens a list of parameters. Before it stands a name that is no
control word, and no conditional expression is found in the front. -/
private theorem canOpenParameters_front :
    canOpenParameters b (Piece.outputOf f.front).size = true := by
  have hdeclares := declares_front h
  have hpos := f.name.size_pos
  obtain ⟨hfront, hopen⟩ := Bytes.holds_append.mp h
  rw [Nat.zero_add] at hopen
  have hopen : b.isAt (Piece.outputOf f.front).size '(' = true := hopen.isAt_head rfl
  have hpart : b.satAt (9 + f.name.bytes.size - 1) Byte.isNamePart = true :=
    Ident.isNamePart hdeclares.name (show 9 ≤ _ by omega) (show _ < 9 + _ by omega)
  have hword : wordBefore b (9 + f.name.bytes.size) controlWords = false := by
    refine (Ident.wordBefore_eq hdeclares.name hdeclares.apart controlWords).trans ?_
    rw [List.any_eq_false]
    intro w hw heq
    exact f.name_ne_of_mem (List.mem_append_right _ hw) (beq_iff_eq.mp heq).symm
  -- nothing in the front starts a conditional
  have hconditional : inConditional b (Piece.outputOf f.front).size = false := by
    rw [inConditional, ← Nat.zero_add (Piece.outputOf f.front).size,
      scanBack_outputOf rfl (fun k hk => ?_) f.passedBy_front hfront, scanBack]
    · rfl
    · have hstop : b.satAt k (·.among ['\n', ';']) = false :=
        Bytes.satAt_eq_false hk (Byte.excludes_among rfl)
      rw [visitOutside_zero hk rfl, visitConditional, hstop, Bytes.isAt_eq_false hk rfl]
      rfl
  rw [canOpenParameters, hopen, lastCode_front h, hconditional, Option.any_some,
    Nat.sub_add_cancel (by omega), hword, Bytes.isAt_eq_false hpart rfl]
  rfl

/-- The front is no header of a class, since the name is none of its words. -/
private theorem not_endsClassHeader_front :
    endsClassHeader b (Piece.outputOf f.front).size = false := by
  rw [(declares_front h).endsClassHeader_eq (lastCode_front h),
    decide_eq_false (f.name_ne_of_mem (by decide))]
  rfl

end Front

/-- The text up to the return type, when the types in it have been commented out. -/
def listed (f : FunctionHeader) : Bytes :=
  Piece.outputOf f.front ++ (Bytes.ofString "(" ++
    (Piece.outputOf (paramPieces f.params) ++ Bytes.ofString ")"))

private theorem size_listed (f : FunctionHeader) : f.listed.size =
    (Piece.outputOf f.front).size + 1 + (Piece.outputOf (paramPieces f.params)).size + 1 := by
  rw [listed, Array.size_append, Array.size_append, Array.size_append, ← Nat.add_assoc,
    ← Nat.add_assoc]
  rfl

section Listed

variable (h : b.Holds 0 f.listed)

include h

theorem holds_front : b.Holds 0 (Piece.outputOf f.front ++ Bytes.ofString "(") := by
  rw [listed, ← Array.append_assoc, Bytes.holds_append] at h
  exact h.1

theorem isAt_close : b.isAt (f.listed.size - 1) ')' = true := by
  rw [f.size_listed, Nat.add_sub_cancel]
  simp only [listed, Bytes.holds_append, Nat.zero_add] at h
  exact h.2.2.2.isAt_head rfl

/-- The search backward from that bracket finds the first one. -/
private theorem enclosingOpen_listed :
    enclosingOpen b (f.listed.size - 1) = some (Piece.outputOf f.front).size := by
  rw [f.size_listed, Nat.add_sub_cancel]
  simp only [listed, Bytes.holds_append, Nat.zero_add] at h
  exact enclosingOpen_params (h.2.1.isAt_head rfl) h.2.2.1

/-- A return type can follow: the last ink is a bracket, and the one that it closes can open a list
of parameters. -/
private theorem followsParameters_listed : followsParameters b f.listed.size = true := by
  have hclose := isAt_close h
  have hpos : 0 < f.listed.size := by
    rw [f.size_listed]
    omega
  have htrim : b.trimEnd 0 f.listed.size = f.listed.size :=
    Bytes.trimEnd_of_ink hpos ((Bytes.satAt_of_isAt hclose _).trans rfl)
  rw [followsParameters, htrim, enclosingOpen_listed h, Bytes.isBefore, hclose, Option.any_some,
    canOpenParameters_front (holds_front h), decide_eq_true hpos]
  rfl

/-- A curly bracket that follows does not open the body of a class. The search for a class header
passes over the list of parameters and comes to the front. -/
private theorem not_endsClassHeader_listed {k : Nat}
    (hlast : lastCode b k = some (f.listed.size - 1)) : endsClassHeader b k = false := by
  have hclose := isAt_close h
  have hpart : b.satAt (f.listed.size - 1) Byte.isNamePart = false :=
    (Bytes.satAt_of_isAt hclose _).trans rfl
  have hstart : headerPartStart b (f.listed.size - 1) = some (Piece.outputOf f.front).size := by
    rw [headerPartStart, hpart, Bytes.satAt_of_isAt hclose, hclose]
    exact enclosingOpen_listed h
  rw [Alike.endsClassHeader_eq_match, hlast]
  simp only [hstart, hpart, not_endsClassHeader_front (holds_front h)]
  rfl

/-- The last code before the body is the end of the list, since the return type has become a
comment. -/
private theorem lastCode_listed {t : Bytes} (hslash : ∀ k, t.isAt k '/' = false)
    (ht : b.Holds f.listed.size (t.commentOut ++ Bytes.ofString " ")) :
    lastCode b (f.listed.size + t.commentOut.size + 1) = some (f.listed.size - 1) := by
  obtain ⟨hcomment, hblank⟩ := Bytes.holds_append.mp ht
  have hclose := isAt_close h
  have hpos : 0 < f.listed.size := by
    rw [f.size_listed]
    omega
  have hcode := lastCode_of_ink ((Bytes.satAt_of_isAt hclose _).trans rfl)
    ((Bytes.satAt_of_isAt hclose _).trans rfl)
  rw [lastCode_of_space (Nat.le_succ _) fun k hk hki => ?_]
  · rwa [Nat.sub_add_cancel hpos, lastCode, ← scanBack_commentOut hcomment hslash] at hcode
  · rw [show k = f.listed.size + t.commentOut.size by omega]
    exact hblank.satAt_head rfl

end Listed

/-- Nothing starts in the body, at none of its three bytes. Its bracket could only open that of a
class. -/
private theorem silentAt_body (hb : b = f.listed ++ f.result.ascription.commentOut ++
      (Bytes.ofString " \x7b" ++ Bytes.ofString "\x7d"))
    (hi : f.listed.size + f.result.ascription.commentOut.size ≤ i)
    (hlt : i < f.listed.size + f.result.ascription.commentOut.size + 3) : SilentAt b i := by
  have hsplit : Bytes.ofString " \x7b" = Bytes.ofString " " ++ Bytes.ofString "\x7b" := rfl
  have h : b.Holds 0 (f.listed ++ f.result.ascription.commentOut ++
      (Bytes.ofString " " ++ Bytes.ofString "\x7b" ++ Bytes.ofString "\x7d")) := by
    rw [hb, hsplit]
    exact Bytes.holds_zero _
  simp only [Array.append_assoc, Bytes.holds_append, Nat.zero_add] at h
  obtain ⟨hlisted, hresult, hblank, hbrace, hclose⟩ := h
  have hlast := lastCode_listed hlisted f.result.ascription_noSlash (hresult.append hblank)
  obtain ⟨c, hc⟩ : ∃ c, c = f.listed.size + f.result.ascription.commentOut.size := ⟨_, rfl⟩
  rw [← hc] at hi hlt hblank hbrace hclose hlast
  have hblank : b.isAt c ' ' = true := hblank.isAt_head rfl
  have hbrace : b.isAt (c + 1) '{' = true := hbrace.isAt_head rfl
  have hclose : b.isAt (c + 2) '}' = true := hclose.isAt_head rfl
  -- no word starts with a bracket
  have hword {w : String} (hw : (Bytes.ofString w).toList.all Byte.isLetter = true)
      (hpos : 0 < (Bytes.ofString w).size) : keywordAt b (c + 1) w = false :=
    not_keywordAt_of_not_isLetter ((Bytes.satAt_of_isAt hbrace _).trans rfl) hw hpos
  obtain rfl | rfl | rfl : i = c ∨ i = c + 1 ∨ i = c + 2 := by omega
  · exact silentAt_of_blank hblank (hword rfl (by decide)) (castAt_eq_none (hword rfl (by decide)))
  · exact silentAt_of_brace hbrace (not_endsClassHeader_listed hlisted hlast)
  · exact silentAt_of_isAt hclose rfl rfl

/-- The source, from left to right. -/
theorem sourceOf_pieces (f : FunctionHeader) :
    Piece.sourceOf f.pieces = f.named ++ (Piece.sourceOf (genericPieces f.generics) ++
      (Bytes.ofString "(" ++ (Piece.sourceOf (paramPieces f.params) ++ (Bytes.ofString ")" ++
        (f.result.ascription ++ (Bytes.ofString " \x7b" ++ Bytes.ofString "\x7d")))))) := by
  have hbody : Bytes.ofString " \x7b\x7d" = Bytes.ofString " \x7b" ++ Bytes.ofString "\x7d" := rfl
  simp only [pieces, front, named, hbody, List.cons_append, Piece.sourceOf_cons,
    Piece.sourceOf_append, Piece.source, Piece.sourceOf_nil, Array.append_assoc, Array.append_empty]

/-- What is written for it, from left to right. -/
theorem outputOf_pieces (f : FunctionHeader) :
    Piece.outputOf f.pieces = f.named ++ (Piece.outputOf (genericPieces f.generics) ++
      (Bytes.ofString "(" ++ (Piece.outputOf (paramPieces f.params) ++ (Bytes.ofString ")" ++
        (f.result.ascription.commentOut ++
          (Bytes.ofString " \x7b" ++ Bytes.ofString "\x7d")))))) := by
  have hbody : Bytes.ofString " \x7b\x7d" = Bytes.ofString " \x7b" ++ Bytes.ofString "\x7d" := rfl
  simp only [pieces, front, named, hbody, List.cons_append, Piece.outputOf_cons,
    Piece.outputOf_append, Piece.output, Piece.outputOf_nil, Array.append_assoc, Array.append_empty]

end FunctionHeader

/-- What is commented out holds no slash, so that the comment holds it as it is. -/
private theorem FunctionHeader.output_erased (f : FunctionHeader) {t : Bytes}
    (h : .erased t ∈ f.pieces) :
    (Piece.erased t).output = Bytes.ofString "/*" ++ t ++ Bytes.ofString "*/" := by
  refine Bytes.commentOut_of_noSlash ?_
  simp only [pieces, List.mem_append, List.mem_cons, reduceCtorEq, false_or, List.not_mem_nil,
    or_false] at h
  rcases h with hfront | hparam | hresult
  · exact f.passedBy_front _ hfront
  · exact passedBy_paramPieces f.params _ hparam
  · rw [Piece.erased.inj hresult]
    exact f.result.ascription_noSlash

/-- **The header of a function is erased exactly**: its type parameters, the types of its parameters
and its return type are replaced by comments that hold them as they are, and nothing else
changes. -/
theorem erase_functionHeader (f : FunctionHeader) :
    (∃ e, erase {} (Piece.sourceOf f.pieces) = .ok e ∧ e.output = Piece.outputOf f.pieces) ∧
      ∀ t, .erased t ∈ f.pieces →
        (Piece.erased t).output = Bytes.ofString "/*" ++ t ++ Bytes.ofString "*/" := by
  refine ⟨?_, fun t ht => f.output_erased ht⟩
  rw [f.sourceOf_pieces, f.outputOf_pieces]
  have hlisted : #[] ++ f.named ++ Piece.outputOf (genericPieces f.generics) ++
      Bytes.ofString "(" ++ Piece.outputOf (paramPieces f.params) ++ Bytes.ofString ")" =
        f.listed := by
    simp only [FunctionHeader.listed, FunctionHeader.named, f.outputOf_front, Array.append_assoc,
      Array.empty_append]
  -- from left to right; each part is read behind what has been written for the parts before it
  refine Rules.Writes.copy Array.empty_append.symm (fun i _ hi => ?_)
    (Rules.Writes.generics rfl ?_ f.generics
      (Rules.Writes.sign '(' rfl rfl rfl rfl (Rules.Writes.params rfl f.params
        (Rules.Writes.sign ')' rfl rfl rfl rfl ?_))))
  · -- the keyword and the name are copied
    rw [Array.size_empty, Nat.zero_add] at hi
    exact FunctionHeader.silentAt_named rfl hi
  · rw [Array.empty_append]
    exact f.isNamePart_named
  · -- behind the list of parameters comes the return type, and then the body
    rw [hlisted]
    refine Rules.Writes.result rfl f.result rfl ?_ (Rules.Writes.of_silent rfl fun i hi hlt => ?_)
    · exact FunctionHeader.followsParameters_listed (Bytes.holds_append.mp (Bytes.holds_zero _)).1
    · rw [Array.size_append] at hi hlt
      exact FunctionHeader.silentAt_body rfl hi hlt

/-- A function may be named `as`, its lists may hold lists, and a type may hold a string or a
function type. -/
theorem erase_functionHeader_nested :
    ∃ f : FunctionHeader,
      Piece.sourceOf f.pieces =
        Bytes.ofString "function as<T, U<V>>(x: (',)'), y: () => T): M<T> \x7b\x7d" ∧
      Piece.outputOf f.pieces = Bytes.ofString
        "function as/*<T, U<V>>*/(x/*: (',)')*/, y/*: () => T*/)/*: M<T>*/ \x7b\x7d" ∧
      (∃ e, erase {} (Piece.sourceOf f.pieces) = .ok e ∧ e.output = Piece.outputOf f.pieces) ∧
        ∀ t, .erased t ∈ f.pieces →
          (Piece.erased t).output = Bytes.ofString "/*" ++ t ++ Bytes.ofString "*/" := by
  let f : FunctionHeader := {
    name := ⟨Bytes.ofString "as", by decide, by decide⟩
    generics := some ⟨Bytes.ofString "T, U<V>", by decide, by decide, by decide +kernel⟩
    params := [
      ⟨⟨Bytes.ofString "x", by decide, by decide⟩,
        ⟨Bytes.ofString "(',)')", by decide, by decide, by decide, by decide +kernel⟩⟩,
      ⟨⟨Bytes.ofString "y", by decide, by decide⟩,
        ⟨Bytes.ofString "() => T", by decide, by decide, by decide, by decide +kernel⟩⟩]
    result := ⟨Bytes.ofString "M<T>", by decide, by decide, by decide, by decide +kernel⟩
    name_ne := by decide }
  exact ⟨f, by decide +kernel, by decide +kernel, erase_functionHeader f⟩

end TypeErasure
