import TypeErasure.Token
import TypeErasure.Proofs.Reach
import TypeErasure.Proofs.Checked.Class

/-!
# Scanning bytes is safe on text

A run cuts a text at seams, so that all of its pieces are texts; what it writes is made of them, and
so the text that the next round sees is a text again. By induction over the states that a run comes
to, `done` and `rest` are texts in each of them (`Rules.isText_of_reaches`), and whatever a round
does there is safe (`Rules.Safe`). Tokens are cut at seams as well (`seam_of_mem_tokensFrom`).
-/

namespace TypeErasure

/-! ### Pieces -/

/-- The segments of a text are texts. By induction on the segments. -/
theorem Cuts.isText {b : Bytes} {i j : Nat} {segments : List Segment} (h : Cuts b i segments j)
    (hb : b.IsText) : ∀ s ∈ segments, s.source.IsText := by
  -- a segment is what lies between two seams
  have hslice {i j : Nat} (hi : Seam b i) (hij : i ≤ j) (hj : Seam b j) : (b.slice i j).IsText :=
    (hi.boundary hb).isText_slice (hj.boundary hb) hij
  induction h with
  | nil => simp
  | keep hi hij tail ih => exact List.forall_mem_cons.mpr ⟨hslice hi hij tail.seam_left, ih⟩
  | erase hi hij _ tail ih => exact List.forall_mem_cons.mpr ⟨hslice hi hij tail.seam_left, ih⟩
  | nested hi hij tail ih => exact List.forall_mem_cons.mpr ⟨hslice hi hij tail.seam_left, ih⟩

/-- All pieces are texts. -/
def Piece.AllText (ps : List Piece) : Prop :=
  ∀ p ∈ ps, p.source.IsText

namespace Piece.AllText

variable {ps qs : List Piece}

theorem append (hp : AllText ps) (hq : AllText qs) : AllText (ps ++ qs) :=
  List.forall_mem_append.mpr ⟨hp, hq⟩

/-- **The output of pieces that are texts is a text.** By induction on the pieces. -/
theorem outputOf (h : AllText ps) : (outputOf ps).IsText := by
  induction ps with
  | nil => exact Bytes.isText_empty
  | cons p ps ih =>
    obtain ⟨hp, hps⟩ := List.forall_mem_cons.mp h
    rw [outputOf_cons]
    refine Bytes.IsText.append ?_ (ih hps)
    -- a comment around a text is a text
    cases p with
    | kept => exact hp
    | erased => exact hp.commentOut

end Piece.AllText

/-- If the segments of a patch are texts, then so are the pieces that it is filled with. By
induction on the segments; for a nested text this is the hypothesis on inner runs. -/
private theorem Filled.allText {segments : List Segment} {f : Filling}
    (h : Filled (fun t e => t.IsText → Piece.AllText e.pieces) segments f)
    (hs : ∀ s ∈ segments, s.source.IsText) : Piece.AllText f.pieces := by
  induction h with
  | nil => simp [Piece.AllText]
  | piece _ ih =>
    obtain ⟨hp, hrest⟩ := List.forall_mem_cons.mp hs
    exact List.forall_mem_cons.mpr ⟨hp, ih hrest⟩
  | nested inner _ ih =>
    obtain ⟨ht, hrest⟩ := List.forall_mem_cons.mp hs
    exact (inner ht).append (ih hrest)

/-! ### Rounds and runs -/

namespace Rules

variable {r : Rules} {done rest : Bytes} {m : Match} {f : Filling}

/-- The places at which a round cuts its text are boundaries. All of them are seams of the text
(`Rules.severs`), but for the cursor, where two texts meet. -/
theorem boundaries (hdone : done.IsText) (hrest : rest.IsText)
    (h : r.nextMatch (done ++ rest) done.size = some m) :
    (done ++ rest).Boundary done.size ∧ (done ++ rest).Boundary m.start ∧
      (done ++ rest).Boundary m.stop ∧ (done ++ rest).Boundary (patchOf (done ++ rest) m).stop := by
  have htext := hdone.append hrest
  have hsevers := Rules.severs h
  exact ⟨htext.boundary_append hdone, hsevers.cuts.seam_left.boundary htext,
    hsevers.stop.boundary htext, hsevers.cuts.seam_right.boundary htext⟩

/-- **A round leaves texts behind**, if the pieces that it puts in are texts. -/
theorem isText_after (hdone : done.IsText) (hrest : rest.IsText)
    (h : r.nextMatch (done ++ rest) done.size = some m) (hf : Piece.AllText f.pieces) :
    ((done ++ rest).slice done.size m.start).IsText ∧ (Grammar.doneAfter done rest m f).IsText ∧
      (r.grammar.restAfter done rest m).IsText := by
  obtain ⟨hcursor, hstart, -, hstop⟩ := boundaries hdone hrest h
  have hgap := hcursor.isText_slice hstart (r.grammar_lawful.le_start h)
  exact ⟨hgap, (hdone.append hgap).append hf.outputOf,
    hstop.isText_slice hstart.isText.boundary_size hstop.le_size⟩

/-- **All pieces of an erasure of a text are texts.** The induction is on the rounds of the run, and
a round leaves texts behind. -/
theorem allText_of_runFrom {e : Erasure} (hrun : r.grammar.runFrom done rest = .ok e)
    (hdone : done.IsText) (hrest : rest.IsText) : Piece.AllText e.pieces := by
  have hg := r.grammar_lawful
  refine hg.run_induction (P := fun done rest e => done.IsText → rest.IsText →
    Piece.AllText e.pieces) ?_ ?_ hrun hdone hrest
  · -- without another construct all that is left is one piece
    intro done rest _ _ hrest
    exact List.forall_mem_singleton.mpr hrest
  · intro done rest m f e hnext hf _ ih hdone hrest
    have hpieces : Piece.AllText f.pieces :=
      (hf.mono fun _ _ h => h.2 Bytes.isText_empty).allText
        ((Rules.severs hnext).cuts.isText (hdone.append hrest))
    obtain ⟨hgap, hdone', hrest'⟩ := isText_after hdone hrest hnext hpieces
    rw [Erasure.pieces_cons]
    exact List.forall_mem_cons.mpr ⟨hgap, hpieces.append (ih hdone' hrest')⟩

/-- **Every state that a run on a text comes to consists of texts.** By induction on the way to the
state: the run starts with a text, and a round or the start of an inner run leads from texts to
texts. -/
theorem isText_of_reaches {text : Bytes} (h : r.grammar.Reaches text done rest)
    (htext : text.IsText) : done.IsText ∧ rest.IsText := by
  induction h with
  | start => exact ⟨Bytes.isText_empty, htext⟩
  | @next done rest m f _ hnext hfill ih =>
    -- the inner runs give the same pieces as the round did, and these are texts
    obtain ⟨f', hfill', hfilled⟩ : ∃ f,
        fill r.grammar.run (patchOf (done ++ rest) m).segments = .ok f ∧
        Filled (fun t e => t.IsText → Piece.AllText e.pieces)
          (patchOf (done ++ rest) m).segments f := by
      refine exists_fill fun t _ => ?_
      obtain ⟨e, hrun, -⟩ := r.grammar_lawful.exists_runFrom #[] t
      exact ⟨e, hrun, allText_of_runFrom hrun Bytes.isText_empty⟩
    -- a filling is determined by its segments
    obtain rfl : f = f' := Except.ok.inj (hfill.symm.trans hfill')
    exact (isText_after ih.1 ih.2 hnext (hfilled.allText
      ((Rules.severs hnext).cuts.isText (ih.1.append ih.2)))).2
  | inner _ hnext ht ih =>
    exact ⟨Bytes.isText_empty, (Rules.severs hnext).cuts.isText (ih.1.append ih.2) _ ht⟩

/-- **A round is safe** on the text `b` with the cursor at `cursor`: all bytes that it reads are
there, and it cuts the text between characters. -/
structure Safe (r : Rules) (b : Bytes) (cursor : Nat) : Prop where
  /-- The round starts between two characters. -/
  start : b.Boundary cursor
  /-- The search for the next construct reads no byte outside of the text. -/
  search : Checked.nextMatch r b cursor = .ok (r.nextMatch b cursor)
  /-- Neither does the patch of the construct that is found. -/
  patch : ∀ m, r.nextMatch b cursor = some m → Checked.patchOf b m = .ok (patchOf b m)
  /-- The construct starts and ends between characters, and so do the bytes that gave it away. -/
  span : ∀ m, r.nextMatch b cursor = some m →
    b.Boundary m.start ∧ b.Boundary m.stop ∧ b.Boundary (patchOf b m).stop
  /-- So does each of its segments, be it kept, erased or the text of an inner run. -/
  segments : ∀ m, r.nextMatch b cursor = some m →
    ∀ before s behind, (patchOf b m).segments = before ++ s :: behind →
      let start := m.start + Segment.sizeOf before
      b.slice start (start + s.source.size) = s.source ∧
        b.Boundary start ∧ b.Boundary (start + s.source.size)

/-- **A round on texts is safe.** -/
theorem safe (hdone : done.IsText) (hrest : rest.IsText) : r.Safe (done ++ rest) done.size where
  start := (hdone.append hrest).boundary_append hdone
  search := Checked.nextMatch_eq r _ _
  patch _ h := Checked.patchOf_eq (hdone.append hrest) h
  span _ h := (boundaries hdone hrest h).2
  segments m h before s behind hsegments := by
    have htext := hdone.append hrest
    have hcuts := (Rules.severs h).cuts
    rw [hsegments] at hcuts
    obtain ⟨stop, hslice, hle, hstart, hstop⟩ := hcuts.split.2.cons
    have hsize : m.start + Segment.sizeOf before + s.source.size = stop := by
      rw [hslice, Bytes.size_slice hstop.le_size, Nat.add_sub_cancel' hle]
    dsimp only
    rw [hsize, ← hslice]
    exact ⟨rfl, hstart.boundary htext, hstop.boundary htext⟩

end Rules

/-! ### Tokens -/

/-- A byte that is not of a word is an ASCII character. The tests for all other groups are for ASCII
characters. -/
private theorem Byte.isAscii_of_group_ne {c : Byte} (h : c.group ≠ .word) : c.isAscii = true := by
  by_cases hascii : c.isAscii = true
  · exact hascii
  · -- such a byte is in no class of ASCII characters, and so it is left over
    have hnot {p : Byte → Bool} (hp : Byte.Ascii p) : p c = false := by
      cases hpc : p c with
      | false => rfl
      | true => exact absurd (hp c hpc) hascii
    have his (ch : Char) (hch : (ofChar ch).isAscii = true) : c.is ch = false := hnot (ascii_is hch)
    have hopens : c.opens? = none := by
      rw [Byte.opens?, his '(' rfl, his '[' rfl, his '{' rfl, his '<' rfl]
      rfl
    have hcloses : c.closes? = none := by
      rw [Byte.closes?, his ')' rfl, his ']' rfl, his '}' rfl, his '>' rfl]
      rfl
    have hword : c.group = .word := by
      unfold Byte.group
      rw [hnot ascii_isBlank, hnot (ascii_among rfl), hnot (ascii_among rfl),
        hnot (ascii_among rfl), hnot (ascii_among rfl), hopens, hcloses]
      rfl
    exact absurd hword h

variable {b : Bytes} {i : Nat}

/-- A word ends before an ASCII character. The induction follows the run. -/
private theorem seam_groupRunStop_word (hi : i ≤ b.size) : Seam b (groupRunStop b .word i) := by
  fun_induction groupRunStop b .word i with
  | case1 i hlt _ ih => exact ih hlt
  | case2 i hlt hend =>
    by_cases hgroup : b[i].group = .word
    · -- a byte of a word ends the run only if a literal starts there
      cases hl : literalAt b i with
      | none => exact absurd ⟨hgroup, hl⟩ hend
      | some l => exact seam_of_literalAt hl
    · -- any other byte is an ASCII character
      have hascii : b.satAt i Byte.isAscii = true := by
        rw [Bytes.satAt, Array.getElem?_eq_getElem hlt]
        exact Byte.isAscii_of_group_ne hgroup
      exact .of_satAt hascii fun _ h => h
  | case3 i hlt =>
    rw [show i = b.size by omega]
    exact .size b

/-- Any other token consists of ASCII characters. The induction follows the run: behind each of its
bytes there is a seam. -/
theorem Seam.groupRunStop {g : CharGroup} (hi : Seam b i) (hg : g ≠ .word) :
    Seam b (groupRunStop b g i) := by
  fun_induction TypeErasure.groupRunStop b g i with
  | case1 i hlt hrun ih =>
    have hascii : b.satAt i Byte.isAscii = true := by
      rw [Bytes.satAt, Array.getElem?_eq_getElem hlt]
      exact Byte.isAscii_of_group_ne (hrun.1 ▸ hg)
    exact ih (.succ_of_satAt hascii fun _ h => h)
  | case2 => exact hi
  | case3 => exact hi

/-- A token that is no literal ends at a seam. -/
private theorem seam_groupTokenStop (hi : i < b.size) : Seam b (groupTokenStop b b[i].group i) := by
  unfold groupTokenStop
  by_cases hword : b[i].group = .word
  · rw [hword]
    exact seam_groupRunStop_word hi
  · have hascii : b.satAt i Byte.isAscii = true := by
      rw [Bytes.satAt, Array.getElem?_eq_getElem hi]
      exact Byte.isAscii_of_group_ne hword
    have hnext : Seam b (i + 1) := .succ_of_satAt hascii fun _ h => h
    split
    · exact hnext.groupRunStop hword
    · exact hnext

/-- **Tokens are cut out at seams.** The induction follows the lexer, from seam to seam. -/
theorem seam_of_mem_tokensFrom {t : Token} (hi : Seam b i) (h : t ∈ tokensFrom b i) :
    Seam b t.span.start ∧ Seam b t.span.stop ∧ t.span.start ≤ t.span.stop ∧
      t.text = t.span.text b := by
  fun_induction tokensFrom b i with
  | case1 i hlt l hl ih =>
    rcases List.mem_cons.mp h with rfl | h
    · have hstart : l.span.start = i := start_of_literalAt hl
      refine ⟨?_, .of_literalAt hl, ?_, rfl⟩
      · exact hstart.symm ▸ hi
      · exact hstart.symm ▸ Nat.le_of_lt (lt_stop_of_literalAt hl)
    · exact ih (.of_literalAt hl) h
  | case2 i hlt _ g stop _ ih => exact ih (seam_groupTokenStop hlt) h
  | case3 i hlt _ g stop kind _ ih =>
    rcases List.mem_cons.mp h with rfl | h
    · exact ⟨hi, seam_groupTokenStop hlt, Nat.le_of_lt (lt_groupTokenStop b g i), rfl⟩
    · exact ih (seam_groupTokenStop hlt) h
  | case4 => simp at h

/-! ### Erasure -/

/-- **Scanning the bytes of a text is safe.** The output of an erasure is a text again, and so are
the pieces of the source. In every round that the run or an inner run comes to, all bytes that are
read are there and all cuts are made between characters; literals can be looked for anywhere. The
tokens of a text are texts, too. -/
theorem erase_safe (r : Rules) (s : String) :
    (∃ e, erase r (.ofString s) = .ok e ∧ (∃ out, e.output.decode? = some out) ∧
      ∀ p ∈ e.pieces, ∃ t, p.source.decode? = some t) ∧
      (∀ done rest, r.grammar.Reaches (.ofString s) done rest →
        r.Safe (done ++ rest) done.size) ∧
      (∀ (b : Bytes) (i : Nat), Checked.literalAt b i = .ok (literalAt b i)) ∧
      ∀ t ∈ tokenize (.ofString s),
        (Bytes.ofString s).Boundary t.span.start ∧ (Bytes.ofString s).Boundary t.span.stop ∧
          t.span.start ≤ t.span.stop ∧ t.text = t.span.text (.ofString s) ∧
          ∃ u, t.text.decode? = some u := by
  have htext := Bytes.isText_ofString s
  refine ⟨?_, fun done rest hreach => ?_, Checked.literalAt_eq, fun t ht => ?_⟩
  · -- the output is made of the pieces, which are texts
    obtain ⟨e, hrun, -⟩ := r.grammar_lawful.exists_runFrom #[] (.ofString s)
    have hpieces := Rules.allText_of_runFrom hrun Bytes.isText_empty htext
    exact ⟨e, hrun, hpieces.outputOf.decode?, fun p hp => (hpieces p hp).decode?⟩
  · -- a state consists of texts, and on these a round is safe
    obtain ⟨hdone, hrest⟩ := Rules.isText_of_reaches hreach htext
    exact Rules.safe hdone hrest
  · -- tokens start and end at seams, and the first one may start with the text
    have hstart : Seam (.ofString s) 0 := ⟨Nat.zero_le _, .inl rfl⟩
    obtain ⟨hstart, hstop, hle, heq⟩ := seam_of_mem_tokensFrom hstart (List.mem_toArray.mp ht)
    have hslice : t.text.IsText :=
      heq.symm ▸ (hstart.boundary htext).isText_slice (hstop.boundary htext) hle
    exact ⟨hstart.boundary htext, hstop.boundary htext, hle, heq, hslice.decode?⟩

/-- A class whose names are not ASCII: the initializer of its field and the name of the class stand
between characters. -/
theorem erase_safe_class :
    let s := "class Ä { ö: T = é as Ü; }"
    let b := Bytes.ofString s
    let m : Match := ⟨.classMembers, ⟨9, 10⟩⟩
    let value := Segment.nested (.ofString " é as Ü")
    let name : Token := ⟨.word, ⟨6, 8⟩, .ofString "Ä"⟩
    Rules.nextMatch {} (#[] ++ b) 0 = some m ∧
      (∃ before behind, (patchOf (#[] ++ b) m).segments = before ++ value :: behind ∧
        Bytes.Boundary (#[] ++ b) (m.start + Segment.sizeOf before)) ∧
      name ∈ tokenize b ∧ b.Boundary name.span.stop := by
  have hnext : Rules.nextMatch {} (#[] ++ Bytes.ofString "class Ä { ö: T = é as Ü; }") 0 =
      some ⟨.classMembers, ⟨9, 10⟩⟩ := by decide +kernel
  have hvalue : .nested (.ofString " é as Ü") ∈
      (patchOf (#[] ++ Bytes.ofString "class Ä { ö: T = é as Ü; }")
        ⟨.classMembers, ⟨9, 10⟩⟩).segments := by decide +kernel
  have hname : ⟨.word, ⟨6, 8⟩, .ofString "Ä"⟩ ∈
      tokenize (.ofString "class Ä { ö: T = é as Ü; }") := by decide +kernel
  obtain ⟨before, behind, hsegments⟩ := List.append_of_mem hvalue
  obtain ⟨-, hround, -, htokens⟩ := erase_safe {} "class Ä { ö: T = é as Ü; }"
  exact ⟨hnext, ⟨before, behind, hsegments,
    ((hround #[] _ .start).segments _ hnext _ _ _ hsegments).2.1⟩, hname, (htokens _ hname).2.1⟩

end TypeErasure
