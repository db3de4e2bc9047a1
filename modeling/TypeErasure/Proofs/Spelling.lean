import TypeErasure.Token
import TypeErasure.Proofs.Reach
import TypeErasure.Proofs.Alike.Class

/-!
# Erasure does not depend on spelling

Runs on two texts that are alike go in step: in every round both see texts that are alike, find the
same construct, and cut it at the same offsets. The texts stay alike because comments are put in at
the same places of both, and a comment mark parts words without making one (`Alike.insert`).

Main statement: `erasedSpans_eq_of_alike`. The contents of literals are no exception: exchanging the
names in a string changes nothing about what is erased. The same cannot be said of the signs in a
string, because the searches that run backward look into literals (`erasedSpans_ne_of_sign`).
-/

namespace TypeErasure

/-! ### Words and marks between them -/

/-- Every word that the eraser knows is made of letters. -/
private theorem isLetter_vocabulary {w : String} (hw : w ∈ vocabulary) :
    0 < (Bytes.ofString w).size ∧ (Bytes.ofString w).toList.all Byte.isLetter = true := by
  have hall : vocabulary.all (fun w => decide (0 < (Bytes.ofString w).size) &&
      (Bytes.ofString w).toList.all Byte.isLetter) = true := by
    decide
  have h := List.all_eq_true.mp hall w hw
  rwa [Bool.and_eq_true, decide_eq_true_eq] at h

namespace Bytes

variable {x y ins : Bytes}

private theorem getElem?_insert_left {k : Nat} (h : k < x.size) :
    (x ++ ins ++ y)[k]? = (x ++ y)[k]? := by
  rw [Array.append_assoc, Array.getElem?_append_left h, Array.getElem?_append_left h]

private theorem getElem?_insert_right {k : Nat} (h : x.size + ins.size ≤ k) :
    (x ++ ins ++ y)[k]? = (x ++ y)[k - ins.size]? := by
  rw [Array.getElem?_append_right (by rwa [Array.size_append]),
    Array.getElem?_append_right (by omega), Array.size_append]
  congr 1
  omega

private theorem getElem?_insert_mid {k : Nat} (h : k < ins.size) :
    (x ++ ins ++ y)[x.size + k]? = ins[k]? := by
  rw [Array.append_assoc, getElem?_append_add, Array.getElem?_append_left h]

/-- Where a mark without letters is put in, a word stands before it or behind it. It cannot reach
into the mark, since it is made of letters. -/
private theorem hasAt_insert {w : String} (hw : w ∈ vocabulary) (hpos : 0 < ins.size)
    (hins : ins.toList.all (fun c => !c.isLetter) = true) (x y : Bytes) (i : Nat) :
    (x ++ ins ++ y).hasAt i w =
      (decide (i + (ofString w).size ≤ x.size) && (x ++ y).hasAt i w ||
        decide (x.size + ins.size ≤ i) && (x ++ y).hasAt (i - ins.size) w) := by
  obtain ⟨hsize, hletters⟩ := isLetter_vocabulary hw
  rw [Bool.eq_iff_iff, Bool.or_eq_true, Bool.and_eq_true, Bool.and_eq_true, decide_eq_true_eq,
    decide_eq_true_eq]
  constructor
  · intro h
    -- the word does not reach into the mark
    have hout (k : Nat) (hk : k < ins.size) :
        ¬(i ≤ x.size + k ∧ x.size + k < i + (ofString w).size) := by
      intro ⟨hlo, hhi⟩
      have hletter := satAt_of_hasAt (k := x.size + k - i) h (by omega) hletters
      rw [show i + (x.size + k - i) = x.size + k by omega, satAt, getElem?_insert_mid hk,
        Array.getElem?_eq_getElem hk, Option.any_some] at hletter
      have hnot := List.all_eq_true.mp hins _ (Array.getElem_mem_toList hk)
      simp [hletter] at hnot
    by_cases hleft : i + (ofString w).size ≤ x.size
    · refine .inl ⟨hleft, hasAt_iff.mpr fun k hk => ?_⟩
      rw [← getElem?_insert_left (by omega)]
      exact hasAt_iff.mp h k hk
    · -- the word starts behind the mark, for otherwise it would reach into it
      have hright : x.size + ins.size ≤ i := by
        by_cases hi : i < x.size
        · exact absurd ⟨by omega, by omega⟩ (hout 0 hpos)
        · have := hout (i - x.size)
          omega
      refine .inr ⟨hright, hasAt_iff.mpr fun k hk => ?_⟩
      rw [show i - ins.size + k = i + k - ins.size by omega, ← getElem?_insert_right (by omega)]
      exact hasAt_iff.mp h k hk
  · -- a word before the mark or behind it is one of the text
    rintro (⟨hleft, h⟩ | ⟨hright, h⟩)
    · refine hasAt_iff.mpr fun k hk => ?_
      rw [getElem?_insert_left (by omega)]
      exact hasAt_iff.mp h k hk
    · refine hasAt_iff.mpr fun k hk => ?_
      rw [getElem?_insert_right (by omega), show i + k - ins.size = i - ins.size + k by omega]
      exact hasAt_iff.mp h k hk

/-- A word of a range is a word of the text that ends within the range. -/
private theorem hasAt_slice {w : String} (hw : w ∈ vocabulary) (b : Bytes) (i j k : Nat) :
    (b.slice i j).hasAt k w = (decide (i + k + (ofString w).size ≤ j) && b.hasAt (i + k) w) := by
  obtain ⟨hsize, -⟩ := isLetter_vocabulary hw
  rw [Bool.eq_iff_iff, Bool.and_eq_true, decide_eq_true_eq]
  constructor
  · intro h
    -- the word lies within the range, so its bytes are those of the text
    have hle := le_size_of_hasAt h hsize
    rw [slice, Array.size_extract] at hle
    refine ⟨by omega, hasAt_iff.mpr fun n hn => ?_⟩
    rw [← hasAt_iff.mp h n hn, slice, Array.getElem?_extract, if_pos (by omega), Nat.add_assoc]
  · -- and a word of the text that ends within the range is one of the range
    rintro ⟨hj, h⟩
    have hle := le_size_of_hasAt h hsize
    refine hasAt_iff.mpr fun n hn => ?_
    rw [← hasAt_iff.mp h n hn, slice, Array.getElem?_extract, if_pos (by omega), Nat.add_assoc]

end Bytes

namespace Alike

variable {a b x x' y y' : Bytes}

theorem slice (h : Alike a b) (i j : Nat) : Alike (a.slice i j) (b.slice i j) where
  guise := by rw [Bytes.slice, Bytes.slice, Array.map_extract, Array.map_extract, h.guise]
  words w hw k := by rw [Bytes.hasAt_slice hw, Bytes.hasAt_slice hw, h.words w hw]

/-- **Texts stay alike** when the same mark is put in at the same offset. Words stand before the
mark or behind it, where they stood before. -/
theorem insert (h : Alike (x ++ y) (x' ++ y')) (hx : x.size = x'.size) {ins : Bytes}
    (hpos : 0 < ins.size) (hins : ins.toList.all (fun c => !c.isLetter) = true) :
    Alike (x ++ ins ++ y) (x' ++ ins ++ y') where
  guise := by
    -- the texts before and behind the mark have the same guises
    have hguise := h.guise
    rw [Array.map_append, Array.map_append] at hguise
    obtain ⟨hleft, hright⟩ := Array.append_inj hguise (by rw [Array.size_map, Array.size_map, hx])
    rw [Array.map_append, Array.map_append, Array.map_append, Array.map_append, hleft, hright]
  words w hw i := by
    rw [Bytes.hasAt_insert hw hpos hins, Bytes.hasAt_insert hw hpos hins, h.words w hw,
      h.words w hw, hx]

/-- The same with the text behind the mark in two parts. -/
private theorem insert_before {s t ins : Bytes} (h : Alike (x ++ s ++ y) (x' ++ t ++ y'))
    (hx : x.size = x'.size) (hpos : 0 < ins.size)
    (hins : ins.toList.all (fun c => !c.isLetter) = true) :
    Alike (x ++ ins ++ s ++ y) (x' ++ ins ++ t ++ y') := by
  have hjoined : Alike (x ++ (s ++ y)) (x' ++ (t ++ y')) := by
    simpa only [Array.append_assoc] using h
  simpa only [Array.append_assoc] using hjoined.insert hx hpos hins

/-! ### Comments -/

/-- A closing mark is seen in both texts or in none. -/
private theorem closer_eq {c d : Byte} {cs ds : List Byte}
    (h : (c :: cs).map Byte.guise = (d :: ds).map Byte.guise) :
    (c.is '*' && cs.head?.any (·.is '/')) = (d.is '*' && ds.head?.any (·.is '/')) := by
  rw [List.map_cons, List.map_cons, List.cons.injEq] at h
  have hstar : c.is '*' = d.is '*' := Byte.blind_is rfl c d h.1
  -- what stands behind the star is a slash in both or in none
  have hslash : cs.head?.any (·.is '/') = ds.head?.any (·.is '/') := by
    cases cs with
    | nil =>
      obtain rfl : ds = [] := List.map_eq_nil_iff.mp h.2.symm
      rfl
    | cons e es =>
      cases ds with
      | nil => simp at h
      | cons e' es' => exact Byte.blind_is rfl e e' (List.cons.inj h.2).1
  rw [hstar, hslash]

/-- The closing marks in texts that are alike are broken at the same offsets. By induction on the
bytes; what has been put in so far belongs to the text before them. -/
theorem breakClosers {cs ds : List Byte} (hguise : cs.map Byte.guise = ds.map Byte.guise)
    (hx : x.size = x'.size) (h : Alike (x ++ cs.toArray ++ y) (x' ++ ds.toArray ++ y')) :
    (breakClosers cs).length = (TypeErasure.breakClosers ds).length ∧
      Alike (x ++ (TypeErasure.breakClosers cs).toArray ++ y)
        (x' ++ (TypeErasure.breakClosers ds).toArray ++ y') := by
  induction cs generalizing ds x x' with
  | nil =>
    obtain rfl : ds = [] := List.map_eq_nil_iff.mp hguise.symm
    exact ⟨rfl, h⟩
  | cons c cs ih =>
    cases ds with
    | nil => simp at hguise
    | cons d ds =>
      have htail : cs.map Byte.guise = ds.map Byte.guise := (List.cons.inj hguise).2
      have hcons (z : Bytes) (e : Byte) (es : List Byte) :
          z ++ (e :: es).toArray = z ++ #[e] ++ es.toArray := by
        simp
      have hpush : (x ++ #[c]).size = (x' ++ #[d]).size := by
        rw [Array.size_append, Array.size_append, hx]
        rfl
      rw [hcons x, hcons x'] at h
      rw [TypeErasure.breakClosers, TypeErasure.breakClosers, closer_eq hguise]
      split
      · -- a space goes between the two bytes of the mark
        have hspace : Alike (x ++ #[c] ++ #[32] ++ cs.toArray ++ y)
            (x' ++ #[d] ++ #[32] ++ ds.toArray ++ y') :=
          h.insert_before hpush (by decide) (by decide)
        obtain ⟨hlen, halike⟩ := ih htail
          (by simp only [Array.size_append, hx, List.size_toArray, List.length_cons]) hspace
        rw [hcons x, hcons x', hcons (x ++ #[c]), hcons (x' ++ #[d])]
        exact ⟨by rw [List.length_cons, List.length_cons, List.length_cons, List.length_cons, hlen],
          halike⟩
      · -- nothing is put in here
        obtain ⟨hlen, halike⟩ := ih htail hpush h
        rw [hcons x, hcons x']
        exact ⟨by rw [List.length_cons, List.length_cons, hlen], halike⟩

/-- **Texts stay alike** when the same range of both is commented out. Three marks are put in one
after the other: the two ends of the comment, and the blanks that break what would close it in
between. -/
theorem commentOut {s t : Bytes} (h : Alike (x ++ s ++ y) (x' ++ t ++ y')) (hx : x.size = x'.size)
    (hs : s.size = t.size) :
    s.commentOut.size = t.commentOut.size ∧
      Alike (x ++ s.commentOut ++ y) (x' ++ t.commentOut ++ y') := by
  -- the guises of the range are a part of those of the text
  have hguise : s.toList.map Byte.guise = t.toList.map Byte.guise := by
    have hall := h.guise
    rw [Array.map_append, Array.map_append, Array.map_append, Array.map_append] at hall
    have hleft := (Array.append_inj hall (by
      simp only [Array.size_append, Array.size_map, hx, hs])).1
    have hmid := (Array.append_inj hleft (by rw [Array.size_map, Array.size_map, hx])).2
    rw [← Array.toList_map, hmid, Array.toList_map]
  -- the opening mark goes before the range, then the closing marks in it are broken
  have hopen : Alike (x ++ Bytes.ofString "/*" ++ s.toList.toArray ++ y)
      (x' ++ Bytes.ofString "/*" ++ t.toList.toArray ++ y') :=
    h.insert_before hx (by decide) (by decide)
  obtain ⟨hlen, hbroken⟩ := breakClosers hguise (by simp only [Array.size_append, hx]) hopen
  have hsize : (x ++ Bytes.ofString "/*" ++ (TypeErasure.breakClosers s.toList).toArray).size =
      (x' ++ Bytes.ofString "/*" ++ (TypeErasure.breakClosers t.toList).toArray).size := by
    simp only [Array.size_append, List.size_toArray, hx, hlen]
  refine ⟨by simp only [Bytes.commentOut, Array.size_append, List.size_toArray, hlen], ?_⟩
  -- and the closing mark goes behind it
  have hclosed : Alike
      (x ++ Bytes.ofString "/*" ++ (TypeErasure.breakClosers s.toList).toArray ++
        Bytes.ofString "*/" ++ y)
      (x' ++ Bytes.ofString "/*" ++ (TypeErasure.breakClosers t.toList).toArray ++
        Bytes.ofString "*/" ++ y') := hbroken.insert hsize (by decide) (by decide)
  simpa only [Bytes.commentOut, Array.append_assoc] using hclosed

end Alike

/-! ### Pieces -/

/-- The pieces have the same size and the same fate. -/
inductive Piece.Twin : Piece → Piece → Prop where
  | kept {s t : Bytes} (h : s.size = t.size) : Twin (.kept s) (.kept t)
  | erased {s t : Bytes} (h : s.size = t.size) : Twin (.erased s) (.erased t)

/-- Texts stay alike when the same pieces of both are commented out. By induction on the pieces. -/
theorem Alike.outputOf {x x' y y' : Bytes} {ps qs : List Piece}
    (hpieces : List.Forall₂ Piece.Twin ps qs) (hx : x.size = x'.size)
    (h : Alike (x ++ Piece.sourceOf ps ++ y) (x' ++ Piece.sourceOf qs ++ y')) :
    (Piece.outputOf ps).size = (Piece.outputOf qs).size ∧
      Alike (x ++ Piece.outputOf ps ++ y) (x' ++ Piece.outputOf qs ++ y') := by
  induction hpieces generalizing x x' with
  | nil => exact ⟨rfl, h⟩
  | @cons p q ps qs hp _ ih =>
    rw [Piece.sourceOf_cons, Piece.sourceOf_cons, ← Array.append_assoc, ← Array.append_assoc] at h
    rw [Piece.outputOf_cons, Piece.outputOf_cons, ← Array.append_assoc, ← Array.append_assoc,
      Array.size_append, Array.size_append]
    cases hp with
    | kept hs =>
      obtain ⟨hsize, halike⟩ := ih (by rw [Array.size_append, Array.size_append, hx, Piece.source,
        Piece.source, hs]) h
      exact ⟨by rw [hsize, Piece.output, Piece.output, hs], halike⟩
    | erased hs =>
      rename_i s t
      -- the erased piece stands between what is done and the other pieces
      have hparts : Alike (x ++ s ++ (Piece.sourceOf ps ++ y))
          (x' ++ t ++ (Piece.sourceOf qs ++ y')) := by
        simpa only [Array.append_assoc, Piece.source] using h
      obtain ⟨hcomment, hnext⟩ := hparts.commentOut hx hs
      rw [← Array.append_assoc, ← Array.append_assoc] at hnext
      obtain ⟨hsize, halike⟩ :=
        ih (by rw [Array.size_append, Array.size_append, hx, hcomment]) hnext
      exact ⟨by rw [hsize, Piece.output, Piece.output, hcomment], halike⟩

/-! ### Runs in step -/

namespace Alike

variable {a b : Bytes} {r : Rules}

/-- The run on a text like that of `e` cuts it at the same offsets. -/
def InStep (r : Rules) (done rest : Bytes) (e : Erasure) : Prop :=
  ∀ done' rest' : Bytes, done.size = done'.size → Alike (done ++ rest) (done' ++ rest') →
    ∃ e', r.grammar.runFrom done' rest' = .ok e' ∧ List.Forall₂ Piece.Twin e.pieces e'.pieces

private theorem size_slice_eq (h : Alike a b) (i j : Nat) :
    (a.slice i j).size = (b.slice i j).size :=
  (h.slice i j).size_eq

/-- Cognate segments are filled with twin pieces. By induction on the segments: the inner runs are
in step by hypothesis. -/
private theorem exists_filled (h : Alike a b) {xs ys : List Segment} {f : Filling}
    (hcognates : Segment.Cognates a b xs ys)
    (hf : Filled (fun t e => Piece.sourceOf e.pieces = t ∧ InStep r #[] t e) xs f) :
    ∃ f', Filled (fun t e => r.grammar.run t = .ok e) ys f' ∧
      List.Forall₂ Piece.Twin f.pieces f'.pieces := by
  induction hcognates generalizing f with
  | nil =>
    cases hf
    exact ⟨⟨[], []⟩, .nil, .nil⟩
  | cons hs _ ih =>
    cases hs with
    | keep i j =>
      cases hf with
      | piece hrest =>
        obtain ⟨f', hf', htwin⟩ := ih hrest
        exact ⟨_, .piece hf', .cons (.kept (h.size_slice_eq i j)) htwin⟩
    | erase i j =>
      cases hf with
      | piece hrest =>
        obtain ⟨f', hf', htwin⟩ := ih hrest
        exact ⟨_, .piece hf', .cons (.erased (h.size_slice_eq i j)) htwin⟩
    | nested i j =>
      cases hf with
      | nested hinner hrest =>
        obtain ⟨f', hf', htwin⟩ := ih hrest
        -- the inner runs start on texts that are alike
        obtain ⟨e', hrun, hpieces⟩ := hinner.2 #[] (b.slice i j) rfl (by
          rw [Array.empty_append, Array.empty_append]
          exact h.slice i j)
        exact ⟨_, .nested hrun hf', List.rel_append hpieces htwin⟩

variable {done done' rest rest' : Bytes} {m : Match} {f f' : Filling}

/-- **After a round** the texts are alike again. The pieces of the round are commented out in both
at the same places (`Alike.outputOf`). -/
theorem after_round (h : Alike (done ++ rest) (done' ++ rest')) (hdone : done.size = done'.size)
    (hnext : r.grammar.next (done ++ rest) done.size = some m)
    (hnext' : r.grammar.next (done' ++ rest') done'.size = some m)
    (hpieces : List.Forall₂ Piece.Twin f.pieces f'.pieces)
    (hf : Filled (fun t e => Piece.sourceOf e.pieces = t)
      (r.grammar.patch (done ++ rest) m).segments f)
    (hf' : Filled (fun t e => Piece.sourceOf e.pieces = t)
      (r.grammar.patch (done' ++ rest') m).segments f') :
    (Grammar.doneAfter done rest m f).size = (Grammar.doneAfter done' rest' m f').size ∧
      Alike (Grammar.doneAfter done rest m f ++ r.grammar.restAfter done rest m)
        (Grammar.doneAfter done' rest' m f' ++ r.grammar.restAfter done' rest' m) := by
  have hg := r.grammar_lawful
  have hgap : (done ++ (done ++ rest).slice done.size m.start).size =
      (done' ++ (done' ++ rest').slice done'.size m.start).size := by
    rw [Array.size_append, Array.size_append, hdone, h.size_slice_eq]
  -- the pieces of the construct are put back between the gap and the rest
  have hwhole {done rest : Bytes} {f : Filling}
      (hnext : r.grammar.next (done ++ rest) done.size = some m)
      (hf : Filled (fun t e => Piece.sourceOf e.pieces = t)
        (r.grammar.patch (done ++ rest) m).segments f) :
      done ++ (done ++ rest).slice done.size m.start ++ Piece.sourceOf f.pieces ++
        r.grammar.restAfter done rest m = done ++ rest := by
    have hrest := hg.append_restAfter hnext f
    rw [(hg.layout hnext).sourceOf_filled hf, Array.append_assoc, Array.append_assoc]
    rw [Array.append_assoc] at hrest
    exact congrArg (done ++ ·) hrest
  rw [← hwhole hnext hf, ← hwhole hnext' hf'] at h
  obtain ⟨hsize, halike⟩ := Alike.outputOf hpieces hgap h
  refine ⟨?_, halike⟩
  calc (Grammar.doneAfter done rest m f).size
      = (done ++ (done ++ rest).slice done.size m.start).size +
          (Piece.outputOf f.pieces).size := Array.size_append
    _ = (Grammar.doneAfter done' rest' m f').size := by
        rw [hgap, hsize, ← Array.size_append, Grammar.doneAfter]

/-- **Runs on texts that are alike go in step.** The induction is on the rounds of the first run:
the second one finds the same construct, and what is written for it leaves texts that are alike. -/
theorem inStep_of_runFrom {e : Erasure} (hrun : r.grammar.runFrom done rest = .ok e) :
    InStep r done rest e := by
  have hg := r.grammar_lawful
  refine hg.run_induction (P := InStep r) ?_ ?_ hrun
  · -- where nothing is found in one text, nothing is found in the other
    intro done rest hnone done' rest' hdone h
    have hnone' : r.grammar.next (done' ++ rest') done'.size = none := by
      rw [← hdone]
      exact (h.nextMatch_eq r _).symm.trans hnone
    have hrest : rest.size = rest'.size := by
      have hsize := h.size_eq
      rw [Array.size_append, Array.size_append] at hsize
      omega
    refine ⟨⟨[], rest'⟩, ?_, .cons (.kept hrest) .nil⟩
    rw [Grammar.runFrom]
    simp only [hnone']
  · intro done rest m f e hnext hf hsource ih done' rest' hdone h
    -- the next construct does not depend on the spelling
    have hnext' : r.grammar.next (done' ++ rest') done'.size = some m := by
      rw [← hdone]
      exact (h.nextMatch_eq r _).symm.trans hnext
    -- its patch cuts both texts at the same offsets
    obtain ⟨k, i, -, -, -, hat⟩ := (r.nextMatch_best (done ++ rest) done.size).found m hnext
    obtain ⟨f', hf', hpieces⟩ := h.exists_filled (h.patchOf_cognate hat).segments hf
    obtain ⟨hsize, halike⟩ := h.after_round hdone hnext hnext' hpieces
      (hf.mono fun _ _ hq => hq.1) (hf'.mono fun _ _ hq => hg.sourceOf_run hq)
    obtain ⟨e', hrun', hrest⟩ := ih _ _ hsize halike
    refine ⟨_, hg.runFrom_round hnext' hf' hrun', ?_⟩
    rw [Erasure.pieces_cons, Erasure.pieces_cons]
    refine .cons (.kept ?_) (List.rel_append hpieces hrest)
    rw [Grammar.round, Grammar.round, hdone]
    exact h.size_slice_eq _ _

end Alike

/-! ### Tokens -/

/-- The bytes of names are those of words. -/
private theorem Byte.group_of_isNamePart {c : Byte} (h : c.isNamePart = true) :
    c.group = .word := by
  have hchars : c.among [' ', '\t', '\r', '\n', '\'', '"', '`', '+', '-', '*', '/', '%', '&', '|',
      '!', '^', '~', '?', ':', '=', ',', ';', '(', '[', '{', '<', ')', ']', '}', '>'] = false :=
    Byte.excludes_among rfl c h
  simp only [Byte.among, List.any_cons, List.any_nil, Bool.or_eq_false_iff] at hchars
  simp [Byte.group, Byte.isBlank, Byte.among, Byte.opens?, Byte.closes?, hchars]

namespace Alike

variable {a b : Bytes}

/-- Bytes of one guise are of one group. -/
private theorem group_eq {c d : Byte} (h : c.guise = d.guise) : c.group = d.group := by
  -- a byte that is no part of a name shows itself
  cases hc : c.isNamePart with
  | true =>
    rw [Byte.group_of_isNamePart hc,
      Byte.group_of_isNamePart ((Byte.blind_isNamePart c d h).symm.trans hc)]
  | false => rw [Byte.eq_of_guise hc h]

/-- Runs of one group end in the same place in both texts. The recursion is that of the run. -/
private theorem groupRunStop_eq (h : Alike a b) (g : CharGroup) (i : Nat) :
    groupRunStop a g i = groupRunStop b g i := by
  rw [groupRunStop, groupRunStop.eq_def b]
  rcases h.getElem?_cases i with ⟨ha, hb⟩ | ⟨c, d, ha, hb, hcd⟩
  · rw [Array.getElem?_eq_none_iff] at ha hb
    rw [dif_neg (by omega), dif_neg (by omega)]
  · obtain ⟨hi, rfl⟩ := Array.getElem?_eq_some_iff.mp ha
    obtain ⟨hi', rfl⟩ := Array.getElem?_eq_some_iff.mp hb
    rw [dif_pos hi, dif_pos hi', group_eq hcd, h.literalAt_eq, h.groupRunStop_eq g (i + 1)]
termination_by a.size - i

private theorem groupTokenStop_eq (h : Alike a b) (g : CharGroup) (i : Nat) :
    groupTokenStop a g i = groupTokenStop b g i := by
  rw [groupTokenStop, groupTokenStop, h.groupRunStop_eq]

/-- Where a literal starts, it is the first token. -/
private theorem tokensFrom_of_literalAt {i : Nat} {l : Literal} (h : literalAt b i = some l) :
    tokensFrom b i = .at b (.literal l.kind) l.span :: tokensFrom b l.span.stop := by
  have hbounds := bounds_of_literalAt h
  rw [tokensFrom, dif_pos (by omega)]
  split
  · rename_i l' hl'
    obtain rfl : l = l' := Option.some.inj (h.symm.trans hl')
    rfl
  · rename_i hnone
    simp [h] at hnone

/-- Elsewhere a run of bytes of one group comes first, which may be no token. -/
private theorem tokensFrom_of_group {i : Nat} {c : Byte} (hc : b[i]? = some c)
    (h : literalAt b i = none) :
    tokensFrom b i =
      (c.group.tokenKind?.map fun kind =>
        Token.at b kind ⟨i, groupTokenStop b c.group i⟩).toList ++
        tokensFrom b (groupTokenStop b c.group i) := by
  obtain ⟨hi, rfl⟩ := Array.getElem?_eq_some_iff.mp hc
  rw [tokensFrom, dif_pos hi]
  split
  · rename_i hl
    simp [h] at hl
  · dsimp only
    split <;> rename_i hkind <;> rw [hkind] <;> rfl

/-- **Texts that are alike have tokens of the same kinds and places.** The recursion is that of the
lexer. -/
theorem tokensFrom_eq (h : Alike a b) (i : Nat) :
    (tokensFrom a i).map (fun t => (t.kind, t.span)) =
      (tokensFrom b i).map fun t => (t.kind, t.span) := by
  rcases h.getElem?_cases i with ⟨ha, hb⟩ | ⟨c, d, ha, hb, hcd⟩
  · rw [Array.getElem?_eq_none_iff] at ha hb
    rw [tokensFrom, tokensFrom, dif_neg (by omega), dif_neg (by omega)]
  · have hlt := (Array.getElem?_eq_some_iff.mp ha).1
    cases hl : literalAt b i with
    | some l =>
      have := bounds_of_literalAt hl
      rw [tokensFrom_of_literalAt hl, tokensFrom_of_literalAt ((h.literalAt_eq i).trans hl),
        List.map_cons, List.map_cons, h.tokensFrom_eq l.span.stop]
      rfl
    | none =>
      have hstop := h.groupTokenStop_eq d.group i
      have := lt_groupTokenStop b d.group i
      -- the token ends at the same place, since it is a run of one group
      rw [tokensFrom_of_group hb hl, tokensFrom_of_group ha ((h.literalAt_eq i).trans hl),
        group_eq hcd, hstop, List.map_append, List.map_append,
        h.tokensFrom_eq (groupTokenStop b d.group i)]
      cases d.group.tokenKind? <;> rfl
termination_by a.size - i

end Alike

/-! ### Erased ranges -/

/-- The ranges of the source that the pieces comment out, where the first piece starts at
`offset`. -/
def Piece.erasedSpans (offset : Nat) : List Piece → List Span
  | [] => []
  | .kept text :: ps => erasedSpans (offset + text.size) ps
  | .erased text :: ps =>
    ⟨offset, offset + text.size⟩ :: erasedSpans (offset + text.size) ps

/-- The ranges of the source that are commented out. -/
def Erasure.erasedSpans (e : Erasure) : List Span :=
  Piece.erasedSpans 0 e.pieces

/-- Twin pieces comment out the same ranges. -/
private theorem Piece.erasedSpans_eq {ps qs : List Piece} (h : List.Forall₂ Piece.Twin ps qs)
    (offset : Nat) : erasedSpans offset ps = erasedSpans offset qs := by
  induction h generalizing offset with
  | nil => rfl
  | cons hp _ ih =>
    cases hp with
    | kept hs => rw [erasedSpans, erasedSpans, hs, ih]
    | erased hs => rw [erasedSpans, erasedSpans, hs, ih]

/-- Whether two texts are alike can be found out: words stand only where there are bytes. -/
instance Alike.decidable (a b : Bytes) : Decidable (Alike a b) :=
  decidable_of_iff
    (a.map Byte.guise = b.map Byte.guise ∧
      ∀ w ∈ vocabulary, ∀ i < a.size, a.hasAt i w = b.hasAt i w) <| by
    refine ⟨fun ⟨hguise, hwords⟩ => ⟨hguise, fun w hw i => ?_⟩,
      fun h => ⟨h.guise, fun w hw i _ => h.words w hw i⟩⟩
    have hsize : a.size = b.size := by
      rw [← Array.size_map (f := Byte.guise), hguise, Array.size_map]
    have hpos := (isLetter_vocabulary hw).1
    by_cases hi : i < a.size
    · exact hwords w hw i hi
    · -- a word behind the end of the text stands in neither
      rw [Bool.eq_iff_iff]
      constructor
      · intro hat
        have := Bytes.le_size_of_hasAt hat hpos
        omega
      · intro hat
        have := Bytes.le_size_of_hasAt hat hpos
        omega

/-- **Erasure does not depend on the spelling of names.** Two texts that are alike have tokens of
the same kinds and places, and under all rules the same ranges of both are commented out. -/
theorem erasedSpans_eq_of_alike (r : Rules) {a b : Bytes} (h : Alike a b) :
    (tokenize a).map (fun t => (t.kind, t.span)) = (tokenize b).map (fun t => (t.kind, t.span)) ∧
      ∃ e e', erase r a = .ok e ∧ erase r b = .ok e' ∧ e.erasedSpans = e'.erasedSpans := by
  constructor
  · rw [tokenize, tokenize, List.map_toArray, List.map_toArray, h.tokensFrom_eq]
  · obtain ⟨e, hrun, -⟩ := r.grammar_lawful.exists_runFrom #[] a
    obtain ⟨e', hrun', hpieces⟩ := Alike.inStep_of_runFrom hrun #[] b rfl (by
      rw [Array.empty_append, Array.empty_append]
      exact h)
    exact ⟨e, e', hrun, hrun', Piece.erasedSpans_eq hpieces 0⟩

/-- Other names in the code and in the string, and the same annotation is commented out. -/
theorem erasedSpans_eq_of_alike_string :
    let a := Bytes.ofString "let s = \"go\", t: T"
    let b := Bytes.ofString "let q = \"XY\", k: V"
    Alike a b ∧
      ∃ e e', erase {} a = .ok e ∧ erase {} b = .ok e' ∧ e.erasedSpans = e'.erasedSpans := by
  have h : Alike (Bytes.ofString "let s = \"go\", t: T")
      (Bytes.ofString "let q = \"XY\", k: V") := by decide +kernel
  exact ⟨h, (erasedSpans_eq_of_alike {} h).2⟩

/-- **The signs in a literal do matter.** The two texts differ in one byte within a string and have
tokens of the same kinds and places, yet the annotation behind the string is commented out in one
of them only: the search for the bracket of the parameter list ends at the `;`. -/
theorem erasedSpans_ne_of_sign :
    let a := Bytes.ofString "function f(s = \";\", a: T) \x7b\x7d"
    let b := Bytes.ofString "function f(s = \"x\", a: T) \x7b\x7d"
    a.size = b.size ∧ (∀ i < a.size, i ≠ 16 → a[i]? = b[i]?) ∧
      (tokenize a).map (fun t => (t.kind, t.span)) = (tokenize b).map (fun t => (t.kind, t.span)) ∧
      literalAt a 15 = some ⟨.string, ⟨15, 18⟩, true⟩ ∧
      (erase {} a).toOption.map (·.erasedSpans) = some [] ∧
      (erase {} b).toOption.map (·.erasedSpans) = some [⟨21, 24⟩] := by
  -- the tokens of both texts
  let tokens : Array (TokenKind × Span) := #[(.word, ⟨0, 8⟩), (.word, ⟨9, 10⟩),
    (.opening .round, ⟨10, 11⟩), (.word, ⟨11, 12⟩), (.separator, ⟨13, 14⟩),
    (.literal .string, ⟨15, 18⟩), (.separator, ⟨18, 19⟩), (.word, ⟨20, 21⟩), (.separator, ⟨21, 22⟩),
    (.word, ⟨23, 24⟩), (.closing .round, ⟨24, 25⟩), (.opening .curly, ⟨26, 27⟩),
    (.closing .curly, ⟨27, 28⟩)]
  have ha : (tokenize (Bytes.ofString "function f(s = \";\", a: T) \x7b\x7d")).map
      (fun t => (t.kind, t.span)) = tokens := by decide +kernel
  have hb : (tokenize (Bytes.ofString "function f(s = \"x\", a: T) \x7b\x7d")).map
      (fun t => (t.kind, t.span)) = tokens := by decide +kernel
  exact ⟨by decide +kernel, by decide +kernel, ha.trans hb.symm, by decide +kernel,
    by decide +kernel, by decide +kernel⟩

end TypeErasure
