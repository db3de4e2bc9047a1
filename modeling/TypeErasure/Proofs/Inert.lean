import TypeErasure.Proofs.Partition
import TypeErasure.Proofs.Token

/-!
# Erased text is inert

What is commented out must not be swallowed by a string or comment around it, nor must it cut one in
two. A piece is `Inlaid` in a text if it starts with ink on the path of a scan and ends next to that
path. The argument has three parts:

* **every erased piece is inlaid** (`Grammar.Lawful.inlaid`), by induction along the run. The pieces
  of a patch are inlaid by its layout, those of the rest of the run since the path behind a patch is
  joined before the next ink, and those of an inner run since a scan of the nested text takes the
  path that a scan of the whole text takes there (`Inlaid.of_slice`);
* **between inlaid pieces the output is read as the source is** (`lexes_outputOf`): from the end of
  one piece to the start of the next the two texts agree, and the comment in the output is one step;
* so the lexer comes to every comment, and it is a token.
-/

namespace TypeErasure

/-! ### Slices and the path -/

/-- The bytes of a slice are those of the text, counted from the start of the slice. -/
theorem Bytes.getElem?_slice {b : Bytes} {i j k : Nat} (hk : k < (b.slice i j).size) :
    (b.slice i j)[k]? = b[i + k]? := by
  have hsize := hk
  rw [slice, Array.size_extract] at hsize
  rw [slice, Array.getElem?_extract_of_lt (by omega), Array.getElem?_eq_getElem]

/-- What is next to a path is next to it from every earlier place on the path. -/
theorem Settles.of_scans {b : Bytes} {c p q : Nat} (h : Settles b c q) (hp : Scans b c p)
    (hpq : p ≤ q) : Settles b p q := by
  obtain ⟨-, w, hw, hqw, hspace⟩ := h
  exact ⟨hpq, w, hp.of_le hw (Nat.le_trans hpq hqw), hqw, hspace⟩

section Slice

variable {b : Bytes} {i j a z : Nat}

/-- A scan of a slice takes the path of the whole text. The byte where the path ends still belongs
to the slice, so the two texts agree on all that the path depends on. -/
theorem Scans.of_slice (h : Scans (b.slice i j) 0 a) (ha : a < (b.slice i j).size) :
    Scans b i (i + a) :=
  h.congr ha (m := i) fun k hk => by
    rw [Nat.zero_add] at hk ⊢
    exact Bytes.getElem?_slice (by omega)

/-- A slice that ends next to the path, with ink, has no other path than the whole text. A scan of
the slice that ends before the slice does is one of the text. A scan that goes to the end of the
slice could be cut short there, but then the slice ends with ink and the place in question is the
end of the slice itself. -/
theorem Settles.of_slice (h : Settles (b.slice i j) 0 z) (hj : j ≤ b.size) (hend : Settles b i j)
    (hink : i < j → b.satAt (j - 1) Byte.isSpace = false) : Settles b i (i + z) := by
  obtain ⟨-, w, hw, hzw, hspace⟩ := h
  have hsize : (b.slice i j).size = j - i := Bytes.size_slice hj
  have hwle := hw.le_size (Nat.zero_le _)
  -- the whitespace at the end of the slice is whitespace of the text
  have hspace' : ∀ k, i + z ≤ k → k < i + w → b.satAt k Byte.isSpace = true := by
    intro k hk hkw
    have := hspace (k - i) (by omega) (by omega)
    rwa [Bytes.satAt_congr (Bytes.getElem?_slice (by omega)),
      Nat.add_sub_cancel' (by omega)] at this
  rcases Nat.lt_or_eq_of_le hwle with hlt | heq
  · -- the path ends before the slice does, so the byte behind it is the same in the text
    exact ⟨by omega, i + w, hw.of_slice hlt, by omega, hspace'⟩
  · -- the slice does not end with whitespace, so `z` is its end
    have hij := hend.1
    obtain rfl : i + z = j := by
      apply Nat.le_antisymm (by omega)
      apply Nat.le_of_not_lt
      intro hlt
      have hlast := hspace' (j - 1) (by omega) (by omega)
      rw [hink (by omega)] at hlast
      simp at hlast
    exact hend

/-- The slashes on the path of a slice open comments, if those of the whole text do. The slash
stands on the path of the whole text too, and opens a comment there. The end of the slice is next to
that path, so it does not part the two bytes of the delimiter. -/
theorem Clean.slice (h : Clean b i) (hj : j ≤ b.size) (hend : Settles b i j) :
    Clean (b.slice i j) 0 := by
  intro q hq hslash
  have hsize : (b.slice i j).size = j - i := Bytes.size_slice hj
  have hlt := Bytes.lt_size_of_isAt hslash
  have hpath := hq.of_slice hlt
  -- the slash stands on the path of the whole text too, where it opens a comment
  have hat : b.isAt (i + q) '/' = true := by
    rwa [← Bytes.isAt_congr (Bytes.getElem?_slice hlt)]
  obtain ⟨stop, hstop⟩ := Option.isSome_iff_exists.mp (h _ hpath hat)
  have htwo := (comment_of_inertStop hstop hat).1
  -- the comment is not cut behind its first byte
  have hnext : q + 1 < (b.slice i j).size := by
    apply Nat.lt_of_not_le
    intro hle
    obtain ⟨-, w, hw, hjw, hspace⟩ := hend
    have hjq : j = i + q + 1 := by omega
    have hcomment : stop ≤ w := by
      have := hpath.next_le hw (by omega)
      rwa [scanNext_of_inertStop hstop] at this
    have hblank := hspace j (Nat.le_refl j) (by omega)
    have hnot := Bytes.satAt_eq_false (comment_of_inertStop hstop hat).2
      (Byte.excludes_isSpace rfl)
    rw [← hjq, hblank] at hnot
    simp at hnot
  -- two bytes tell a comment, and both stand in the slice
  cases hnone : inertStop (b.slice i j) q with
  | some => rfl
  | none =>
    have := inertStop_eq_none_congr hnone (Bytes.getElem?_slice hlt) (Bytes.getElem?_slice hnext)
    rw [this] at hstop
    simp at hstop

end Slice

/-! ### Inlaid pieces -/

/-- **The bytes from `i` to `j` can be commented out**: they start with ink on the path from `c`,
and end next to it. -/
structure Inlaid (b : Bytes) (c i j : Nat) : Prop where
  lt : i < j
  scans : Scans b c i
  ink : StartsInk b i
  settles : Settles b c j

namespace Inlaid

variable {b : Bytes} {c p i j a z : Nat}

/-- What is inlaid in a path that starts next to another one is inlaid in that one too. It starts
with ink, and before ink the two paths have joined. -/
theorem rebase (h : Inlaid b p i j) (hp : Settles b c p) : Inlaid b c i j :=
  ⟨h.lt, hp.scans_of_startsInk h.scans h.ink, h.ink, hp.trans h.settles⟩

/-- Whether a piece is inlaid does not depend on what stands before the text. -/
private theorem append_right_iff {x y : Bytes} :
    Inlaid (x ++ y) (x.size + c) (x.size + i) (x.size + j) ↔ Inlaid y c i j := by
  have hsat (k : Nat) (q : Byte → Bool) : (x ++ y).satAt (x.size + k) q = y.satAt k q :=
    Bytes.satAt_congr (Bytes.getElem?_append_add x y k) q
  have hink : StartsInk (x ++ y) (x.size + i) ↔ StartsInk y i := by
    unfold StartsInk
    rw [hsat, hsat, Nat.add_assoc, hsat]
  constructor
  · -- what lies behind the first text is counted from its end
    rintro ⟨hlt, hscan, hi, hc, w, hw, hjw, hspace⟩
    obtain ⟨v, rfl⟩ : ∃ v, w = x.size + v := ⟨w - x.size, by omega⟩
    refine ⟨by omega, scans_append_right_iff.mp hscan, hink.mp hi, by omega, v,
      scans_append_right_iff.mp hw, by omega, fun k hk hkv => ?_⟩
    rw [← hsat]
    exact hspace (x.size + k) (by omega) (by omega)
  · rintro ⟨hlt, hscan, hi, hc, w, hw, hjw, hspace⟩
    refine ⟨by omega, scans_append_right_iff.mpr hscan, hink.mpr hi, by omega, x.size + w,
      scans_append_right_iff.mpr hw, by omega, fun k hk hkw => ?_⟩
    obtain ⟨v, rfl⟩ : ∃ v, k = x.size + v := ⟨k - x.size, by omega⟩
    rw [hsat]
    exact hspace v (by omega) (by omega)

/-- **What is inlaid in a nested text is inlaid in the text around it.** Its start and its end are
carried over by the lemmas on slices above. -/
theorem of_slice (h : Inlaid (b.slice i j) 0 a z) (hz : z ≤ (b.slice i j).size) (hj : j ≤ b.size)
    (hend : Settles b i j) (hink : i < j → b.satAt (j - 1) Byte.isSpace = false) :
    Inlaid b i (i + a) (i + z) := by
  have hlt := h.lt
  -- the bytes of a slice, by their place in the text
  have hsat {k : Nat} {q : Byte → Bool} (hk : (b.slice i j).satAt k q = true) :
      b.satAt (i + k) q = true := by
    rwa [← Bytes.satAt_congr (Bytes.getElem?_slice (Bytes.lt_size_of_satAt hk))]
  refine ⟨by omega, h.scans.of_slice (by omega), ?_, h.settles.of_slice hj hend hink⟩
  rcases h.ink with hfirst | ⟨hblank, hnext⟩
  · exact .inl (hsat hfirst)
  · exact .inr ⟨hsat hblank, hsat hnext⟩

end Inlaid

/-! ### All erased pieces -/

namespace Piece

/-- All erased pieces satisfy `Q` of their bounds, if the first piece starts at offset `i`. -/
def EachErased (Q : Nat → Nat → Prop) : Nat → List Piece → Prop
  | _, [] => True
  | i, kept s :: rest => EachErased Q (i + s.size) rest
  | i, erased s :: rest => Q i (i + s.size) ∧ EachErased Q (i + s.size) rest

variable {Q R : Nat → Nat → Prop} {i : Nat} {ps qs : List Piece}

/-- A property of all erased pieces holds of pieces that follow each other if it holds of the first
ones and of the others, with the bounds counted on. -/
private theorem eachErased_append :
    EachErased Q i (ps ++ qs) ↔
      EachErased Q i ps ∧ EachErased Q (i + (sourceOf ps).size) qs := by
  induction ps generalizing i with
  | nil => simp [EachErased, sourceOf_nil]
  | cons p ps ih =>
    rw [List.cons_append, sourceOf_cons, Array.size_append, ← Nat.add_assoc]
    cases p with
    | kept s => exact ih
    | erased s =>
      rw [EachErased, EachErased, ih, and_assoc]
      rfl

/-- The bounds of the pieces can be counted from somewhere else. By induction on the pieces. The
property may change with it, and its new form is asked for only of bounds within the pieces. -/
theorem EachErased.shift {d m : Nat} (h : EachErased Q (d + i) ps)
    (hqr : ∀ a z, z ≤ i + (sourceOf ps).size → Q (d + a) (d + z) → R (m + a) (m + z)) :
    EachErased R (m + i) ps := by
  induction ps generalizing i with
  | nil => trivial
  | cons p ps ih =>
    rw [sourceOf_cons, Array.size_append, ← Nat.add_assoc] at hqr
    cases p with
    | kept s =>
      rw [EachErased, Nat.add_assoc] at h ⊢
      exact ih h hqr
    | erased s =>
      rw [EachErased, Nat.add_assoc] at h ⊢
      exact ⟨hqr i (i + s.size) (Nat.le_add_right _ _) h.1, ih h.2 hqr⟩

theorem EachErased.mono (h : EachErased Q i ps) (hqr : ∀ a z, Q a z → R a z) :
    EachErased R i ps := by
  have := EachErased.shift (d := 0) (m := 0) (i := i) (R := R) (by rwa [Nat.zero_add])
    fun a z _ hq => hqr _ _ hq
  rwa [Nat.zero_add] at this

end Piece

/-! ### Runs -/

/-- Every erased piece of a filled patch is inlaid. By induction on the layout. An erased segment is
inlaid by its layout; a nested text is a clean slice, so its inner run gives inlaid pieces by
assumption, which are moved to their place in the text. -/
private theorem Layout.eachErased {b : Bytes} {c i j : Nat} {segments : List Segment} {f : Filling}
    (h : Layout b c i segments j) (hclean : Clean b c)
    (hf : Filled (fun t e => Piece.sourceOf e.pieces = t ∧
      (Clean t 0 → Piece.EachErased (Inlaid t 0) 0 e.pieces)) segments f) :
    Piece.EachErased (Inlaid b c) i f.pieces := by
  induction h generalizing f with
  | nil =>
    cases hf
    trivial
  | @keep i j k rest hij hj _ ih =>
    cases hf with
    | piece hrest =>
      rw [Piece.EachErased, Bytes.size_slice hj, Nat.add_sub_cancel' hij]
      exact ih hrest
  | @erase i j k rest hij hj hscan hink hend _ ih =>
    cases hf with
    | piece hrest =>
      rw [Piece.EachErased, Bytes.size_slice hj, Nat.add_sub_cancel' (Nat.le_of_lt hij)]
      exact ⟨⟨hij, hscan, hink, hend⟩, ih hrest⟩
  | @nested i j k rest hij hj _ hscan hend htrim _ ih =>
    cases hf with
    | nested hinner hrest =>
      obtain ⟨hsource, hinlaid⟩ := hinner
      have hset : Settles b i j := hend.of_scans hscan hij
      have hinner := hinlaid ((hclean.of_scans hscan).slice hj hset)
      refine Piece.eachErased_append.mpr ⟨?_, ?_⟩
      · -- the pieces of the inner run, moved from the nested text to their place in this one
        refine Piece.EachErased.shift (d := 0) (m := i) (i := 0) hinner fun a z hz h => ?_
        rw [Nat.zero_add, hsource] at hz
        rw [Nat.zero_add, Nat.zero_add] at h
        exact (h.of_slice hz hj hset htrim).rebase hscan.settles
      · rw [hsource, Bytes.size_slice hj, Nat.add_sub_cancel' hij]
        exact ih hrest

/-- What stands before the start of the pieces makes no difference. Both directions are a shift of
all bounds by the size of the text in front. -/
private theorem eachErased_append_right_iff {x y : Bytes} {ps : List Piece} :
    Piece.EachErased (Inlaid (x ++ y) x.size) x.size ps ↔ Piece.EachErased (Inlaid y 0) 0 ps := by
  constructor
  · intro h
    refine Piece.EachErased.shift (d := x.size) (m := 0) (i := 0) h fun a z _ h => ?_
    rw [Nat.zero_add, Nat.zero_add]
    exact Inlaid.append_right_iff (c := 0) |>.mp h
  · intro h
    refine Piece.EachErased.shift (d := 0) (m := x.size) (i := 0) h fun a z _ h => ?_
    rw [Nat.zero_add, Nat.zero_add] at h
    exact Inlaid.append_right_iff (c := 0) |>.mpr h

private theorem Bytes.slice_append_rest {b : Bytes} {i : Nat} (h : i ≤ b.size) :
    b.slice 0 i ++ b.slice i b.size = b := by
  rw [slice_append_slice b (Nat.zero_le i) h]
  exact Array.extract_size

/-- What follows a place that starts a clean path is clean. The text is split at that place, and
what stands before a path makes no difference to it. -/
theorem Clean.rest {b : Bytes} {i : Nat} (h : Clean b i) (hi : i ≤ b.size) :
    Clean (b.slice i b.size) 0 := by
  refine Clean.append_right (x := b.slice 0 i) |>.mp ?_
  rw [Bytes.slice_append_rest hi, Bytes.size_slice hi]
  exact h

/-- The source behind a patch is clean, and what is inlaid there is inlaid in the whole text. This
is how the induction hypothesis on the rest of a run, which knows only the source that is left, is
brought back to the text that the round sees. -/
private theorem eachErased_of_rest {b : Bytes} {stop : Nat} {ps : List Piece}
    (hstop : stop ≤ b.size) (hclean : Clean b stop)
    (h : Clean (b.slice stop b.size) 0 → Piece.EachErased (Inlaid (b.slice stop b.size) 0) 0 ps) :
    Piece.EachErased (Inlaid b stop) stop ps := by
  have hsplit := Bytes.slice_append_rest hstop
  have hsize : (b.slice 0 stop).size = stop := Bytes.size_slice hstop
  have := eachErased_append_right_iff (x := b.slice 0 stop) |>.mpr (h (hclean.rest hstop))
  rwa [hsplit, hsize] at this

/-- **Every erased piece of a run is inlaid in its source**, if there is no regular expression on
the path. By induction along the run. A round sees the output so far and the rest of its source, so
both parts are first shown for that text, and then what stands before the rest is dropped. -/
theorem Grammar.Lawful.inlaid {g : Grammar} (hg : g.Lawful) {done rest : Bytes} {e : Erasure}
    (h : g.runFrom done rest = .ok e) :
    Clean rest 0 → Piece.EachErased (Inlaid rest 0) 0 e.pieces := by
  refine hg.run_induction
    (P := fun _ rest e => Clean rest 0 → Piece.EachErased (Inlaid rest 0) 0 e.pieces) ?_ ?_ h
  · intro done rest _ _
    trivial
  · intro done rest m f e hnext hf _ ih hrest
    have hlayout := hg.layout hnext
    have hclean : Clean (done ++ rest) done.size := Clean.append_right (i := 0) |>.mpr hrest
    have hscan := hg.scans hnext
    have hstop : Settles (done ++ rest) done.size (g.patch (done ++ rest) m).stop :=
      hscan.settles.trans (hg.settles hnext hclean)
    -- the pieces of the patch, and those behind it
    have hround := (hlayout.eachErased (hclean.of_scans hscan) hf).mono
      fun _ _ h => h.rebase hscan.settles
    have hbehind := (eachErased_of_rest (hg.stop_le_size hnext) (hclean.of_settles hstop) ih).mono
      fun _ _ h => h.rebase hstop
    have hsource := hlayout.sourceOf_filled (hf.mono fun _ _ h => h.1)
    rw [← eachErased_append_right_iff (x := done), Erasure.pieces_cons, Piece.EachErased,
      Piece.eachErased_append]
    -- the bounds at which the pieces of the round and of the rest are counted
    have hgap : done.size + (g.round done rest m f).gap.size = m.start := by
      rw [Grammar.round, Bytes.size_slice (Nat.le_of_lt (hg.lt_size hnext))]
      exact Nat.add_sub_cancel' (hg.le_start hnext)
    have hpatch : m.start + (Piece.sourceOf (g.round done rest m f).pieces).size =
        (g.patch (done ++ rest) m).stop := by
      rw [Grammar.round, hsource, Bytes.size_slice (hg.stop_le_size hnext)]
      exact Nat.add_sub_cancel' (Nat.le_of_lt (hg.lt_stop hnext))
    rw [hgap, hpatch]
    exact ⟨hround, hbehind⟩

/-! ### The output -/

/-- A comment is one step of the lexer. The comment is one literal, whatever stands around it, and
its slash opens it. -/
private theorem lexes_commentOut (x s y : Bytes) :
    Lexes (x ++ s.commentOut ++ y) x.size (x.size + s.commentOut.size) := by
  have hstop := inertStop_of_literalAt (literalAt_commentOut x s y) (by simp)
  have hlt := Nat.lt_of_lt_of_le (lt_of_inertStop hstop) (le_of_inertStop hstop)
  exact Relation.ReflTransGen.single ⟨⟨hlt, (scanNext_of_inertStop hstop).symm⟩, fun _ => by
    rw [hstop]
    rfl⟩

/-- What starts with ink, or with a blank before ink, starts with no line break. This is what keeps
a line comment before an erased piece from being cut. -/
private theorem StartsInk.not_isAt_newline {b : Bytes} {i : Nat} (h : StartsInk b i) :
    b.isAt i '\n' = false := by
  rcases h with h | ⟨h, -⟩
  · exact Bytes.isAt_eq_false h rfl
  · exact Bytes.isAt_eq_false h rfl

/-- How far the two texts have been compared: the source up to `i` and the output up to `o`. At `p`
and `q` the last comment ended, and since then they agree. -/
structure ReadTo (text out : Bytes) (i o p q : Nat) : Prop where
  settles : Settles text 0 p
  lexes : Lexes out 0 q
  le : p ≤ i
  offset : o = q + (i - p)
  agree : ∀ k, p + k < i → text[p + k]? = out[q + k]?

namespace ReadTo

variable {text out x y s t u : Bytes} {p q z : Nat}

/-- Kept text is the same in both. The comparison goes on, as both texts grow by the same bytes. -/
theorem kept (h : ReadTo text out x.size y.size p q) (htext : text = x ++ (s ++ t))
    (hout : out = y ++ (s ++ u)) : ReadTo text out (x ++ s).size (y ++ s).size p q := by
  have hle := h.le
  have hoffset := h.offset
  refine ⟨h.settles, h.lexes, ?_, ?_, fun k hk => ?_⟩
  · rw [Array.size_append]
    omega
  · rw [Array.size_append, Array.size_append]
    omega
  · rw [Array.size_append] at hk
    -- a byte before the kept piece was compared already, a byte of it is the same in both texts
    by_cases hbefore : p + k < x.size
    · exact h.agree k hbefore
    · obtain ⟨v, hv⟩ : ∃ v, p + k = x.size + v := ⟨p + k - x.size, by omega⟩
      have hvs : v < s.size := by omega
      rw [hv, show q + k = y.size + v by omega, htext, hout, Bytes.getElem?_append_add,
        Bytes.getElem?_append_add, Array.getElem?_append_left hvs, Array.getElem?_append_left hvs]

/-- **The lexer reads the output as it reads the source**, up to the next erased piece. From the end
of the last comment the source is read along a clean path up to the piece, and up to there the
output holds the same bytes. -/
theorem lexes_inlaid (h : ReadTo text out x.size y.size p q) (hclean : Clean text 0)
    (hinlaid : Inlaid text 0 x.size z) : Lexes out 0 y.size := by
  -- the source is read from the end of the last comment to the erased piece
  have hpath : Lexes text p x.size :=
    (hclean.of_settles h.settles).lexes (h.settles.scans_of_le hinlaid.scans h.le)
  rw [h.offset]
  refine h.lexes.trans (hpath.congr ?_ hinlaid.ink.not_isAt_newline h.agree)
  rcases hinlaid.ink with hink | ⟨hink, -⟩
  · exact Bytes.lt_size_of_satAt hink
  · exact Bytes.lt_size_of_satAt hink

/-- Behind a comment the comparison starts anew. The output is read up to the comment by
`lexes_inlaid`, and over it in one step. -/
theorem erased (h : ReadTo text out x.size y.size p q) (hclean : Clean text 0)
    (hinlaid : Inlaid text 0 x.size (x.size + s.size)) (hout : out = y ++ (s.commentOut ++ u)) :
    ReadTo text out (x ++ s).size (y ++ s.commentOut).size (x ++ s).size
      (y ++ s.commentOut).size where
  settles := by
    rw [Array.size_append]
    exact hinlaid.settles
  lexes := by
    have hstep := lexes_commentOut y s u
    rw [Array.append_assoc, ← hout] at hstep
    rw [Array.size_append]
    exact (h.lexes_inlaid hclean hinlaid).trans hstep
  le := Nat.le_refl _
  offset := by rw [Nat.sub_self, Nat.add_zero]
  agree := fun k hk => absurd hk (by omega)

end ReadTo

/-- **The lexer comes to every comment of the output.** Here `x` and `y` are the source and the
output before the pieces. By induction on the pieces, with the invariant `ReadTo` carried from each
piece to the next. -/
theorem lexes_outputOf {text out x y : Bytes} {ps : List Piece} {p q : Nat}
    (hclean : Clean text 0) (htext : text = x ++ Piece.sourceOf ps)
    (hout : out = y ++ Piece.outputOf ps)
    (hinlaid : Piece.EachErased (Inlaid text 0) x.size ps)
    (hread : ReadTo text out x.size y.size p q) {before behind : List Piece} {s : Bytes}
    (hps : ps = before ++ .erased s :: behind) :
    Lexes out 0 (y.size + (Piece.outputOf before).size) := by
  induction ps generalizing x y p q before with
  | nil => simp at hps
  | cons t ps ih =>
    rw [Piece.sourceOf_cons] at htext
    rw [Piece.outputOf_cons] at hout
    cases before with
    | nil =>
      -- the comment is the next piece
      obtain ⟨rfl, rfl⟩ := List.cons.inj hps
      exact hread.lexes_inlaid hclean hinlaid.1
    | cons t' before =>
      obtain ⟨rfl, htail⟩ := List.cons.inj hps
      rw [Piece.outputOf_cons, Array.size_append, ← Nat.add_assoc, ← Array.size_append]
      cases t with
      -- kept text is the same on both sides, and the comparison goes on
      | kept u =>
        have hnext := hread.kept htext hout
        rw [Piece.EachErased, ← Array.size_append] at hinlaid
        exact ih (by rw [htext, Array.append_assoc]; rfl) (by rw [hout, Array.append_assoc]; rfl)
          hinlaid hnext htail
      -- behind a comment the comparison starts anew
      | erased u =>
        rw [Piece.EachErased] at hinlaid
        have hnext := hread.erased hclean hinlaid.1 hout
        rw [← Array.size_append] at hinlaid
        exact ih (by rw [htext, Array.append_assoc]; rfl) (by rw [hout, Array.append_assoc]; rfl)
          hinlaid.2 hnext htail

/-! ### The main statement -/

/-- **Erased text is inert.** If every slash of a text lies in a comment, string or template, then
every piece that is erased, in the run or in an inner one, is one token of the output: the block
comment that holds the piece is a token, and no other token overlaps it. The pieces are inlaid since
the path is clean, so the lexer comes to each comment by `lexes_outputOf`, and what it comes to is a
token by `filter_tokenize_of_lexes`. -/
theorem erased_isToken (r : Rules) (text : Bytes) (h : SlashesCovered text) :
    ∃ e, erase r text = .ok e ∧ ∀ before s behind, e.pieces = before ++ .erased s :: behind →
      let span : Span := ⟨(Piece.outputOf before).size,
        (Piece.outputOf before).size + s.commentOut.size⟩
      (tokenize e.output).toList.filter (·.span.overlaps span) =
        [⟨.literal .blockComment, span, s.commentOut⟩] := by
  have hg := r.grammar_lawful
  obtain ⟨e, hrun, hsource⟩ := hg.exists_runFrom #[] text
  refine ⟨e, hrun, fun before s behind heq => ?_⟩
  have hclean := h.clean
  -- nothing has been read yet
  have hread : ReadTo text e.output 0 0 0 0 :=
    ⟨(Scans.refl text 0).settles, Relation.ReflTransGen.refl, Nat.le_refl 0, rfl,
      fun k hk => absurd hk (by omega)⟩
  have hlexes : Lexes e.output 0 (Piece.outputOf before).size := by
    have := lexes_outputOf (x := #[]) (y := #[]) hclean
      (by rw [hsource, Array.empty_append]) Array.empty_append.symm
      (hg.inlaid hrun hclean) hread heq
    rwa [Array.size_empty, Nat.zero_add] at this
  have hout : e.output = Piece.outputOf before ++ s.commentOut ++ Piece.outputOf behind := by
    rw [Erasure.output, heq, Piece.outputOf_append, Piece.outputOf_cons, ← Array.append_assoc]
    rfl
  have hliteral := literalAt_commentOut (Piece.outputOf before) s (Piece.outputOf behind)
  have htoken := filter_tokenize_of_lexes hlexes (hout ▸ hliteral)
  rw [Token.at, Span.text, hout, Bytes.slice_append_mid] at htoken
  rw [hout]
  exact htoken

/-- A class under a comment: its modifier and types, in the field and in the initializer, are each
one token of the output. -/
theorem erased_isToken_class :
    let text := Bytes.ofString "class A { /* n */ private x: T = y as U; }"
    SlashesCovered text ∧
      ∃ e, erase {} text = .ok e ∧ ∀ before s behind, e.pieces = before ++ .erased s :: behind →
        let span : Span := ⟨(Piece.outputOf before).size,
          (Piece.outputOf before).size + s.commentOut.size⟩
        (tokenize e.output).toList.filter (·.span.overlaps span) =
          [⟨.literal .blockComment, span, s.commentOut⟩] :=
  ⟨by decide +kernel, erased_isToken {} _ (by decide +kernel)⟩

end TypeErasure
