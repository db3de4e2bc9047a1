import TypeErasure.Proofs.Heading
import TypeErasure.Proofs.Prefix
import TypeErasure.Proofs.TypeText
import TypeErasure.Erasure

/-!
# Line breaks behind comments

Whether a line break completes a type or an expression depends on the last byte of its line and on
the first byte of the next (`lineBreakEnds_append`). The two are read as they stand, comments
included.

Main statement: behind a block comment no line break completes anything, since the last byte of the
line is the slash of the comment, which counts as an operator. So a comment at the end of a line
makes a difference unless the line asks for more without it or the next line carries it on, and a
search for the end of the line goes on in the next one (`lineBreakEnds_comment`). An alias with such
a comment takes the next statement with it (`lineBreakEnds_comment_ne`).
-/

namespace TypeErasure

/-! ### The two sides of a line break -/

/-- The text asks for more: from `start` on it is blank, or it ends with an operator. -/
def Bytes.unfinished (x : Bytes) (start : Nat) : Bool :=
  match x.lastInk x.size with
  | none => true
  | some last =>
    last < start || x.satAt last isOpenEnded || (x.isAt last '>' && x.isBefore last '=')

/-- The text carries on the line before it. -/
def Bytes.carriesOn (rest : Bytes) : Bool :=
  rest.satAt (rest.skipBlanks 0) fun c => !startsAfresh c

/-- **A line break completes what is finished and not carried on.** The last ink is looked for in
the text before the line break, and the next one in the text behind it. -/
theorem lineBreakEnds_append (x rest : Bytes) (start : Nat) :
    lineBreakEnds (x ++ (Bytes.ofString "\n" ++ rest)) start x.size =
      (!x.unfinished start && !rest.carriesOn) := by
  let b := x ++ (Bytes.ofString "\n" ++ rest)
  -- up to the line break, `b` is `x`
  have hagree : Agree x.size b x := by
    have happend := Agree.append x (Bytes.ofString "\n" ++ rest) #[]
    rwa [Array.append_empty] at happend
  -- and behind it, `rest`
  have hnext : b[b.skipBlanks (x.size + 1)]? = rest[rest.skipBlanks 0]? := by
    have hfront : b = (x ++ Bytes.ofString "\n") ++ rest := Array.append_assoc.symm
    have hsize : x.size + 1 = (x ++ Bytes.ofString "\n").size + 0 := by
      rw [Array.size_append]
      rfl
    rw [hfront, hsize, Bytes.skipBlanks_append_right, Bytes.getElem?_append_add]
  change lineBreakEnds b start x.size = _
  rw [lineBreakEnds, Bytes.unfinished, hagree.lastInk_eq (Nat.le_refl _), hnext, Bytes.carriesOn,
    Bytes.satAt]
  cases hlast : x.lastInk x.size with
  | none => rfl
  | some last =>
    have hlt : last < x.size := Bytes.lastInk_lt hlast
    dsimp only
    rw [hagree.satAt_eq hlt, hagree.isAt_eq hlt, hagree.isBefore_eq (Nat.le_of_lt hlt)]
    cases hmore : last < start || x.satAt last isOpenEnded ||
        (x.isAt last '>' && x.isBefore last '=') with
    | true => rfl
    | false => cases rest[rest.skipBlanks 0]? <;> simp

/-! ### Comments at the end of a line -/

/-- The block comment with the given contents. -/
def Bytes.blockComment (c : Bytes) : Bytes :=
  Bytes.ofString "/*" ++ (c ++ Bytes.ofString "*/")

private theorem Bytes.size_blockComment (c : Bytes) : c.blockComment.size = c.size + 4 := by
  have hopen : (Bytes.ofString "/*").size = 2 := rfl
  have hclose : (Bytes.ofString "*/").size = 2 := rfl
  simp only [blockComment, Array.size_append, hopen, hclose]
  omega

section Comment

variable {b c : Bytes} {i : Nat}

/-- A comment ends with a slash. -/
private theorem Bytes.isAt_blockComment (h : b.Holds i c.blockComment) :
    b.isAt (i + c.size + 3) '/' = true := by
  simp only [blockComment, holds_append] at h
  rw [show i + c.size + 3 = i + 2 + c.size + 1 by omega]
  exact h.2.2.isAt_of rfl

/-- The comment ends where its contents do, if they hold no end of a comment. The last byte of the
contents does not make one with the star behind it. -/
private theorem inertStop_blockComment (h : b.Holds i c.blockComment)
    (hc : ∀ k < c.size, (c.isAt k '*' && c.isAt (k + 1) '/') = false) :
    inertStop b i = some (i + c.size + 4) := by
  obtain ⟨hopen, hrest⟩ := Bytes.holds_append.mp h
  obtain ⟨htext, hclose⟩ := Bytes.holds_append.mp hrest
  have hstar : b.isAt (i + 2 + c.size) '*' = true := hclose.isAt_head rfl
  have hend : b.isAt (i + 2 + c.size + 1) '/' = true := hclose.isAt_of rfl
  -- the first star and slash behind the opening mark are those of the end
  have hblock : blockClose b (i + 2) = some (i + c.size + 4) := by
    refine blockClose_eq_some_iff.mpr ⟨by omega, ?_, fun k hk hlt => ?_⟩
    · rw [show i + c.size + 4 - 2 = i + 2 + c.size by omega,
        show i + c.size + 4 - 1 = i + 2 + c.size + 1 by omega, hstar, hend]
      rfl
    · obtain ⟨n, rfl⟩ : ∃ n, k = i + 2 + n := ⟨k - (i + 2), by omega⟩
      have hfst : b.isAt (i + 2 + n) '*' = c.isAt n '*' := htext.satAt (by omega) _
      rcases Nat.lt_or_eq_of_le (show n + 1 ≤ c.size by omega) with hin | hlast
      · have hsnd : b.isAt (i + 2 + n + 1) '/' = c.isAt (n + 1) '/' := htext.satAt hin _
        rw [hfst, hsnd]
        exact hc n (by omega)
      · -- behind the contents stands the star of the end
        have hsnd : b.isAt (i + 2 + n + 1) '/' = false := by
          rw [Nat.add_assoc _ n, hlast, Bytes.isAt_eq_satAt, Bytes.satAt_of_isAt hstar]
          rfl
        rw [hsnd, Bool.and_false]
  have hinert := inertStop_eq_some_iff.mpr (.block (hopen.isAt_head rfl) (hopen.isAt_of rfl))
  rwa [hblock] at hinert

/-- A text with a comment at its end asks for more, as its last ink is a slash and that is an
operator. -/
private theorem Bytes.unfinished_blockComment (x c : Bytes) (start : Nat) :
    (x ++ c.blockComment).unfinished start = true := by
  have hsize : (x ++ c.blockComment).size = x.size + c.size + 3 + 1 := by
    rw [Array.size_append, size_blockComment]
    omega
  have hslash := isAt_blockComment (holds_append_right x c.blockComment)
  have hink : (x ++ c.blockComment).lastInk (x ++ c.blockComment).size =
      some (x.size + c.size + 3) := by
    refine lastInk_of_ink (by omega) ((satAt_of_isAt hslash _).trans rfl) fun m hm hlt => ?_
    omega
  have hopen : (x ++ c.blockComment).satAt (x.size + c.size + 3) isOpenEnded = true :=
    (satAt_of_isAt hslash _).trans rfl
  rw [unfinished, hink]
  dsimp only
  rw [hopen, Bool.or_true, Bool.true_or]

end Comment

/-- **Behind a comment no line break completes anything.** With a comment at its end, a line is
never complete, so that the comment makes no difference only where the line asks for more without it
or the next line carries it on. A search that would stop at the line break, and for whatever other
reasons elsewhere, goes on in the next line. -/
theorem lineBreakEnds_comment (x c rest : Bytes) (start : Nat)
    (hc : ∀ k < c.size, (c.isAt k '*' && c.isAt (k + 1) '/') = false) :
    let plain := x ++ (Bytes.ofString "\n" ++ rest)
    let noted := x ++ (c.blockComment ++ (Bytes.ofString "\n" ++ rest))
    let nl := x.size + c.blockComment.size
    lineBreakEnds noted start nl = false ∧
      (lineBreakEnds noted start nl = lineBreakEnds plain start x.size ↔
        (x.unfinished start || rest.carriesOn) = true) ∧
      ∀ (reading : Reading) (other : Nat → Bool), other x.size = false → other nl = false →
        findStop noted reading (fun i => other i || endsLine noted start i) x.size =
          findStop noted reading (fun i => other i || endsLine noted start i) (nl + 1) := by
  intro plain noted nl
  have hnever : lineBreakEnds noted start nl = false := by
    have hsplit : noted = (x ++ c.blockComment) ++ (Bytes.ofString "\n" ++ rest) :=
      Array.append_assoc.symm
    have hnl : nl = (x ++ c.blockComment).size := Array.size_append.symm
    rw [hsplit, hnl, lineBreakEnds_append, Bytes.unfinished_blockComment]
    rfl
  refine ⟨hnever, ?_, fun reading other hslash hbreak => ?_⟩
  · rw [hnever, show lineBreakEnds plain start x.size = _ from lineBreakEnds_append x rest start]
    cases x.unfinished start <;> cases rest.carriesOn <;> simp
  · obtain ⟨hcomment, htail⟩ := Bytes.holds_append.mp
      (Bytes.holds_append_right x (c.blockComment ++ (Bytes.ofString "\n" ++ rest)))
    have hline : noted.isAt nl '\n' = true := (Bytes.holds_append.mp htail).1.isAt_head rfl
    have hopen : noted.isAt x.size '/' = true := (Bytes.holds_append.mp hcomment).1.isAt_head rfl
    have hstart : (other x.size || endsLine noted start x.size) = false := by
      rw [hslash, endsLine, Bytes.isAt_eq_satAt, Bytes.satAt_of_isAt hopen]
      rfl
    have hstop : (other nl || endsLine noted start nl) = false := by
      rw [hbreak, endsLine, hnever, Bool.and_false]
      rfl
    -- the search jumps over the comment to the line break
    have hinert : inertStop noted x.size = some nl := by
      rw [inertStop_blockComment hcomment hc, Nat.add_assoc, ← Bytes.size_blockComment]
    calc findStop noted reading (fun i => other i || endsLine noted start i) x.size
        = findStopFrom noted reading (fun i => other i || endsLine noted start i) 0 nl := by
          rw [findStop, findStopFrom_eq_ite, if_pos (Bytes.lt_size_of_isAt hopen),
            if_neg (by simp [hstart]), hinert]
      _ = findStop noted reading (fun i => other i || endsLine noted start i) (nl + 1) :=
          findStopFrom_of_plain (p := (·.is '\n')) hline (Byte.excludes_isMark rfl) hstop

/-- A finished line with a comment that holds all that a comment can hold. -/
theorem lineBreakEnds_comment_union :
    let x := Bytes.ofString "A | B"
    let c := Bytes.ofString "* / /*"
    let rest := Bytes.ofString "run();"
    let noted := x ++ (c.blockComment ++ (Bytes.ofString "\n" ++ rest))
    let nl := x.size + c.blockComment.size
    (∀ k < c.size, (c.isAt k '*' && c.isAt (k + 1) '/') = false) ∧
      (x.unfinished 0 || rest.carriesOn) = false ∧
      lineBreakEnds noted 0 nl = false ∧
      (lineBreakEnds noted 0 nl = lineBreakEnds (x ++ (Bytes.ofString "\n" ++ rest)) 0 x.size ↔
        (x.unfinished 0 || rest.carriesOn) = true) ∧
      ∀ (reading : Reading) (other : Nat → Bool), other x.size = false → other nl = false →
        findStop noted reading (fun i => other i || endsLine noted 0 i) x.size =
          findStop noted reading (fun i => other i || endsLine noted 0 i) (nl + 1) := by
  intro x c rest noted nl
  have hc : ∀ k < c.size, (c.isAt k '*' && c.isAt (k + 1) '/') = false := by decide
  exact ⟨hc, by decide +kernel, lineBreakEnds_comment x c rest 0 hc⟩

/-- **A comment at the end of a line makes a difference**: an alias that ends with its line takes
the next statement with it. -/
theorem lineBreakEnds_comment_ne :
    let x := Bytes.ofString "B"
    let c := Bytes.ofString " c "
    let rest := Bytes.ofString "\nrun();"
    let lead := Bytes.ofString "type A = "
    lineBreakEnds (x ++ (c.blockComment ++ rest)) 0 (x.size + c.blockComment.size) = false ∧
      lineBreakEnds (x ++ rest) 0 x.size = true ∧
      (erase {} (lead ++ (x ++ (c.blockComment ++ rest)))).toOption.map (·.output) =
        some (Bytes.ofString "/*type A = B/* c * /\nrun();*/") ∧
      (erase {} (lead ++ (x ++ rest))).toOption.map (·.output) =
        some (Bytes.ofString "/*type A = B*/\nrun();") := by
  decide +kernel

end TypeErasure
