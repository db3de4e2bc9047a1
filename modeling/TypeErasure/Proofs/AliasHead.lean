import TypeErasure.Proofs.Alike
import TypeErasure.Proofs.Erased

/-!
# The head of a type alias

A type alias is given away by the `=` behind its name. Type parameters may stand between the two,
and their end is found by counting brackets, however far on it is. So whether an alias is given away
may depend on text that a run erases.

`HeadsAlias b depth i` is what the detection of an alias asks of the text from offset `i` on, once
the parameters are open. It is carried along any path that counts brackets (`Nests.headsAlias_iff`).

Main statements:

* `typeAliasAt_isSome_iff`: where an alias is given away.
* `headsAlias_append_right`: what stands before open parameters does not matter.
* `ItemList.headsAlias`: nor does it matter that a list in between is commented out.
-/

namespace TypeErasure

/-! ### Open type parameters -/

/-- **The type parameters that are open at offset `i`, with `depth` inner groups, belong to an
alias**: the bracket that closes them has an assignment behind it. -/
def HeadsAlias (b : Bytes) (depth i : Nat) : Prop :=
  b.isAt (findStopFrom b .type (fun _ => false) depth i) '>' = true ∧
    isAssign b (b.skipSpace (findStopFrom b .type (fun _ => false) depth i + 1)) = true

/-- At the end of the text nothing closes. -/
private theorem not_headsAlias_of_size_le {b : Bytes} {depth i : Nat} (h : b.size ≤ i) :
    ¬ HeadsAlias b depth i := by
  intro hat
  have hsize := Bytes.lt_size_of_isAt hat.1
  rw [findStopFrom_eq_ite, if_neg (Nat.not_lt_of_le h)] at hsize
  omega

/-- A search for a closing bracket goes on where a path leads that counts along with it. The
induction follows the path, and each of its steps is one of the search. -/
theorem Nests.findStopFrom_eq {b : Bytes} {i d j e : Nat} (h : Nests b i d j e) :
    findStopFrom b .type (fun _ => false) d i = findStopFrom b .type (fun _ => false) e j := by
  induction h with
  | refl => rfl
  | @inert i d next j e hstop _ ih =>
    have hi := Nat.lt_of_lt_of_le (lt_of_inertStop hstop) (le_of_inertStop hstop)
    -- a search for a closing bracket has no condition of its own to stop at
    rw [findStopFrom_eq_ite, if_pos hi, if_neg (by simp), hstop]
    exact ih
  | @opening i d j e hnone hopen _ ih =>
    have hi := Bytes.lt_size_of_satAt (satAt_of_opensAt hopen)
    rw [findStopFrom_eq_ite, if_pos hi, if_neg (by simp), hnone]
    exact (if_pos hopen).trans ih
  | @closing i d j e hnone hclose _ ih =>
    -- the search does not stop here: the path leaves a group that it has counted
    have hi := Bytes.lt_size_of_satAt (satAt_of_closesAt hclose)
    have hopen := not_opensAt_of_closesAt hclose
    rw [findStopFrom_eq_ite, if_pos hi, if_neg (by simp), hnone]
    dsimp only
    rw [if_neg (by simp [hopen]), if_pos hclose, if_neg (Nat.succ_ne_zero d), Nat.add_sub_cancel]
    exact ih
  | @plain i d j e hi hnone hopen hclose _ ih =>
    rw [findStopFrom_eq_ite, if_pos hi, if_neg (by simp), hnone]
    dsimp only
    rw [if_neg (by simp [hopen]), if_neg (by simp [hclose])]
    exact ih

theorem Nests.headsAlias_iff {b : Bytes} {i d j e : Nat} (h : Nests b i d j e) :
    HeadsAlias b d i ↔ HeadsAlias b e j := by
  rw [HeadsAlias, HeadsAlias, h.findStopFrom_eq]

/-- **A count of brackets takes the same step in two texts** that look the same to it, unless a
bracket closes that was never opened. One case for each kind of step. -/
theorem nests_step {t o : Bytes} {i j : Nat} (hi : i < t.size) (hj : j < o.size)
    (hinert : (inertStop t i).isSome = (inertStop o j).isSome)
    (hopens : opensAt t .type i = opensAt o .type j)
    (hcloses : closesAt t .type i = closesAt o .type j) (depth : Nat) :
    (depth = 0 ∧ closesAt t .type i = true ∧ closesAt o .type j = true) ∨
      ∃ e, Nests t i depth (scanNext t i) e ∧ Nests o j depth (scanNext o j) e := by
  cases hstop : inertStop t i with
  | some next =>
    -- a literal is one step in each text, even if the two are not equally long
    rw [hstop, Option.isSome_some] at hinert
    obtain ⟨next', hstop'⟩ := Option.isSome_iff_exists.mp hinert.symm
    rw [scanNext_of_inertStop hstop, scanNext_of_inertStop hstop']
    exact .inr ⟨depth, .inert hstop (.refl _ _), .inert hstop' (.refl _ _)⟩
  | none =>
    rw [hstop, Option.isSome_none] at hinert
    have hstop' : inertStop o j = none := by simpa using hinert.symm
    rw [scanNext_of_eq_none hstop, scanNext_of_eq_none hstop']
    cases hopen : opensAt t .type i with
    | true =>
      rw [hopen] at hopens
      exact .inr ⟨depth + 1, .opening hstop hopen (.refl _ _),
        .opening hstop' hopens.symm (.refl _ _)⟩
    | false =>
      rw [hopen] at hopens
      cases hclose : closesAt t .type i with
      | true =>
        rw [hclose] at hcloses
        -- a bracket that closes nothing is the one case in which there is no step
        cases depth with
        | zero => exact .inl ⟨rfl, rfl, hcloses.symm⟩
        | succ depth =>
          exact .inr ⟨depth, .closing hstop hclose (.refl _ _),
            .closing hstop' hcloses.symm (.refl _ _)⟩
      | false =>
        rw [hclose] at hcloses
        exact .inr ⟨depth, .plain hi hstop hopen hclose (.refl _ _),
          .plain hj hstop' hopens.symm hcloses.symm (.refl _ _)⟩

/-- The bracket that closes the type parameters is where the search for it stops. -/
theorem headsAlias_of_closesAt {b : Bytes} {i : Nat} (h : closesAt b .type i = true) :
    HeadsAlias b 0 i ↔ b.isAt i '>' = true ∧ isAssign b (b.skipSpace (i + 1)) = true := by
  have hmark := satAt_of_closesAt h
  have hopen := not_opensAt_of_closesAt h
  have hclose : findStopFrom b .type (fun _ => false) 0 i = i := by
    rw [findStopFrom_eq_ite, if_pos (Bytes.lt_size_of_satAt hmark), if_neg (by simp),
      inertStop_eq_none (Bytes.satAt_eq_false hmark (Byte.excludes_opensInert rfl))]
    dsimp only
    rw [if_neg (by simp [hopen]), if_pos h, if_pos rfl]
  rw [HeadsAlias, hclose]

/-! ### Text in front -/

section Suffix

variable {x y : Bytes} {k : Nat}

theorem Bytes.satAt_append_right (x y : Bytes) (i : Nat) (p : Byte → Bool) :
    (x ++ y).satAt (x.size + i) p = y.satAt i p :=
  satAt_congr (getElem?_append_add x y i) p

theorem Bytes.isAt_append_right (x y : Bytes) (i : Nat) (ch : Char) :
    (x ++ y).isAt (x.size + i) ch = y.isAt i ch :=
  isAt_congr (getElem?_append_add x y i) ch

/-- A run of bytes is as long as it is without the text in front. -/
theorem Bytes.skipWhile_append_right (x y : Bytes) (p : Byte → Bool) (k : Nat) :
    (x ++ y).skipWhile p (x.size + k) = x.size + y.skipWhile p k := by
  refine skipWhile_eq (Nat.add_le_add_left (y.le_skipWhile p k) _) (fun i hi hlt => ?_) ?_
  · -- the bytes behind `x` are those of `y`, shifted
    obtain ⟨i, rfl⟩ : ∃ j, i = x.size + j := ⟨i - x.size, by omega⟩
    rw [satAt_append_right]
    exact satAt_of_lt_skipWhile (i := k) (by omega) (by omega)
  · rw [satAt_append_right]
    exact y.satAt_skipWhile p k

/-- So is an assignment that is not at the start, and has its own byte before it. -/
theorem isAssign_append_right (hk : 0 < k) :
    isAssign (x ++ y) (x.size + k) = isAssign y k := by
  have hbefore : x.size + k - 1 = x.size + (k - 1) := by omega
  rw [isAssign, isAssign, isCompoundEq, isCompoundEq, Bytes.isAt_append_right, Nat.add_assoc,
    Bytes.satAt_append_right, hbefore, Bytes.satAt_append_right]
  simp [hk, Nat.add_pos_right x.size hk]

/-- What stands before a text matters to its brackets only if an arrow is cut in two. -/
private theorem closesAt_append_right (h : ArrowFree (x ++ y) x.size) (k : Nat) :
    closesAt (x ++ y) .type (x.size + k) = closesAt y .type k := by
  rw [closesAt_type, closesAt_type, Bytes.satAt_append_right, Bytes.isAt_append_right]
  cases k with
  | zero =>
    -- the first byte of `y` may have a `=` before it in the one text and has nothing in the other
    have hbefore : y.isBefore 0 '=' = false := rfl
    rw [hbefore]
    cases hangle : y.isAt 0 '>' with
    | false => rw [Bool.false_and, Bool.false_and]
    | true => rw [Nat.add_zero, h ((Bytes.isAt_append_right x y 0 '>').trans hangle)]
  | succ k =>
    rw [Bytes.isBefore, Bytes.isBefore, ← Nat.add_assoc, Nat.add_sub_cancel, Nat.add_sub_cancel,
      Bytes.isAt_append_right]
    simp

/-- **A text heads an alias whatever stands before it**, unless an arrow is cut in two. The
recursion goes through `y`, where both texts make the same steps (`nests_step`), up to the bracket
that closes the parameters. -/
theorem headsAlias_append_right (h : ArrowFree (x ++ y) x.size) (d k : Nat) :
    HeadsAlias (x ++ y) d (x.size + k) ↔ HeadsAlias y d k := by
  -- within the text both count the same brackets
  by_cases hk : k < y.size
  · have hsize : x.size + k < (x ++ y).size := by rw [Array.size_append]; omega
    have hopens : opensAt (x ++ y) .type (x.size + k) = opensAt y .type k := by
      rw [opensAt, opensAt, Bytes.isAt_append_right, Bytes.satAt_append_right]
    have hinert : (inertStop (x ++ y) (x.size + k)).isSome = (inertStop y k).isSome := by
      rw [inertStop_append_right, Option.isSome_map]
    rcases nests_step hsize hk hinert hopens (closesAt_append_right h k) d with
      ⟨rfl, hclose, hclose'⟩ | ⟨e, hnests, hnests'⟩
    · -- the parameters close here, and the sign is looked for behind them
      rw [headsAlias_of_closesAt hclose, headsAlias_of_closesAt hclose', Bytes.isAt_append_right,
        Nat.add_assoc, Bytes.skipSpace, Bytes.skipWhile_append_right, isAssign_append_right]
      · rfl
      · exact Nat.lt_of_lt_of_le (Nat.succ_pos k) (y.le_skipWhile _ _)
    · have := lt_scanNext y k
      rw [hnests.headsAlias_iff, hnests'.headsAlias_iff, scanNext_append_right]
      exact headsAlias_append_right h e _
  · -- and at its end nothing closes
    have hend : ¬ HeadsAlias y d k := not_headsAlias_of_size_le (Nat.le_of_not_lt hk)
    have hend' : ¬ HeadsAlias (x ++ y) d (x.size + k) := by
      apply not_headsAlias_of_size_le
      rw [Array.size_append]
      omega
    exact iff_of_false hend' hend
termination_by y.size - k

end Suffix

/-! ### Erased text -/

/-- An enclosed range is passed over: what is opened in it is closed in it. -/
theorem Enclosed.headsAlias {b : Bytes} {i j d : Nat} (h : Enclosed b i j)
    (hat : HeadsAlias b d j) : HeadsAlias b d i := by
  obtain ⟨w, ⟨e, hnests, hend⟩, hjw, hspace⟩ := h.path
  -- the path may go on over whitespace behind the range
  have hblank : Nests b j d w d := nests_of_satAt hjw hspace (Byte.excludes_isMark rfl) d
  have hw := hblank.headsAlias_iff.mp hat
  rcases hend with rfl | rfl
  · have hpath := hnests.lift d
    rw [Nat.zero_add] at hpath
    exact hpath.headsAlias_iff.mpr hw
  · -- a range that leaves a group open reaches to the end of the text
    exact (not_headsAlias_of_size_le (Nat.le_refl _) hw).elim

/-- A comment that a run writes is passed over, since it is one literal. -/
theorem headsAlias_commentOut (x s y : Bytes) (d : Nat) :
    HeadsAlias (x ++ (s.commentOut ++ y)) d x.size ↔
      HeadsAlias (x ++ (s.commentOut ++ y)) d (x ++ s.commentOut).size := by
  have hstop := inertStop_of_literalAt (literalAt_commentOut x s y) (by simp)
  rw [Array.append_assoc] at hstop
  rw [Array.size_append]
  exact (Nests.inert hstop (.refl _ d)).headsAlias_iff

/-- **The head of an alias is the same behind a list and behind what is written for it.** The
induction follows the list; in the output each item is a comment, and the text between two items is
copied. -/
theorem ItemList.headsAlias {b : Bytes} {i j d : Nat} {segments : List Segment}
    (h : ItemList b i segments j) {Q : Bytes → Erasure → Prop} {f : Filling}
    (hf : Filled Q segments f) {o x y : Bytes} (ho : o = x ++ Piece.outputOf f.pieces ++ y)
    (hrest : HeadsAlias o d (x ++ Piece.outputOf f.pieces).size → HeadsAlias b d j)
    (hat : HeadsAlias o d x.size) : HeadsAlias b d i := by
  induction h generalizing f x with
  | nil i =>
    cases hf
    exact hrest (by simpa [Piece.outputOf] using hat)
  | @cons i start stop j rest hstart text henclosed tail ih =>
    obtain _ | ⟨_ | @⟨_, _, f, hf⟩⟩ := hf
    simp only [Piece.outputOf_cons, Piece.output] at ho hrest
    have hkept : o = x ++ (b.slice i start ++
        ((b.slice start stop).commentOut ++ Piece.outputOf f.pieces ++ y)) := by
      rw [ho]
      simp only [Array.append_assoc]
    have hcomment : o = (x ++ b.slice i start) ++
        ((b.slice start stop).commentOut ++ (Piece.outputOf f.pieces ++ y)) := by
      rw [ho]
      simp only [Array.append_assoc]
    -- in both texts the path leads over the kept text; then it leads over the item in the one,
    -- and over its comment in the other
    have hnests : Nests o x.size d (x ++ b.slice i start).size d := by
      rw [hkept, Array.size_append]
      exact (text.of_slice hstart).nests d
    refine (text.nests d).headsAlias_iff.mpr (henclosed.headsAlias
      (ih hf (x := x ++ b.slice i start ++ (b.slice start stop).commentOut) ?_ ?_ ?_))
    · rw [hcomment]
      simp only [Array.append_assoc]
    · simpa only [Array.append_assoc] using hrest
    · rw [hnests.headsAlias_iff, hcomment, headsAlias_commentOut, ← hcomment] at hat
      exact hat

/-! ### Aliases -/

/-- The sign of an alias stands at offset `i`, or behind the type parameters that start there. -/
def AliasSign (b : Bytes) (i : Nat) : Prop :=
  if b.isAt i '<' then HeadsAlias b 0 (i + 1) else isAssign b i = true

/-- The sign of an alias is an `=`, or the bracket that opens the parameters. -/
theorem AliasSign.satAt {b : Bytes} {i : Nat} (h : AliasSign b i) :
    b.satAt i (·.among ['<', '=']) = true := by
  unfold AliasSign at h
  split at h
  · rename_i hopen
    exact Bytes.satAt_of_isAt hopen _
  · exact Bytes.satAt_of_isAt (Bool.and_eq_true_iff.mp h).1 _

/-- Behind the type parameters, if there are any, comes an assignment. -/
private theorem exists_skipTypeParameters_iff {b : Bytes} {i : Nat} :
    (∃ eq, skipTypeParameters b i = some eq ∧ isAssign b eq = true) ↔ AliasSign b i := by
  unfold skipTypeParameters AliasSign
  by_cases hopen : b.isAt i '<' = true
  · -- with type parameters, the sign stands behind their closing bracket
    simp only [if_pos hopen, Option.ite_none_right_eq_some, Option.some.injEq]
    constructor
    · rintro ⟨eq, ⟨hclose, rfl⟩, hassign⟩
      exact ⟨hclose, hassign⟩
    · rintro ⟨hclose, hassign⟩
      exact ⟨_, ⟨hclose, rfl⟩, hassign⟩
  · simp [if_neg hopen]

/-- **Where an alias is given away**: by its keyword, a blank, a name and the sign behind it. -/
theorem typeAliasAt_isSome_iff {b : Bytes} {i : Nat} :
    (typeAliasAt b i).isSome = true ↔
      ∃ after, statementKeyword b i "type" = some after ∧ after < b.skipBlanks after ∧
        b.skipBlanks after < nameStop b (b.skipBlanks after) ∧
        AliasSign b (b.skipSpace (nameStop b (b.skipBlanks after))) := by
  rw [Option.isSome_iff_exists]
  simp only [← exists_skipTypeParameters_iff]
  constructor
  · -- the steps of the search that leads to the match, one after the other
    rintro ⟨m, h⟩
    obtain ⟨after, hafter, h⟩ := Option.bind_eq_some_iff.mp h
    obtain ⟨hname, h⟩ := Option.ite_none_right_eq_some.mp h
    obtain ⟨eq, heq, h⟩ := Option.bind_eq_some_iff.mp h
    obtain ⟨hassign, -⟩ := Option.ite_none_right_eq_some.mp h
    simp only [Bool.and_eq_true, decide_eq_true_eq] at hname
    exact ⟨after, hafter, hname.1, hname.2, eq, heq, hassign⟩
  · rintro ⟨after, hafter, hblank, hname, eq, heq, hassign⟩
    refine ⟨⟨.typeAlias, ⟨i, eq + 1⟩⟩, ?_⟩
    refine Option.bind_eq_some_iff.mpr ⟨after, hafter, ?_⟩
    refine Option.ite_none_right_eq_some.mpr ⟨by simp [hblank, hname], ?_⟩
    exact Option.bind_eq_some_iff.mpr ⟨eq, heq, if_pos hassign⟩

/-- A name that is not empty has a byte that names start with. -/
theorem nameStop_of_lt {b : Bytes} {i : Nat} (h : i < nameStop b i) :
    b.satAt i Byte.isNameStart = true ∧ nameStop b i = b.skipWhile Byte.isNamePart i := by
  unfold nameStop at h ⊢
  split at h
  · rename_i hstart
    rw [if_pos hstart]
    exact ⟨hstart, rfl⟩
  · omega

end TypeErasure
