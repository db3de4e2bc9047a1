import TypeErasure.Proofs.Alike
import TypeErasure.Proofs.Partition

/-!
# Backward over comments

A backward scan knows a comment by its closing `*/` and goes on from the nearest `/*` before it. The
text of a comment may hold a `/*` of its own, or end in a `/` that makes one together with the star
of the closing delimiter: `Bytes.OpensComment`. Breaking up every `*/` of the text does not change
whether it does (`Bytes.opensComment_breakClosers`).

Main statement: the scan passes over the comment whole exactly if its text is not of this kind, and
otherwise goes on from within it (`commentStart_commentOut`).
-/

namespace TypeErasure

/-! ### The nearest offset below a bound -/

section LastBelow

variable {p : Nat → Bool} {i k : Nat}

/-- If there is such an offset, one is found, and none of those before it. By induction on the
bound. -/
private theorem exists_lastBelow (hki : k < i) (hk : p k = true) :
    ∃ m, lastBelow p i = some m ∧ k ≤ m := by
  induction i with
  | zero => omega
  | succ n ih =>
    rw [lastBelow]
    by_cases hn : p n = true
    · exact ⟨n, if_pos hn, Nat.le_of_lt_succ hki⟩
    · rw [if_neg hn]
      refine ih (Nat.lt_of_le_of_ne (Nat.le_of_lt_succ hki) ?_)
      rintro rfl
      exact hn hk

/-- The last such offset is the one that is found. -/
theorem lastBelow_of_last (hki : k < i) (hk : p k = true)
    (hlast : ∀ m, k < m → m < i → p m = false) : lastBelow p i = some k := by
  obtain ⟨m, hm, hle⟩ := exists_lastBelow hki hk
  rcases Nat.lt_or_eq_of_le hle with hlt | rfl
  · have hfalse := hlast m hlt (lastBelow_lt hm)
    rw [(lastBelow_spec hm).1] at hfalse
    simp at hfalse
  · exact hm

end LastBelow

/-! ### Texts that open a comment -/

namespace Bytes

/-- **A `/` of the text opens a comment if a `*` follows the text**: it stands before a `*`, or at
the end. -/
def OpensComment (t : Bytes) : Prop :=
  ∃ k, t.isAt k '/' = true ∧ (t.isAt (k + 1) '*' = true ∨ k + 1 = t.size)

/-- The first byte opens a comment, or a later one does. -/
private theorem opensComment_cons (c : Byte) (rest : List Byte) :
    OpensComment (c :: rest).toArray ↔
      c.is '/' = true ∧ rest.head?.all (·.is '*') = true ∨ OpensComment rest.toArray := by
  have hsucc (k : Nat) (ch : Char) :
      isAt (c :: rest).toArray (k + 1) ch = isAt rest.toArray k ch := by
    simp [isAt]
  constructor
  · rintro ⟨k, hslash, hnext⟩
    -- the offset is that of the first byte, or one of the rest
    cases k with
    | zero =>
      refine .inl ⟨hslash, ?_⟩
      cases rest with
      | nil => rfl
      | cons d tail => simpa [isAt] using hnext
    | succ k =>
      rw [hsucc] at hslash hnext
      exact .inr ⟨k, hslash, by simpa using hnext⟩
  · rintro (⟨hslash, hnext⟩ | ⟨k, hslash, hnext⟩)
    · refine ⟨0, hslash, ?_⟩
      cases rest with
      | nil => exact .inr rfl
      | cons d tail => exact .inl hnext
    · refine ⟨k + 1, (hsucc k '/').trans hslash, ?_⟩
      rw [hsucc]
      simpa using hnext

/-- A space behind a star neither makes nor takes away a `/*`. The induction follows the text, whose
next byte is the same in both. -/
theorem opensComment_breakClosers (cs : List Byte) :
    OpensComment (breakClosers cs).toArray ↔ OpensComment cs.toArray := by
  fun_induction breakClosers cs with
  | case1 => exact Iff.rfl
  | case2 c rest hcloser ih =>
    -- the slash of the `*/` keeps what follows it, and the two bytes put before it are no slashes
    have hstar : c.is '/' = false :=
      (Byte.apply_of_is (Bool.and_eq_true_iff.mp hcloser).1 (·.is '/')).trans rfl
    have hspace : (32 : Byte).is '/' = false := rfl
    simp [opensComment_cons, hstar, hspace, ih]
  | case3 c rest _ ih => rw [opensComment_cons, opensComment_cons, head?_breakClosers, ih]

private theorem opensComment_commentBody {t : Bytes} :
    t.commentBody.OpensComment ↔ t.OpensComment := by
  rw [commentBody, opensComment_breakClosers, Array.toArray_toList]

theorem not_opensComment_of_noSlash {t : Bytes} (h : ∀ k, t.isAt k '/' = false) :
    ¬ t.OpensComment := by
  rintro ⟨k, hslash, -⟩
  rw [h] at hslash
  simp at hslash

/-- The openers within a comment are those of its text, where the star of the closing delimiter
counts as the one behind it. -/
private theorem isAt_commentOut_opener_iff (t : Bytes) {k : Nat} (hk : k < t.commentBody.size) :
    t.commentOut.isAt (2 + k) '/' = true ∧ t.commentOut.isAt (2 + k + 1) '*' = true ↔
      t.commentBody.isAt k '/' = true ∧
        (t.commentBody.isAt (k + 1) '*' = true ∨ k + 1 = t.commentBody.size) := by
  have hbody {j : Nat} (hj : j < t.commentBody.size) (ch : Char) :
      t.commentOut.isAt (2 + j) ch = t.commentBody.isAt j ch := by
    refine isAt_congr ?_ ch
    rw [getElem?_commentOut, Array.getElem?_append_left hj]
  rw [hbody hk]
  by_cases hlast : k + 1 = t.commentBody.size
  · -- behind the text there is the star of the closing delimiter
    have hstar := t.isAt_commentOut_close.1
    rw [← hlast, ← Nat.add_assoc] at hstar
    simp [hstar, hlast]
  · rw [Nat.add_assoc, hbody (by omega)]
    simp [hlast]

end Bytes

/-! ### A comment in its place -/

section Comment

variable {b t : Bytes} {i : Nat}

private theorem isAt_of_commentOut (h : ∀ k, k < t.commentOut.size → b[i + k]? = t.commentOut[k]?)
    {k : Nat} (hk : k < t.commentBody.size + 4) (ch : Char) :
    b.isAt (i + k) ch = t.commentOut.isAt k ch :=
  Bytes.isAt_congr (h k (by rw [t.size_commentOut]; exact hk)) ch

/-- **The start of a comment, looked for from its closing star**: it is found exactly if the text of
the comment opens none. What is found is the nearest opener, and that of the comment is the
farthest. -/
theorem exists_commentStart (h : ∀ k, k < t.commentOut.size → b[i + k]? = t.commentOut[k]?) :
    ∃ start, commentStart b (i + (2 + t.commentBody.size)) = some start ∧ i ≤ start ∧
      (start = i ↔ ¬ t.OpensComment) := by
  -- there is an opener to be found, that of the comment itself
  have hat {k : Nat} (hk : k < t.commentBody.size + 4) := isAt_of_commentOut h hk
  have hopen : (b.isAt i '/' && b.isAt (i + 1) '*') = true := by
    have hzero := hat (k := 0) (by omega) '/'
    rw [Nat.add_zero, t.isAt_commentOut_open.1] at hzero
    rw [hzero, hat (by omega), t.isAt_commentOut_open.2]
    rfl
  obtain ⟨start, hstart, hle⟩ := exists_lastBelow
    (p := fun m => b.isAt m '/' && b.isAt (m + 1) '*') (i := i + (2 + t.commentBody.size))
    (by omega) hopen
  have hlt := lastBelow_lt hstart
  obtain ⟨hlast, hnone⟩ := lastBelow_spec hstart
  rw [Bool.and_eq_true] at hlast
  refine ⟨start, hstart, hle, ?_⟩
  rw [← Bytes.opensComment_commentBody]
  constructor
  · -- an opener within the text would be nearer
    rintro rfl ⟨k, hslash, hnext⟩
    have hk := Bytes.lt_size_of_isAt hslash
    have hinner := (t.isAt_commentOut_opener_iff hk).mpr ⟨hslash, hnext⟩
    rw [← hat (by omega), ← hat (by omega)] at hinner
    have hfalse := hnone (start + (2 + k)) (by omega) (by omega)
    rw [hinner.1, Nat.add_assoc start, hinner.2] at hfalse
    simp at hfalse
  · -- what is found further right is an opener of the text
    intro hopens
    refine Nat.le_antisymm (Nat.le_of_not_lt fun hin => ?_) hle
    obtain ⟨m, rfl⟩ : ∃ m, start = i + m := ⟨start - i, by omega⟩
    rw [Nat.add_assoc, hat (by omega), hat (by omega)] at hlast
    cases m with
    | zero => omega
    | succ m =>
      cases m with
      | zero =>
        -- the second byte of the comment is a star
        have := (Bytes.satAt_of_isAt t.isAt_commentOut_open.2 (·.is '/')).symm.trans hlast.1
        exact absurd this (by decide)
      | succ m =>
        rw [Nat.add_assoc, Nat.add_comm m] at hlast
        exact hopens ⟨m, (t.isAt_commentOut_opener_iff (by omega)).mp hlast⟩

/-- A scan goes on where it finds the start of a comment: it comes to the closing slash and knows it
by the star before it. -/
theorem scanBack_of_commentStart {σ α : Type} {start : Nat}
    (h : ∀ k, k < t.commentOut.size → b[i + k]? = t.commentOut[k]?)
    (hstart : commentStart b (i + (2 + t.commentBody.size)) = some start)
    (visit : σ → Nat → Visit σ α) (s : σ) :
    scanBack b visit s (i + t.commentOut.size) = scanBack b visit s start := by
  have hend := t.isAt_commentOut_close
  rw [← isAt_of_commentOut h (by omega), ← isAt_of_commentOut h (by omega)] at hend
  have hcloses : closesComment b (i + (2 + t.commentBody.size) + 1) = true := by
    rw [closesComment, Bytes.isBefore, Nat.add_sub_cancel, hend.1, Nat.add_assoc i, hend.2,
      decide_eq_true (by omega)]
    rfl
  rw [t.size_commentOut, show i + (t.commentBody.size + 4) =
    i + (2 + t.commentBody.size) + 1 + 1 by omega, scanBack_succ, if_pos hcloses,
    Nat.add_sub_cancel, hstart]

end Comment

/-- **Where a backward scan goes on before a comment.** From the closing star of a comment that was
put in place of a text, whatever stands around it, the search for its start comes to an offset of
the comment, and to the first one exactly if the text opens no comment of its own. Every backward
scan that starts behind the comment goes on there. -/
theorem commentStart_commentOut (p t q : Bytes) :
    ∃ start, commentStart (p ++ t.commentOut ++ q) (p.size + t.commentOut.size - 2) = some start ∧
      p.size ≤ start ∧ start < p.size + t.commentOut.size ∧
      (start = p.size ↔ ¬ t.OpensComment) ∧
        ∀ {σ α : Type} (visit : σ → Nat → Visit σ α) (s : σ),
          scanBack (p ++ t.commentOut ++ q) visit s (p.size + t.commentOut.size) =
            scanBack (p ++ t.commentOut ++ q) visit s start := by
  have hholds (k : Nat) (hk : k < t.commentOut.size) :
      (p ++ t.commentOut ++ q)[p.size + k]? = t.commentOut[k]? := by
    rw [Array.append_assoc, Bytes.getElem?_append_add, Array.getElem?_append_left hk]
  obtain ⟨start, hstart, hle, hiff⟩ := exists_commentStart hholds
  have hlt : start < p.size + (2 + t.commentBody.size) := lastBelow_lt hstart
  have hsize := t.size_commentOut
  refine ⟨start, ?_, hle, by omega, hiff, scanBack_of_commentStart hholds hstart⟩
  rw [show p.size + t.commentOut.size - 2 = p.size + (2 + t.commentBody.size) by omega, hstart]

/-- **A comment in a type hides the declaration before it.** The scan back from the second variable
goes on at the inner `/*`, comes to the bracket before it, and takes the variable for a part of a
group, so that its type is left. A text that ends in a slash is not passed over either. -/
theorem commentStart_within_commentOut :
    let t := Bytes.ofString ": \x7b/* x */ p: T\x7d"
    let b := Bytes.ofString "let a: \x7b/* x */ p: T\x7d = o, b: U = 2;"
    commentStart (Bytes.ofString "let a" ++ t.commentOut ++ Bytes.ofString " = o, b: U = 2;")
        (5 + t.commentOut.size - 2) = some 10 ∧
      (erase {} b).toOption.map (·.output) =
        some (Bytes.ofString "let a/*: \x7b/* x * / p: T\x7d*/ = o, b: U = 2;") ∧
      commentStart (Bytes.ofString "/").commentOut 3 = some 2 := by
  decide +kernel

end TypeErasure
