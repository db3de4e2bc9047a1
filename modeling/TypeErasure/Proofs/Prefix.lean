import TypeErasure.Proofs.Alike

/-!
# Texts with the same beginning

`Agree n a b` says that two texts hold the same bytes before offset `n`. Scans that run backward
from there see no difference between them; the lemma `Agree.f_eq` says so of the scan `f`.
-/

namespace TypeErasure

/-- A search downward asks only for what lies below its start. By induction on that start. -/
private theorem lastBelow_congr {f g : Nat → Bool} {i : Nat} (h : ∀ k, k < i → f k = g k) :
    lastBelow f i = lastBelow g i := by
  induction i with
  | zero => rfl
  | succ k ih =>
    rw [lastBelow, lastBelow, h k (Nat.lt_succ_self k), ih fun j hj => h j (Nat.lt_succ_of_lt hj)]

/-- A name or pattern starts no later than its last byte. -/
theorem le_of_patternStart {b : Bytes} {p start : Nat} (h : patternStart b p = some start) :
    start ≤ p := by
  unfold patternStart at h
  split at h
  · exact Nat.le_of_lt (enclosingOpen_lt h)
  · simp only [Option.ite_none_right_eq_some, Option.some.injEq] at h
    omega

/-- **The texts agree before offset `n`.** -/
def Agree (n : Nat) (a b : Bytes) : Prop :=
  ∀ k, k < n → a[k]? = b[k]?

namespace Agree

variable {a b : Bytes} {n i j k : Nat}

theorem append (x y z : Bytes) : Agree x.size (x ++ y) (x ++ z) := by
  intro k hk
  rw [Array.getElem?_append_left hk, Array.getElem?_append_left hk]

theorem symm (h : Agree n a b) : Agree n b a :=
  fun k hk => (h k hk).symm

/-- A byte before `n` is the same in both. -/
theorem satAt_eq (h : Agree n a b) (hk : k < n) (p : Byte → Bool) : a.satAt k p = b.satAt k p :=
  Bytes.satAt_congr (h k hk) p

/-- The same for one character. -/
theorem isAt_eq (h : Agree n a b) (hk : k < n) (ch : Char) : a.isAt k ch = b.isAt k ch :=
  Bytes.isAt_congr (h k hk) ch

/-- The same for the character before an offset up to `n`, or for the start of the text. -/
theorem isBefore_eq (h : Agree n a b) (hk : k ≤ n) (ch : Char) :
    a.isBefore k ch = b.isBefore k ch := by
  unfold Bytes.isBefore
  by_cases hpos : 0 < k
  · rw [h.isAt_eq (by omega)]
  · rw [decide_eq_false hpos, Bool.false_and, Bool.false_and]

/-! ### Runs and words -/

/-- A run that ends no later than `n` starts at the same offset. By induction on its end. -/
theorem runStart_eq (h : Agree n a b) (hi : i ≤ n) (p : Byte → Bool) :
    a.runStart p i = b.runStart p i := by
  induction i with
  | zero => rfl
  | succ k ih => rw [Bytes.runStart, Bytes.runStart, h.satAt_eq hi, ih (by omega)]

/-- The last byte of ink before an offset up to `n` is the same. -/
theorem lastInk_eq (h : Agree n a b) (hi : i ≤ n) : a.lastInk i = b.lastInk i :=
  lastBelow_congr fun _ hk => h.satAt_eq (Nat.lt_of_lt_of_le hk hi) _

/-- A range that ends no later than `n` holds the same bytes. Where the text ends within the range,
both do. -/
theorem slice_eq (h : Agree n a b) (hj : j ≤ n) (i : Nat) : a.slice i j = b.slice i j := by
  refine Array.ext_getElem? fun k => ?_
  -- a slice reads the bytes before `j`, and none behind
  have hslice (x : Bytes) : (x.slice i j)[k]? = if i + k < j then x[i + k]? else none := by
    rw [Bytes.slice, Array.getElem?_extract]
    split
    · rw [if_pos (by omega)]
    · split
      · exact (Array.getElem?_eq_none (by omega)).symm
      · rfl
  rw [hslice, hslice]
  split
  · exact h _ (by omega)
  · rfl

/-- A word that would end no later than `n` stands in both texts or in neither. -/
theorem hasAt_eq (h : Agree n a b) {w : String} (hi : i + (Bytes.ofString w).size ≤ n) :
    a.hasAt i w = b.hasAt i w := by
  rw [Bytes.hasAt, Bytes.hasAt, h.slice_eq hi]

/-- A run of bytes that ends before `n` ends there in both texts. What ends it is the byte there,
and this is still before `n`. -/
theorem skipWhile_eq (h : Agree n a b) {p : Byte → Bool} (hi : a.skipWhile p i < n) :
    b.skipWhile p i = a.skipWhile p i := by
  refine Bytes.skipWhile_eq (a.le_skipWhile p i) (fun k hik hk => ?_) ?_
  · rw [← h.satAt_eq (by omega)]
    exact Bytes.satAt_of_lt_skipWhile hik hk
  · rw [← h.satAt_eq hi]
    exact a.satAt_skipWhile p i

/-- A name that ends no later than `n` starts at the same offset. The digits before it may go on
behind `n`, but only the smaller of the two ends counts. -/
theorem nameStart_eq (h : Agree n a b) (hi : i ≤ n) : nameStart a i = nameStart b i := by
  rw [nameStart, nameStart, ← h.runStart_eq hi]
  generalize a.runStart Byte.isNamePart i = start
  -- a run of digits that reaches `i` in one text reaches it in the other
  by_cases ha : a.skipWhile Byte.isDigit start < i
  · rw [h.skipWhile_eq (Nat.lt_of_lt_of_le ha hi)]
  · by_cases hb : b.skipWhile Byte.isDigit start < i
    · rw [h.symm.skipWhile_eq (Nat.lt_of_lt_of_le hb hi)]
    · rw [Nat.min_eq_left (by omega), Nat.min_eq_left (by omega)]

/-- The name before an offset up to `n` is the same word. -/
theorem wordBefore_eq (h : Agree n a b) (hi : i ≤ n) (words : List String) :
    wordBefore a i words = wordBefore b i words := by
  rw [wordBefore, wordBefore, h.nameStart_eq hi, h.slice_eq hi]

/-! ### Brackets -/

/-- Brackets open at the same offsets before `n`. -/
theorem opensAt_eq (h : Agree n a b) (hk : k < n) (reading : Reading) :
    opensAt a reading k = opensAt b reading k := by
  rw [opensAt, opensAt, h.satAt_eq hk, h.isAt_eq hk]

/-- They close at the same offsets before `n`; only the byte before an angle bracket is looked at
beside it. -/
theorem closesAt_eq (h : Agree n a b) (hk : k < n) (reading : Reading) :
    closesAt a reading k = closesAt b reading k := by
  rw [closesAt, closesAt, h.satAt_eq hk, h.isAt_eq hk, h.isBefore_eq (Nat.le_of_lt hk)]

/-! ### Backward scans -/

theorem closesComment_eq (h : Agree n a b) (hk : k < n) :
    closesComment a k = closesComment b k := by
  rw [closesComment, closesComment, h.isAt_eq hk, h.isBefore_eq (Nat.le_of_lt hk)]

/-- A comment that closes before `n` starts at the same offset. -/
theorem commentStart_eq (h : Agree n a b) (hk : k < n) : commentStart a k = commentStart b k :=
  lastBelow_congr fun p hp => by rw [h.isAt_eq (by omega), h.isAt_eq (by omega)]

section ScanBack

variable {σ α : Type}

/-- **A scan back from an offset up to `n` finds the same in both texts**, if its visitors agree
below that offset. The induction is on the offset. -/
theorem scanBack_eq (h : Agree n a b) {visit visit' : σ → Nat → Visit σ α} (hi : i ≤ n)
    (hvisit : ∀ s k, k < i → visit s k = visit' s k) (state : σ) :
    scanBack a visit state i = scanBack b visit' state i := by
  -- a scan may leap over a comment, so the induction is on all smaller offsets
  induction i using Nat.strongRecOn generalizing state with
  | ind i ih =>
    cases i with
    | zero => rw [scanBack, scanBack]
    | succ k =>
      rw [scanBack_succ, scanBack_succ b, h.closesComment_eq hi,
        hvisit state k (Nat.lt_succ_self k)]
      -- a comment is passed over in one step, and any other byte is visited
      split
      · rw [h.commentStart_eq (by omega)]
        cases hstart : commentStart b (k - 1) with
        | none => rfl
        | some start =>
          have := lastBelow_lt hstart
          exact ih start (by omega) (by omega) (fun s j hj => hvisit s j (by omega)) state
      · cases visit' state k with
        | halt => rfl
        | go state =>
          exact ih k (Nat.lt_succ_self k) (by omega) (fun s j hj => hvisit s j (by omega)) state

/-- A visitor that stays outside of brackets sees the same, if the inner visitors do. -/
theorem visitOutside_eq (h : Agree n a b) {opened : Nat → α} {outside outside' : Nat → Visit Nat α}
    (hk : k < n) (houtside : outside k = outside' k) (depth : Nat) :
    visitOutside a opened outside depth k = visitOutside b opened outside' depth k := by
  rw [visitOutside, visitOutside, houtside, h.satAt_eq hk, h.satAt_eq hk]

end ScanBack

/-- The bracket around an offset up to `n` is the same. -/
theorem enclosingOpen_eq (h : Agree n a b) (hi : i ≤ n) :
    enclosingOpen a i = enclosingOpen b i := by
  refine congrArg Option.join (h.scanBack_eq hi (fun depth k hk => ?_) 0)
  exact h.visitOutside_eq (by omega) (by rw [h.isAt_eq (by omega)]) depth

/-- The keyword of a list of declared names is noticed at the same offsets. The visitor looks at one
byte behind the one that it is given, so that this has to lie before `n` as well. -/
theorem visitDeclarator_eq (h : Agree n a b) (hk : k + 1 < n) :
    visitDeclarator a k = visitDeclarator b k := by
  have hstart : b.runStart Byte.isNamePart (k + 1) ≤ k + 1 := b.runStart_le _ _
  simp only [visitDeclarator, h.isAt_eq (Nat.lt_of_succ_lt hk), h.satAt_eq (Nat.lt_of_succ_lt hk),
    h.satAt_eq hk, h.runStart_eq (Nat.le_of_lt hk), h.slice_eq (Nat.le_of_lt hk),
    h.isBefore_eq (Nat.le_trans hstart (Nat.le_of_lt hk))]

/-- A comma before `n` lies in such a list in both texts or in neither. -/
theorem inDeclaratorList_eq (h : Agree n a b) (hi : i < n) :
    inDeclaratorList a i = inDeclaratorList b i := by
  rw [inDeclaratorList, inDeclaratorList,
    h.scanBack_eq (Nat.le_of_lt hi) (fun depth k hk =>
      h.visitOutside_eq (by omega) (h.visitDeclarator_eq (by omega)) depth)]

/-! ### What stands before a construct -/

/-- A name or pattern that ends before `n` starts at the same offset. -/
theorem patternStart_eq (h : Agree n a b) (hi : i < n) : patternStart a i = patternStart b i := by
  simp only [patternStart, h.satAt_eq hi, h.enclosingOpen_eq (Nat.le_of_lt hi), h.nameStart_eq hi]

/-- **What an annotation belongs to is the same in both texts**, if its pattern starts no later than
`n`. Everything that decides this stands before the pattern. -/
theorem annotatedBy_eq (h : Agree n a b) (hi : i ≤ n) : annotatedBy a i = annotatedBy b i := by
  -- the dots that make a rest parameter stand before `i`
  have hdots : (3 ≤ i && a.hasAt (i - 3) "...") = (3 ≤ i && b.hasAt (i - 3) "...") := by
    -- without three bytes before it there are no dots
    by_cases hthree : 3 ≤ i
    · have hsize : (Bytes.ofString "...").size = 3 := rfl
      rw [h.hasAt_eq (by omega)]
    · rw [decide_eq_false hthree, Bool.false_and, Bool.false_and]
  unfold annotatedBy
  simp only [hdots]
  generalize hbefore : (if (decide (3 ≤ i) && b.hasAt (i - 3) "...") = true then i - 3 else i) =
    before
  have hle : before ≤ n := by
    split at hbefore <;> omega
  -- from here on all is read before the last byte that is no whitespace
  rw [h.lastInk_eq hle]
  cases hprev : b.lastInk before with
  | none => rfl
  | some prev =>
    -- what tells a parameter from a variable stands before `prev` too
    have hlt : prev < n := Nat.lt_of_lt_of_le (Bytes.lastInk_lt hprev) hle
    have henclosing : (enclosingOpen a prev).any (fun o => a.isAt o '(') =
        (enclosingOpen b prev).any (fun o => b.isAt o '(') := by
      rw [h.enclosingOpen_eq (Nat.le_of_lt hlt)]
      cases ho : enclosingOpen b prev with
      | none => rfl
      | some o => exact h.isAt_eq (Nat.lt_trans (enclosingOpen_lt ho) hlt) '('
    simp only [bind, Option.bind, h.isAt_eq hlt, henclosing, h.inDeclaratorList_eq hlt,
      h.wordBefore_eq hlt]

/-- What a pattern declares depends on what stands before its end. Here `f` stands for what is done
with the answer. -/
private theorem declared_eq (h : Agree n a b) (hi : i < n) {β : Type} (f : Annotated → Option β) :
    ((patternStart a i).bind fun start => (annotatedBy a start).bind f) =
      (patternStart b i).bind fun start => (annotatedBy b start).bind f := by
  rw [h.patternStart_eq hi]
  cases hstart : patternStart b i with
  | none => rfl
  | some start =>
    have hle := le_of_patternStart hstart
    exact congrArg (Option.bind · f) (h.annotatedBy_eq (by omega))

/-- The annotation of a colon up to `n` is the same. The pattern ends before the colon, or before
the marker that stands before it. -/
theorem annotationOf_eq (h : Agree n a b) (hi : i ≤ n) : annotationOf a i = annotationOf b i := by
  unfold annotationOf
  rw [h.lastInk_eq hi]
  cases hp : b.lastInk i with
  | none => rfl
  | some p =>
    have hpn : p < n := Nat.lt_of_lt_of_le (Bytes.lastInk_lt hp) hi
    simp only [bind, Option.bind_some, h.satAt_eq hpn, h.lastInk_eq (Nat.le_of_lt hpn)]
    split
    · -- with a marker
      cases hlast : b.lastInk p with
      | none => rfl
      | some last => exact h.declared_eq (Nat.lt_trans (Bytes.lastInk_lt hlast) hpn) _
    · exact h.declared_eq hpn _

/-- A statement starts at the same offsets up to `n`. -/
theorem atStatementStart_eq (h : Agree n a b) (hi : i ≤ n) :
    atStatementStart a i = atStatementStart b i := by
  have hle : b.runStart Byte.isBlank i ≤ i := b.runStart_le _ i
  rw [atStatementStart, atStatementStart, h.runStart_eq hi]
  -- at the start of the text, nothing more is asked for
  by_cases hpos : b.runStart Byte.isBlank i = 0
  · simp only [hpos, beq_self_eq_true, Bool.true_or]
  · rw [h.satAt_eq (by omega), h.closesComment_eq (by omega)]

/-- The operand of a cast is one in both texts or in neither. -/
theorem castOperandBefore_eq (h : Agree n a b) (hi : i ≤ n) :
    castOperandBefore a i = castOperandBefore b i := by
  rw [castOperandBefore, castOperandBefore, h.lastInk_eq hi]
  cases hp : b.lastInk i with
  | none => rfl
  | some p =>
    have hpn : p < n := Nat.lt_of_lt_of_le (Bytes.lastInk_lt hp) hi
    simp only [Option.any_some, h.isAt_eq hpn, h.wordBefore_eq hpn]

/-- A list of imported or exported names is one in both texts. The bracket and the word before it
stand before the cast. -/
theorem inBindingList_eq (h : Agree n a b) (hi : i ≤ n) :
    inBindingList a i = inBindingList b i := by
  rw [inBindingList, inBindingList, h.enclosingOpen_eq hi]
  cases ho : enclosingOpen b i with
  | none => rfl
  | some o =>
    have hon : o < n := Nat.lt_of_lt_of_le (enclosingOpen_lt ho) hi
    simp only [Option.any_some, h.isAt_eq hon, h.lastInk_eq (Nat.le_of_lt hon)]
    cases hp : b.lastInk o with
    | none => rfl
    | some p =>
      have hpn : p < n := Nat.lt_trans (Bytes.lastInk_lt hp) hon
      simp only [Option.any_some, h.wordBefore_eq hpn]

end Agree

end TypeErasure
