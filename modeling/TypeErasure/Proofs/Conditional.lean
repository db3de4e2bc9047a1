import TypeErasure.Proofs.Parameters
import TypeErasure.Proofs.TypeStatement

/-!
# Conditional expressions with an arrow

In `c ? f(a).g(b) : x => y` the colon stands behind a group in round brackets and in front of a name
and an arrow, as that of a return type does. What tells the two apart is the `?`, which is searched
for from the last call backward (`conditionalBefore`). The search passes over the calls of the chain
(`Call.exists_last`), but not over a line break (`Gap.conditionalBefore_eq`).

Main statement: such an expression is left as it is if there is no line break between its `?` and
the last call, or if that call looks like a control statement; otherwise the colon and the name
behind it are commented out (`erase_conditional`).

That nothing else is found in the expression follows from its bytes and from one property of its
words: a name with whitespace behind it is followed by a sign, not by another name (`LooseFrom`).
-/

namespace TypeErasure

/-! ### Words that stand apart -/

/-- From offset `i` on, no name is followed by whitespace and then by the start of another name or
by an opening bracket. -/
def LooseFrom (b : Bytes) (i : Nat) : Prop :=
  ∀ j, i ≤ j → b.satAt j Byte.isNamePart = true → b.satAt (j + 1) Byte.isSpace = true →
    b.satAt (b.skipSpace (j + 1)) startsCastType = false

/-- The bytes of a loose text: names, whitespace and signs that start nothing. -/
def Byte.isTame (c : Byte) : Bool :=
  c.isNamePart || c.isSpace || c.among ['=', '?', '(', ')', '.', ';', '>']

namespace LooseFrom

variable {b : Bytes} {i j k : Nat}

theorem mono (h : LooseFrom b i) (hij : i ≤ j) : LooseFrom b j :=
  fun k hk => h k (Nat.le_trans hij hk)

/-- Bytes in front that belong to no name. -/
theorem of_run (h : LooseFrom b j)
    (hrun : ∀ k, i ≤ k → k < j → b.satAt k Byte.isNamePart = false) : LooseFrom b i := by
  intro k hik hpart
  by_cases hkj : j ≤ k
  · exact h k hkj hpart
  · rw [hrun k hik (by omega)] at hpart
    simp at hpart

/-- A text in front that holds no name. -/
theorem holds {t : Bytes} (h : LooseFrom b (i + t.size)) (ht : b.Holds i t)
    (hall : t.toList.all (fun c => !c.isNamePart) = true) : LooseFrom b i := by
  refine h.of_run fun k hik hk => ?_
  have hat := ht.satAt_of_all hall hik hk
  rwa [Bytes.satAt_not (Bytes.lt_size_of_satAt hat), Bool.not_eq_true'] at hat

/-- A name in front, with a sign behind it. Only the last byte of the name can have whitespace
behind it, and then the hypothesis says what follows that. -/
theorem name {x : Ident} (h : LooseFrom b (i + x.bytes.size)) (hx : b.Holds i x.bytes)
    (hnext : b.satAt (b.skipSpace (i + x.bytes.size)) startsCastType = false ∨
      b.satAt (i + x.bytes.size) Byte.isSpace = false) : LooseFrom b i := by
  intro k hik hpart hspace
  by_cases hkj : i + x.bytes.size ≤ k
  · exact h k hkj hpart hspace
  · -- the last byte of the name
    by_cases hlast : k + 1 = i + x.bytes.size
    · rw [hlast] at hspace ⊢
      rcases hnext with hnext | hnext
      · exact hnext
      · rw [hspace] at hnext
        simp at hnext
    · -- within the name there is no whitespace
      have hinner := Ident.isNamePart hx (k := k + 1) (by omega) (by omega)
      rw [Bytes.satAt_eq_false hinner (Byte.excludes_isSpace rfl)] at hspace
      simp at hspace

/-- A keyword with whitespace behind it is followed by a sign. Its last letter is a part of a
name. -/
theorem keyword (h : LooseFrom b i) {w : String} (hw : keywordAt b j w = true) (hij : i ≤ j)
    (hletters : (Bytes.ofString w).toList.all Byte.isLetter = true)
    (hpos : 0 < (Bytes.ofString w).size)
    (hspace : b.satAt (j + (Bytes.ofString w).size) Byte.isSpace = true) :
    b.satAt (b.skipSpace (j + (Bytes.ofString w).size)) startsCastType = false := by
  have hlast : b.satAt (j + ((Bytes.ofString w).size - 1)) Byte.isLetter = true :=
    Bytes.satAt_of_hasAt (hasAt_of_keywordAt hw) (by omega) hletters
  have hpart : b.satAt (j + ((Bytes.ofString w).size - 1)) Byte.isNamePart = true :=
    Bytes.satAt_mono hlast fun c hc => by simp [Byte.isNamePart, Byte.isNameStart, hc]
  have hnext := h _ (by omega) hpart
  rw [show j + ((Bytes.ofString w).size - 1) + 1 = j + (Bytes.ofString w).size by omega] at hnext
  exact hnext hspace

/-- A keyword with blanks behind it is not followed by a name, since blanks are whitespace and a
name can start the type of a cast. -/
private theorem not_isNameStart (h : LooseFrom b i) {w : String} (hw : keywordAt b j w = true)
    (hij : i ≤ j) (hletters : (Bytes.ofString w).toList.all Byte.isLetter = true)
    (hpos : 0 < (Bytes.ofString w).size)
    (hlt : j + (Bytes.ofString w).size < b.skipBlanks (j + (Bytes.ofString w).size)) :
    b.satAt (b.skipBlanks (j + (Bytes.ofString w).size)) Byte.isNameStart = false := by
  refine eq_false_of_ne_true fun hname => ?_
  have hspace {k : Nat} (hk : j + (Bytes.ofString w).size ≤ k)
      (hlt : k < b.skipBlanks (j + (Bytes.ofString w).size)) : b.satAt k Byte.isSpace = true :=
    Bytes.satAt_of_among _ (Bytes.satAt_of_lt_skipWhile hk hlt) rfl
  have hskip : b.skipSpace (j + (Bytes.ofString w).size) =
      b.skipBlanks (j + (Bytes.ofString w).size) :=
    Bytes.skipWhile_eq (Nat.le_of_lt hlt) (fun k => hspace)
      (Bytes.satAt_eq_false hname (Byte.excludes_isSpace rfl))
  have hcast := h.keyword hw hij hletters hpos (hspace (Nat.le_refl _) hlt)
  rw [hskip, Bytes.satAt_mono hname fun c hc => by rw [startsCastType, hc, Bool.true_or]] at hcast
  simp at hcast

/-- No statement that holds nothing but types starts in a loose text, for it would need a name. -/
theorem not_statement (h : LooseFrom b i) {w : String} {after : Nat}
    (hw : (Bytes.ofString w).toList.all Byte.isLetter = true)
    (hpos : 0 < (Bytes.ofString w).size) (hat : statementKeyword b i w = some after)
    (hlt : after < b.skipBlanks after)
    (hname : b.satAt (b.skipBlanks after) Byte.isNameStart = true) : False := by
  obtain ⟨start, hword, rfl, hstart⟩ := statementKeyword_cases hat
  -- the keyword stands at `i` or behind an `export`
  have hle : i ≤ start := by
    rcases hstart with rfl | ⟨-, rfl⟩
    · exact Nat.le_refl _
    · exact Nat.le_trans (Nat.le_add_right i 6) (b.le_skipWhile _ _)
  rw [h.not_isNameStart hword hle hw hpos hlt] at hname
  simp at hname

/-- No class members are found in a loose text without curly brackets: an `abstract` needs a name
behind it, and the others need the body of a class. -/
theorem classMembersAt_eq_none (h : LooseFrom b i) (hbrace : ∀ j, i ≤ j → b.isAt j '{' = false) :
    classMembersAt b i = none := by
  have habstract : abstractAt b i = none := by
    unfold abstractAt
    refine if_neg fun hcond => ?_
    simp only [Bool.and_eq_true, decide_eq_true_eq] at hcond
    obtain ⟨⟨hword, hlt⟩, hclass⟩ := hcond
    -- a `class` behind the word would be a name
    have hname := h.not_isNameStart hword (Nat.le_refl i) rfl (by decide) hlt
    have hletter := isLetter_of_keywordAt hclass rfl (by decide)
    have hstart : b.satAt (b.skipBlanks (i + 8)) Byte.isNameStart = true :=
      Bytes.satAt_mono hletter fun c hc => by simp [Byte.isNameStart, hc]
    exact Bool.false_ne_true (hname.symm.trans hstart)
  have hbody : classBraceAt b i = none := by
    rw [classBraceAt, hbrace i (Nat.le_refl i)]
    rfl
  have himplements : implementsAt b i = none := by
    unfold implementsAt
    rw [ite_eq_right_iff]
    intro hcond
    have hsize := Bytes.lt_size_of_satAt (Bool.and_eq_true_iff.mp hcond).1
    -- the search for the body of the class cannot find one
    have hle : i + 1 ≤ findStop b .type (fun k => b.satAt k (·.among ['{', ';'])) (i + 1) :=
      le_findStop (Nat.succ_le_of_lt hsize)
    exact if_neg (by simp [hbrace _ (Nat.le_of_succ_le hle)])
  rw [classMembersAt, habstract, hbody, himplements]
  rfl

/-- No cast is found in a loose text, as its type would start behind the keyword. -/
theorem castAt_eq_none (h : LooseFrom b i) : castAt b i = none := by
  refine if_neg fun hcond => ?_
  simp only [Bool.and_eq_true] at hcond
  obtain ⟨⟨⟨⟨⟨-, hword⟩, hspace⟩, htype⟩, -⟩, -⟩ := hcond
  have hsign := h.keyword hword (Nat.le_succ i) rfl (by decide) hspace
  exact Bool.false_ne_true (hsign.symm.trans htype)

/-- **Nothing but a colon gives something away in a loose text** without curly brackets. One case
for each kind of construct: most are ruled out by the byte that they start with, and the others by
the name that would have to follow their keyword. -/
theorem matchAt_eq_none (h : LooseFrom b i) (hbrace : ∀ j, i ≤ j → b.isAt j '{' = false)
    (htame : b.satAt i Byte.isTame = true) (cursor : Nat) (k : Construct) :
    k.matchAt b cursor i = none := by
  have hstarts (hk : Byte.Excludes Byte.isTame k.starts) : k.matchAt b cursor i = none :=
    matchAt_eq_none_of_starts (Bytes.satAt_eq_false htame hk)
  -- a declaration has a name behind its keyword
  have hnamed {w : String} (hw : (Bytes.ofString w).toList.all Byte.isLetter = true)
      (hpos : 0 < (Bytes.ofString w).size) : namedStatement b i w = none := by
    rw [Option.eq_none_iff_forall_ne_some]
    intro after hafter
    obtain ⟨hkeyword, hname⟩ := Option.filter_eq_some_iff.mp hafter
    simp only [Bool.and_eq_true, decide_eq_true_eq] at hname
    exact h.not_statement hw hpos hkeyword hname.1 hname.2
  cases k with
  | literal kind => exact hstarts (Byte.excludes_opensInert rfl)
  | ambient => rw [Construct.matchAt, ambientAt, hnamed rfl (by decide), Option.map_none]
  | typeAlias =>
    rw [Option.eq_none_iff_forall_ne_some]
    intro m hm
    obtain ⟨after, hkeyword, hlt, hname, -⟩ :=
      typeAliasAt_isSome_iff.mp (Option.isSome_iff_exists.mpr ⟨m, hm⟩)
    exact h.not_statement rfl (by decide) hkeyword hlt (nameStop_of_lt hname).1
  | interface => rw [Construct.matchAt, interfaceAt, hnamed rfl (by decide), Option.map_none]
  | classMembers => exact h.classMembersAt_eq_none hbrace
  | typeArguments => exact hstarts (Byte.excludes_among rfl)
  | returnType => exact hstarts (Byte.excludes_among rfl)
  | annotated => exact hstarts (Byte.excludes_among rfl)
  | cast => exact h.castAt_eq_none

end LooseFrom

/-! ### Chains of calls -/

/-- Whitespace, possibly none. -/
structure Gap where
  bytes : Bytes
  space : bytes.toList.all Byte.isSpace = true

/-- A single space. -/
def Gap.blank : Gap :=
  ⟨Bytes.ofString " ", rfl⟩

/-- The whitespace holds a line break. A carriage return alone is none. -/
def Gap.breaks (w : Gap) : Bool :=
  w.bytes.toList.any (·.is '\n')

/-- The call of a function with a name for its argument. -/
structure Call where
  name : Ident
  arg : Ident

/-- A call of a member, with whitespace before its dot. -/
structure Link where
  gap : Gap
  call : Call

namespace Call

def text (c : Call) : Bytes :=
  c.name.bytes ++ (Bytes.ofString "(" ++ (c.arg.bytes ++ Bytes.ofString ")"))

/-- The call and the calls of members that follow it. -/
def chain (c : Call) : List Link → Bytes
  | [] => c.text
  | l :: rest => c.text ++ (l.gap.bytes ++ (Bytes.ofString "." ++ l.call.chain rest))

/-- The last call of a chain. -/
def last (c : Call) : List Link → Call
  | [] => c
  | l :: rest => l.call.last rest

/-- The call looks like the head of a control statement. -/
def isControl (c : Call) : Bool :=
  controlWords.any fun w => Bytes.ofString w == c.name.bytes

theorem size_text (c : Call) : c.text.size = c.name.bytes.size + 1 + c.arg.bytes.size + 1 := by
  simp only [text, Array.size_append]
  rw [show (Bytes.ofString "(").size = 1 from rfl, show (Bytes.ofString ")").size = 1 from rfl]
  omega

end Call

/-! ### Backward to the sign of a conditional expression -/

/-- What the search for the `?` of a conditional expression says before offset `k`. -/
def conditionalBefore (b : Bytes) (k : Nat) : Option Bool :=
  scanBack b (visitOutside b (fun _ => false) (visitConditional b)) 0 k

/-- A conditional expression is what the search says it is. -/
theorem inConditional_eq (b : Bytes) (o : Nat) :
    inConditional b o = (conditionalBefore b o).getD false := rfl

section Backward

variable {b : Bytes} {i j k : Nat} {p : Byte → Bool}

/-- The visitor goes on over bytes other than its three signs. -/
private theorem visitConditional_eq_go (h : b.satAt k p = true)
    (hp : ['\n', ';', '?'].all (fun ch => !p (Byte.ofChar ch)) = true) :
    visitConditional b k = .go 0 := by
  have hsign : b.satAt k (·.among ['\n', ';', '?']) = false :=
    Bytes.satAt_eq_false h (Byte.excludes_among hp)
  have hstop : b.satAt k (·.among ['\n', ';']) = false := Bytes.not_among_of_subset hsign rfl
  have hmark : b.isAt k '?' = false :=
    Bytes.satAt_eq_false_of_imp hsign fun _ hc => List.any_eq_true.mpr ⟨'?', by decide, hc⟩
  rw [visitConditional, hstop, hmark]
  rfl

/-- The search goes on over bytes that mean nothing to it: neither brackets nor its signs, nor a
slash that could end a comment. -/
private theorem conditionalBefore_of_run (hij : i ≤ j)
    (hrun : ∀ k, i ≤ k → k < j → b.satAt k p = true)
    (hp : ['(', '[', '{', ')', ']', '}', '\n', ';', '?', '/'].all
      (fun ch => !p (Byte.ofChar ch)) = true) :
    conditionalBefore b j = conditionalBefore b i := by
  simp only [List.all_cons, List.all_nil, Bool.and_true, Bool.and_eq_true] at hp
  refine scanBack_of_go hij (fun k hk hkj => ?_) fun k hk hkj => ?_
  · exact Bytes.isAt_eq_false (hrun k hk hkj) (by simp_all)
  · rw [visitOutside_zero (hrun k hk hkj) (by simp_all)]
    exact visitConditional_eq_go (hrun k hk hkj) (by simp_all)

theorem Ident.conditionalBefore_eq {x : Ident} (h : b.Holds i x.bytes) :
    conditionalBefore b (i + x.bytes.size) = conditionalBefore b i :=
  conditionalBefore_of_run (Nat.le_add_right _ _) (fun _ => isNamePart h) rfl

/-- Whitespace with a line break in it ends the search. By induction on its end, since the search
comes from there. -/
private theorem conditionalBefore_of_break
    (hspace : ∀ k, i ≤ k → k < j → b.satAt k Byte.isSpace = true)
    (hik : i ≤ k) (hkj : k < j) (hbreak : b.isAt k '\n' = true) :
    conditionalBefore b j = some false := by
  induction j with
  | zero => omega
  | succ n ih =>
    have hn : b.satAt n Byte.isSpace = true := hspace n (by omega) (by omega)
    by_cases hlast : b.isAt n '\n' = true
    · -- the search has come to the line break
      refine scanBack_of_halt (Bytes.isAt_eq_false hn rfl) ?_
      rw [visitOutside_zero hn rfl, visitConditional, Bytes.satAt_of_isAt hlast]
      rfl
    · -- the line break stands further left
      have hne : k ≠ n := fun heq => hlast (heq ▸ hbreak)
      have hplain : b.satAt n (fun c => c.isSpace && !c.is '\n') = true := by
        rw [Bool.not_eq_true] at hlast
        have hnot : b.satAt n (fun c => !c.is '\n') = true := by
          rw [Bytes.satAt_not (Bytes.lt_size_of_satAt hn), ← Bytes.isAt_eq_satAt, hlast]
          rfl
        rw [Bytes.satAt, Option.any_eq_true] at hn hnot ⊢
        obtain ⟨c, hc, hcspace⟩ := hn
        obtain ⟨d, hd, hdplain⟩ := hnot
        obtain rfl := Option.some.inj (hc.symm.trans hd)
        exact ⟨c, hc, by rw [hcspace, hdplain]; rfl⟩
      rw [conditionalBefore_of_run (i := n) (Nat.le_succ n)
        (fun m hm hmn => (show m = n by omega) ▸ hplain) rfl]
      exact ih (fun m hm hmn => hspace m hm (by omega)) (by omega)

/-- **A line break ends the search**, and other whitespace does not. -/
theorem Gap.conditionalBefore_eq {w : Gap} (h : b.Holds i w.bytes) :
    conditionalBefore b (i + w.bytes.size) =
      if w.breaks then some false else conditionalBefore b i := by
  cases hbreaks : w.breaks with
  | true =>
    obtain ⟨c, hc, hline⟩ := List.any_eq_true.mp hbreaks
    obtain ⟨k, hk, rfl⟩ := List.getElem_of_mem hc
    have hk : k < w.bytes.size := by simpa using hk
    have hat : w.bytes.isAt k '\n' = true := by
      rw [Bytes.isAt, Array.getElem?_eq_getElem hk]
      simpa using hline
    exact conditionalBefore_of_break (fun _ => h.satAt_of_all w.space) (Nat.le_add_right i k)
      (by omega) (h.isAt_of hat)
  | false =>
    -- no byte of the whitespace is a line break, so the search goes on over all of them
    have hplain : w.bytes.toList.all (fun c => c.isSpace && !c.is '\n') = true := by
      refine List.all_eq_true.mpr fun c hc => ?_
      have hline : c.is '\n' = false := by simpa using List.any_eq_false.mp hbreaks c hc
      rw [List.all_eq_true.mp w.space c hc, hline]
      rfl
    exact conditionalBefore_of_run (Nat.le_add_right _ _) (fun _ => h.satAt_of_all hplain) rfl

/-- A scan that counts brackets passes over a group in round brackets that holds a name: at the
closing bracket the count goes up, at the opening one back to what it was. -/
private theorem scanBack_group {α : Type} {opened : Nat → α} {outside : Nat → Visit Nat α}
    {x : Ident} (hopen : b.isAt i '(' = true) (hx : b.Holds (i + 1) x.bytes)
    (hclose : b.isAt (i + 1 + x.bytes.size) ')' = true) :
    scanBack b (visitOutside b opened outside) 0 (i + 1 + x.bytes.size + 1) =
      scanBack b (visitOutside b opened outside) 0 i := by
  have hpart {k : Nat} (hik : i + 1 ≤ k) (hk : k < i + 1 + x.bytes.size) :
      b.satAt k Byte.isNamePart = true := Ident.isNamePart hx hik hk
  calc scanBack b (visitOutside b opened outside) 0 (i + 1 + x.bytes.size + 1)
      = scanBack b (visitOutside b opened outside) 1 (i + 1 + x.bytes.size) := by
        -- the scan enters the group
        refine scanBack_of_visit ((Bytes.satAt_of_isAt hclose _).trans rfl) ?_
        rw [visitOutside, Bytes.satAt_of_isAt hclose]
        rfl
    _ = scanBack b (visitOutside b opened outside) 1 (i + 1) := by
        refine scanBack_of_go (Nat.le_add_right _ _)
          (fun k hik hk => Bytes.isAt_eq_false (hpart hik hk) rfl) fun k hik hk => ?_
        -- in the name nothing counts
        have hcloser : b.satAt k Byte.isCloser = false :=
          Bytes.satAt_eq_false (hpart hik hk) (Byte.excludes_among rfl)
        have hopener : b.satAt k Byte.isOpener = false :=
          Bytes.satAt_eq_false (hpart hik hk) (Byte.excludes_among rfl)
        rw [visitOutside, hcloser, hopener]
        rfl
    _ = scanBack b (visitOutside b opened outside) 0 i := by
        -- and it leaves the group
        refine scanBack_of_visit ((Bytes.satAt_of_isAt hopen _).trans rfl) ?_
        rw [visitOutside, Bytes.satAt_of_isAt hopen, Bytes.satAt_of_isAt hopen]
        rfl

end Backward

/-! ### The last call -/

namespace Call

variable {b : Bytes} {c : Call} {i j : Nat}

/-- The parts of a call in their places. -/
private theorem holds_text (h : b.Holds i c.text) :
    b.Holds i c.name.bytes ∧ b.isAt (i + c.name.bytes.size) '(' = true ∧
      b.Holds (i + c.name.bytes.size + 1) c.arg.bytes ∧
      b.isAt (i + c.name.bytes.size + 1 + c.arg.bytes.size) ')' = true := by
  simp only [text, Bytes.holds_append] at h
  obtain ⟨hname, hopen, harg, hclose⟩ := h
  exact ⟨hname, hopen.isAt_head rfl, harg, hclose.isAt_head rfl⟩

theorem isAt_close (h : b.Holds i c.text) : b.isAt (i + c.text.size - 1) ')' = true := by
  have hclose := (holds_text h).2.2.2
  rwa [show i + c.name.bytes.size + 1 + c.arg.bytes.size = i + c.text.size - 1 by
    rw [size_text]; omega] at hclose

/-- The search for a conditional expression passes over a call, that is, over its group and its
name. -/
theorem conditionalBefore_eq (h : b.Holds i c.text) :
    conditionalBefore b (i + c.text.size) = conditionalBefore b i := by
  obtain ⟨hname, hopen, harg, hclose⟩ := holds_text h
  rw [size_text, ← Nat.add_assoc, ← Nat.add_assoc, ← Nat.add_assoc]
  exact (scanBack_group hopen harg hclose).trans (Ident.conditionalBefore_eq hname)

/-- The end of the argument is in the bracket behind the name. The scan goes over the argument and
halts at the bracket. -/
theorem enclosingOpen_eq (h : b.Holds i c.text) :
    enclosingOpen b (i + c.text.size - 1) = some (i + c.name.bytes.size) := by
  obtain ⟨-, hopen, harg, -⟩ := holds_text h
  have hend : i + c.text.size - 1 = i + c.name.bytes.size + 1 + c.arg.bytes.size := by
    rw [size_text]
    omega
  rw [hend, enclosingOpen, visitEnclosing, scanBack_of_go (i := i + c.name.bytes.size + 1)
    (Nat.le_add_right _ _) (fun k hik hk => ?_) (fun k hik hk => ?_),
    scanBack_of_halt (a := some (i + c.name.bytes.size))]
  · rfl
  · -- the bracket halts the scan
    exact (Bytes.satAt_of_isAt hopen _).trans rfl
  · rw [visitOutside, Bytes.satAt_of_isAt hopen, Bytes.satAt_of_isAt hopen]
    rfl
  · -- over the argument it goes on, since names hold neither brackets nor semicolons
    exact Bytes.isAt_eq_false (Ident.isNamePart harg hik hk) rfl
  · have hpart := Ident.isNamePart harg hik hk
    have hsemicolon : b.isAt k ';' = false := Bytes.isAt_eq_false hpart rfl
    rw [visitOutside_zero hpart rfl, hsemicolon]
    rfl

/-- **The bracket of a call can open a list of parameters** if the name is no control word, and no
conditional expression is found before the call. All that is asked of the bracket is answered by the
name before it. -/
theorem canOpenParameters_eq (h : b.Holds i c.text)
    (hbefore : i = 0 ∨ b.satAt (i - 1) Byte.isNamePart = false) :
    canOpenParameters b (i + c.name.bytes.size) =
      (!c.isControl && !(conditionalBefore b i).getD false) := by
  obtain ⟨hname, hopen, -, -⟩ := holds_text h
  have hpos := c.name.size_pos
  have hpart : b.satAt (i + c.name.bytes.size - 1) Byte.isNamePart = true :=
    Ident.isNamePart hname (by omega) (by omega)
  have hmark : b.isAt (i + c.name.bytes.size - 1) '?' = false := Bytes.isAt_eq_false hpart rfl
  -- the word before the bracket is the name
  have hword : wordBefore b (i + c.name.bytes.size) controlWords = c.isControl := by
    rw [wordBefore, Ident.nameStart_of_before hname hbefore, hname.slice]
    rfl
  rw [canOpenParameters, hopen, Ident.lastCode_eq hname, Option.any_some, hmark,
    Nat.sub_add_cancel (by omega), hword, inConditional_eq, Ident.conditionalBefore_eq hname,
    Bool.false_or, Bool.true_and]

/-- **A chain of calls ends with its last call.** The search for a conditional expression comes from
there to the start of the chain, if it meets no line break. By induction on the calls behind the
first. -/
theorem exists_last {links : List Link} (h : b.Holds i (c.chain links))
    (hbefore : i = 0 ∨ b.satAt (i - 1) Byte.isNamePart = false) :
    ∃ j, b.Holds j (c.last links).text ∧
      i + (c.chain links).size = j + (c.last links).text.size ∧
      (j = 0 ∨ b.satAt (j - 1) Byte.isNamePart = false) ∧
      conditionalBefore b j =
        if links.any (·.gap.breaks) then some false else conditionalBefore b i := by
  induction links generalizing c i with
  | nil => exact ⟨i, h, rfl, hbefore, rfl⟩
  | cons l rest ih =>
    simp only [chain, Bytes.holds_append] at h
    obtain ⟨hcall, hgap, hdot, hrest⟩ := h
    have hdot : b.isAt (i + c.text.size + l.gap.bytes.size) '.' = true := hdot.isAt_head rfl
    have hrest : b.Holds (i + c.text.size + l.gap.bytes.size + 1) (l.call.chain rest) := hrest
    obtain ⟨j, hlast, hsize, hj, hscan⟩ := ih hrest (.inr ((Bytes.satAt_of_isAt hdot _).trans rfl))
    refine ⟨j, hlast, ?_, hj, ?_⟩
    · rw [last, ← hsize]
      simp only [chain, Array.size_append]
      rw [show (Bytes.ofString ".").size = 1 from rfl]
      omega
    · -- back over the dot, the whitespace and the call
      have hstep : conditionalBefore b (i + c.text.size + l.gap.bytes.size + 1) =
          if l.gap.breaks then some false else conditionalBefore b i := by
        rw [conditionalBefore_of_run (i := i + c.text.size + l.gap.bytes.size) (p := (·.is '.'))
          (Nat.le_succ _) (fun k hk hkj => ?_) rfl, Gap.conditionalBefore_eq hgap,
          conditionalBefore_eq hcall]
        rw [show k = i + c.text.size + l.gap.bytes.size by omega]
        exact hdot
      rw [hscan, hstep, List.any_cons]
      cases l.gap.breaks <;> cases rest.any (·.gap.breaks) <;> rfl

end Call

/-! ### The colon behind the last call -/

section Colon

variable {b : Bytes} {i : Nat} {w : Gap}

/-- What follows whitespace, or the whitespace itself. -/
theorem Gap.satAt_head (h : b.Holds i w.bytes) {p : Byte → Bool}
    (hend : b.satAt (i + w.bytes.size) p = true) :
    b.satAt i (fun c => c.isSpace || p c) = true := by
  rcases Nat.eq_zero_or_pos w.bytes.size with hzero | hpos
  · rw [hzero] at hend
    exact Bytes.satAt_mono hend fun c hc => by rw [hc, Bool.or_true]
  · exact Bytes.satAt_mono (h.satAt_of_all w.space (Nat.le_refl i) (by omega)) fun c hc => by
      rw [hc, Bool.true_or]

/-- What no whitespace is and what does not stand before it does not end it. -/
private theorem Gap.not_satAt_last (h : b.Holds (i + 1) w.bytes) {q : Byte → Bool}
    (hq : [' ', '\t', '\n', '\x0c', '\r'].all (fun ch => !q (Byte.ofChar ch)) = true)
    (hi : b.satAt i q = false) : b.satAt (i + w.bytes.size) q = false := by
  rcases Nat.eq_zero_or_pos w.bytes.size with hzero | hpos
  · rwa [hzero]
  · exact Bytes.not_satAt_of_among _ (h.satAt_of_all w.space (by omega) (by omega)) hq

/-- A chain starts with a name. -/
private theorem Call.head_chain (c : Call) (links : List Link) :
    (c.chain links).satAt 0 Byte.isNameStart = true := by
  have hcall : c.text.satAt 0 Byte.isNameStart = true := Bytes.satAt_append_of c.name.head _
  cases links with
  | nil => exact hcall
  | cons l rest => exact Bytes.satAt_append_of hcall _

/-- A chain ends with a bracket. By induction on the calls behind the first. -/
private theorem Call.isAt_close_chain {c : Call} {links : List Link}
    (h : b.Holds i (c.chain links)) : b.isAt (i + (c.chain links).size - 1) ')' = true := by
  induction links generalizing c i with
  | nil => exact isAt_close h
  | cons l rest ih =>
    simp only [chain, Bytes.holds_append] at h
    have hclose := ih h.2.2.2
    simp only [chain, Array.size_append, ← Nat.add_assoc]
    exact hclose

/-- The search for a conditional expression finds its sign, if that is neither part of `??` nor of
`?.`. -/
private theorem conditionalBefore_of_mark (hmark : b.isAt i '?' = true)
    (hbefore : b.isBefore i '?' = false) (hnext : b.satAt (i + 1) (·.among ['.', '?']) = false) :
    conditionalBefore b (i + 1) = some true := by
  refine scanBack_of_halt ((Bytes.satAt_of_isAt hmark _).trans rfl) ?_
  rw [visitOutside_zero (p := (·.is '?')) hmark rfl, visitConditional, hmark, hbefore, hnext,
    Bytes.satAt_of_isAt hmark]
  rfl

/-- **The middle branch of a conditional expression is taken for a list of parameters** if a line
break hides the sign from its last call. The last ink before the colon is the bracket of this call,
and the search for the sign starts there. -/
theorem followsParameters_branch {c : Call} {links : List Link} {v : Gap}
    (hmark : b.isAt i '?' = true) (hbefore : b.isBefore i '?' = false)
    (h : b.Holds (i + 1) (v.bytes ++ (c.chain links ++ w.bytes))) :
    followsParameters b (i + 1 + v.bytes.size + (c.chain links).size + w.bytes.size) =
      (!(c.last links).isControl && (v.breaks || links.any (·.gap.breaks))) := by
  simp only [Bytes.holds_append] at h
  obtain ⟨hgap, hchain, hspace⟩ := h
  have hbeforeChain : b.satAt (i + v.bytes.size) Byte.isNamePart = false :=
    Gap.not_satAt_last hgap rfl ((Bytes.satAt_of_isAt hmark _).trans rfl)
  obtain ⟨j, hlast, hsize, hj, hscan⟩ := Call.exists_last hchain
    (.inr (by rwa [Nat.add_right_comm, Nat.add_sub_cancel]))
  -- the search for the sign, from the last call to the start of the branch and over the whitespace
  have hsign : conditionalBefore b (i + 1 + v.bytes.size) =
      if v.breaks then some false else some true := by
    -- behind the sign there is whitespace or a name, so that it is neither `?.` nor `??`
    have hnext := Gap.satAt_head hgap (hchain.satAt_head (c.head_chain links))
    rw [Gap.conditionalBefore_eq hgap, conditionalBefore_of_mark hmark hbefore
      (Bytes.satAt_eq_false hnext (Byte.excludes_among rfl))]
  have hpos : 0 < (c.last links).text.size := by
    rw [Call.size_text]
    omega
  have hclose := Call.isAt_close hlast
  -- the last ink before the colon is the bracket of the last call
  have htrim : b.trimEnd 0 (i + 1 + v.bytes.size + (c.chain links).size + w.bytes.size) =
      j + (c.last links).text.size := by
    rw [Bytes.trimEnd_of_space (Nat.zero_le _) (Nat.le_add_right _ _)
      (fun _ => hspace.satAt_of_all w.space), hsize]
    exact Bytes.trimEnd_of_ink (by omega) ((Bytes.satAt_of_isAt hclose _).trans rfl)
  have hbracket : b.isBefore (j + (c.last links).text.size) ')' = true := by
    rw [Bytes.isBefore, hclose, decide_eq_true (by omega)]
    rfl
  rw [followsParameters, htrim, hbracket, Call.enclosingOpen_eq hlast, Option.any_some,
    Call.canOpenParameters_eq hlast hj, hscan, hsign]
  cases v.breaks <;> cases links.any (·.gap.breaks) <;> rfl

/-- A group in round brackets is no pattern, so nothing is annotated behind it: the last ink is its
bracket, which is neither a marker nor the end of a name. -/
private theorem annotationOf_eq_none (hclose : b.isAt i ')' = true) (h : b.Holds (i + 1) w.bytes) :
    annotationOf b (i + 1 + w.bytes.size) = none := by
  have hlast : b.lastInk (i + 1 + w.bytes.size) = some i := by
    refine Bytes.lastInk_of_ink (by omega) ?_ fun m hm hmi => h.satAt_of_all w.space hm hmi
    rw [Bytes.satAt_of_isAt hclose]
    rfl
  have hmarked : b.satAt i (·.among ['?', '!']) = false := (Bytes.satAt_of_isAt hclose _).trans rfl
  -- a round bracket ends neither a name nor a pattern
  have hpattern : patternStart b i = none := by
    have hpart : b.satAt i Byte.isNamePart = false := (Bytes.satAt_of_isAt hclose _).trans rfl
    have hbracket : b.satAt i (·.among ['}', ']']) = false :=
      (Bytes.satAt_of_isAt hclose _).trans rfl
    have hrun : b.runStart Byte.isNamePart (i + 1) = i + 1 := by
      rw [Bytes.runStart, hpart]
      rfl
    have hle := b.le_skipWhile Byte.isDigit (i + 1)
    rw [patternStart, hbracket, nameStart, hrun, Nat.min_eq_left hle]
    simp
  simp [annotationOf, hlast, hmarked, hpattern]

/-- **A name in front of an arrow is read as a return type** behind a list of parameters. The search
for its end goes over the name and a blank to the arrow, and the blank is trimmed. -/
theorem returnTypeStop_arrow {x : Ident} (hfollows : followsParameters b i = true)
    (h : b.Holds (i + 1) (w.bytes ++ (x.bytes ++ Bytes.ofString " =>"))) :
    returnTypeStop b i = some (i + 1 + w.bytes.size + x.bytes.size) := by
  simp only [Bytes.holds_append] at h
  obtain ⟨hgap, hname, harrow⟩ := h
  have hpos := x.size_pos
  have hstart := Ident.isNameStart hname
  have hblank : b.isAt (i + 1 + w.bytes.size + x.bytes.size) ' ' = true := harrow.isAt_head rfl
  have heq : b.isAt (i + 1 + w.bytes.size + x.bytes.size + 1) '=' = true := harrow.isAt_of rfl
  have hgt : b.isAt (i + 1 + w.bytes.size + x.bytes.size + 1 + 1) '>' = true :=
    harrow.isAt_of (k := 2) rfl
  have hskip : b.skipSpace (i + 1) = i + 1 + w.bytes.size :=
    hgap.skipWhile_eq w.space (Bytes.satAt_eq_false hstart (Byte.excludes_isSpace rfl))
  -- a name opens no group
  have hgroup : skipLeadingGroup b (i + 1 + w.bytes.size) = some (i + 1 + w.bytes.size) := by
    rw [skipLeadingGroup, Bytes.satAt_eq_false hstart (Byte.excludes_among rfl)]
    rfl
  obtain ⟨stop, hstop⟩ : ∃ stop : Nat → Bool, stop = fun k =>
      b.satAt k (·.among ['{', ';']) || (b.isAt k '=' && b.isAt (k + 1) '>') ||
        endsLine b (i + 1) k := ⟨_, rfl⟩
  -- the search stops at no byte of a name
  have hamong : StopsAmong b ['{', ';', '=', '\n'] stop := by
    have harrowHead : StopsAmong b ['{', ';', '=', '\n']
        (fun k => b.isAt k '=' && b.isAt (k + 1) '>') := by
      intro k hk
      have hat : b.isAt k '=' = false := (StopsAmong.isAt b '=').mono rfl k hk
      simp only [hat, Bool.false_and]
    rw [hstop]
    exact (((StopsAmong.among b ['{', ';']).mono rfl).or harrowHead).or
      ((StopsAmong.endsLine b (i + 1)).mono rfl)
  have hfind : findStop b .type stop (i + 1 + w.bytes.size) =
      i + 1 + w.bytes.size + x.bytes.size + 1 :=
    calc findStop b .type stop (i + 1 + w.bytes.size)
        = findStopFrom b .type stop 0 (i + 1 + w.bytes.size + x.bytes.size) :=
          x.findStopFrom_eq hname hamong rfl
      _ = findStopFrom b .type stop 0 (i + 1 + w.bytes.size + x.bytes.size + 1) :=
          findStopFrom_of_isBlank hblank (hamong.go (p := (·.is ' ')) hblank rfl)
      _ = i + 1 + w.bytes.size + x.bytes.size + 1 := by
          refine findStopFrom_of_stop (Bytes.lt_size_of_isAt heq) ?_ .type
          simp only [hstop, heq, hgt, Bool.and_self, Bool.or_true, Bool.true_or]
  -- the blank before the arrow is no part of the type
  have htrim : b.trimEnd (i + 1) (i + 1 + w.bytes.size + x.bytes.size + 1) =
      i + 1 + w.bytes.size + x.bytes.size := by
    rw [Bytes.trimEnd_of_space (i := i + 1 + w.bytes.size + x.bytes.size) (by omega)
      (Nat.le_succ _) (fun k hk hki => ?_)]
    · exact Bytes.trimEnd_of_ink (by omega) (Bytes.satAt_eq_false
        (Ident.isNamePart hname (by omega) (by omega)) (Byte.excludes_isSpace rfl))
    · rw [show k = i + 1 + w.bytes.size + x.bytes.size by omega, Bytes.satAt_of_isAt hblank]
      rfl
  rw [returnTypeStop, if_pos hfollows, hskip, hgroup]
  simp only [← hstop, hfind, htrim, Bytes.satAt_of_isAt heq]
  exact if_pos (by rw [decide_eq_true (by omega)]; rfl)

end Colon

/-- **A return type that is the only construct of a text** is commented out, and what stands before
it is copied. The run finds the colon first, since nothing is given away before it; behind the
comment it goes on with what is left. -/
theorem Rules.Writes.returnType {b front part rest out : Bytes}
    (hb : b = front ++ (part ++ rest)) (hat : (returnTypeAt b front.size).isSome = true)
    (hstop : returnTypeStop b front.size = some (front.size + part.size))
    (hother : ∀ (cursor j : Nat) (k : Construct), k ≠ .returnType ∨ j ≠ front.size →
      k.matchAt b cursor j = none)
    (h : ({} : Rules).Writes (front ++ part.commentOut) rest out) :
    ({} : Rules).Writes #[] b (front ++ (part.commentOut ++ out)) := by
  have hat : returnTypeAt b front.size = some ⟨.returnType, ⟨front.size, front.size + 1⟩⟩ := by
    unfold returnTypeAt at hat ⊢
    exact if_pos (by simpa using hat)
  have hnext : ({} : Rules).nextMatch b front.size =
      some ⟨.returnType, ⟨front.size, front.size + 1⟩⟩ :=
    Rules.nextMatch_of_matchAt rfl hat rfl fun k hk =>
      hother _ _ k (.inl fun heq => Nat.lt_irrefl _ (heq ▸ hk))
  -- nothing is given away before the colon
  have hmove : ({} : Rules).nextMatch b 0 = ({} : Rules).nextMatch b front.size := by
    refine Rules.nextMatch_of_quiet (Nat.zero_le _)
      (fun j _ hlt k => hother 0 j k (.inr (Nat.ne_of_lt hlt))) fun j _ k => ?_
    by_cases hk : k = .returnType
    · -- a return type is found whatever the cursor is
      rw [hk]
      rfl
    · rw [hother _ j k (.inl hk), hother _ j k (.inl hk)]
  have hpatch : patchOf b ⟨.returnType, ⟨front.size, front.size + 1⟩⟩ =
      .erase b front.size (front.size + part.size) := by
    show returnTypePatch _ _ = _
    rw [returnTypePatch, Match.start, hstop, Option.getD_some]
  have hcopied : ({} : Rules).Writes #[] (front ++ (part ++ rest))
      (front ++ (part.commentOut ++ out)) := by
    refine copy_of_nextMatch (hb.trans Array.empty_append.symm) ?_ ?_
    · rw [List.size_toArray, List.length_nil, Nat.zero_add]
      exact hmove
    · rw [Array.empty_append]
      exact Rules.Writes.erase hb hnext rfl hpatch h
  rwa [← hb] at hcopied

/-! ### The expression -/

namespace LooseFrom

variable {b : Bytes} {i : Nat}

private theorem end_of (h : b.size ≤ i) : LooseFrom b i := by
  intro j hij hpart
  have := Bytes.lt_size_of_satAt hpart
  omega

/-- A name in front, with whitespace and a sign behind it. -/
private theorem name_gap (ch : Char) {x : Ident} {w : Gap} (h : LooseFrom b (i + x.bytes.size))
    (hx : b.Holds i x.bytes) (hw : b.Holds (i + x.bytes.size) w.bytes)
    (hsign : b.isAt (i + x.bytes.size + w.bytes.size) ch = true)
    (hspace : (Byte.ofChar ch).isSpace = false)
    (hcast : startsCastType (Byte.ofChar ch) = false) : LooseFrom b i := by
  refine h.name hx (.inl ?_)
  have hskip : b.skipSpace (i + x.bytes.size) = i + x.bytes.size + w.bytes.size :=
    hw.skipWhile_eq w.space ((Bytes.satAt_of_isAt hsign _).trans hspace)
  rw [hskip, Bytes.satAt_of_isAt hsign, hcast]

/-- A name in front, with a sign right behind it. -/
private theorem name_sign (ch : Char) {x : Ident} (h : LooseFrom b (i + x.bytes.size))
    (hx : b.Holds i x.bytes) (hsign : b.isAt (i + x.bytes.size) ch = true)
    (hspace : (Byte.ofChar ch).isSpace = false) : LooseFrom b i :=
  h.name hx (.inr ((Bytes.satAt_of_isAt hsign _).trans hspace))

theorem gap {w : Gap} (h : LooseFrom b (i + w.bytes.size)) (hw : b.Holds i w.bytes) :
    LooseFrom b i :=
  h.of_run fun _ hk hlt => Bytes.not_satAt_of_among _ (hw.satAt_of_all w.space hk hlt) rfl

/-- A call in front. Signs stand behind both its names. -/
theorem call {c : Call} (h : LooseFrom b (i + c.text.size)) (hc : b.Holds i c.text) :
    LooseFrom b i := by
  simp only [Call.text, Array.size_append, ← Nat.add_assoc] at h
  simp only [Call.text, Bytes.holds_append] at hc
  obtain ⟨hname, hopen, harg, hclose⟩ := hc
  have harg := (h.holds hclose rfl).name_sign ')' harg (hclose.isAt_head rfl) rfl
  exact (harg.holds hopen rfl).name_sign '(' hname (hopen.isAt_head rfl) rfl

/-- A chain of calls in front. By induction on the calls behind the first. -/
theorem chain {c : Call} {links : List Link} (h : LooseFrom b (i + (c.chain links).size))
    (hc : b.Holds i (c.chain links)) : LooseFrom b i := by
  induction links generalizing c i with
  | nil => exact h.call hc
  | cons l rest ih =>
    simp only [Call.chain, Array.size_append, ← Nat.add_assoc] at h
    simp only [Call.chain, Bytes.holds_append] at hc
    obtain ⟨hcall, hgap, hdot, hrest⟩ := hc
    exact (((ih h hrest).holds hdot rfl).gap hgap).call hcall

end LooseFrom

/-- A variable that is set to a conditional expression, with a chain of calls for its middle branch
and an arrow function for its last. -/
structure ConditionalArrow where
  target : Ident
  test : Ident
  beforeMark : Gap
  afterMark : Gap
  first : Call
  links : List Link
  beforeColon : Gap
  afterColon : Gap
  parameter : Ident
  result : Ident

section Tame

private theorem Ident.all_isTame (x : Ident) : x.bytes.toList.all Byte.isTame = true :=
  List.all_eq_true.mpr fun c hc => by
    rw [Byte.isTame, List.all_eq_true.mp x.parts c hc, Bool.true_or, Bool.true_or]

/-- Whitespace is tame. -/
private theorem Gap.all_isTame (w : Gap) : w.bytes.toList.all Byte.isTame = true :=
  List.all_eq_true.mpr fun c hc => by
    rw [Byte.isTame, List.all_eq_true.mp w.space c hc, Bool.or_true, Bool.true_or]

/-- So are the bytes of calls. By induction on the calls behind the first. -/
private theorem Call.all_isTame_chain (c : Call) (links : List Link) :
    (c.chain links).toList.all Byte.isTame = true := by
  have hcall (c : Call) : c.text.toList.all Byte.isTame = true := by
    simp only [text, Array.toList_append, List.all_append, Ident.all_isTame, Bool.true_and]
    rfl
  induction links generalizing c with
  | nil => exact hcall c
  | cons l rest ih =>
    simp only [chain, Array.toList_append, List.all_append, hcall, Gap.all_isTame, ih,
      Bool.true_and, Bool.and_true]
    rfl

end Tame

namespace ConditionalArrow

/-- The text before the `?`. -/
def head (t : ConditionalArrow) : Bytes :=
  t.target.bytes ++ (Bytes.ofString " = " ++ (t.test.bytes ++ t.beforeMark.bytes))

/-- The text before the colon. -/
def front (t : ConditionalArrow) : Bytes :=
  t.head ++ (Bytes.ofString "?" ++
    (t.afterMark.bytes ++ (t.first.chain t.links ++ t.beforeColon.bytes)))

/-- The colon and the parameter of the arrow function, which look like a return type. -/
def alternative (t : ConditionalArrow) : Bytes :=
  Bytes.ofString ":" ++ (t.afterColon.bytes ++ t.parameter.bytes)

/-- The arrow and the result of the function. -/
def arrow (t : ConditionalArrow) : Bytes :=
  Bytes.ofString " => " ++ (t.result.bytes ++ Bytes.ofString ";")

def text (t : ConditionalArrow) : Bytes :=
  t.front ++ (t.alternative ++ t.arrow)

/-- There is no line break between the `?` and the last call, or the last call looks like a control
statement. -/
def spared (t : ConditionalArrow) : Bool :=
  (t.first.last t.links).isControl || !(t.afterMark.breaks || t.links.any (·.gap.breaks))

variable {t : ConditionalArrow} {b : Bytes} {i : Nat}

/-- The arrow is loose, up to the end of the text. -/
private theorem loose_arrow (h : b.Holds i t.arrow) (hsize : b.size = i + t.arrow.size) :
    LooseFrom b i := by
  have hend : LooseFrom b (i + t.arrow.size) := .end_of (Nat.le_of_eq hsize)
  simp only [arrow, Array.size_append, ← Nat.add_assoc] at hend
  simp only [arrow, Bytes.holds_append] at h
  obtain ⟨harrow, hresult, hstop⟩ := h
  have hresult := (hend.holds hstop rfl).name_sign ';' hresult (hstop.isAt_head rfl) rfl
  exact hresult.holds harrow rfl

/-- The text starts with what stands before the colon. -/
theorem holds_front (t : ConditionalArrow) : t.text.Holds 0 t.front :=
  (Bytes.holds_append.mp (Bytes.holds_zero t.text)).1

private theorem holds_alternative (t : ConditionalArrow) :
    t.text.Holds t.front.size t.alternative :=
  (Bytes.holds_append.mp (Bytes.holds_append_right t.front _)).1

private theorem holds_arrow (t : ConditionalArrow) :
    t.text.Holds (t.front.size + t.alternative.size) t.arrow :=
  (Bytes.holds_append.mp (Bytes.holds_append_right t.front _)).2

theorem size_text (t : ConditionalArrow) :
    t.text.size = t.front.size + t.alternative.size + t.arrow.size := by
  rw [text, Array.size_append, Array.size_append, Nat.add_assoc]

/-- The colon and the parameter in front of a loose arrow, whose sign stands behind the
parameter. -/
private theorem loose_alternative (h : LooseFrom b (i + t.alternative.size))
    (halternative : b.Holds i t.alternative) (harrow : b.Holds (i + t.alternative.size) t.arrow) :
    LooseFrom b i := by
  simp only [alternative, Array.size_append, ← Nat.add_assoc] at h harrow
  simp only [alternative, Bytes.holds_append] at halternative
  obtain ⟨hcolon, hgap, hparameter⟩ := halternative
  have hsigns : b.Holds (i + (Bytes.ofString ":").size + t.afterColon.bytes.size +
      t.parameter.bytes.size) (Gap.blank.bytes ++ Bytes.ofString "=> ") :=
    (Bytes.holds_append.mp harrow).1
  obtain ⟨hblank, heq⟩ := Bytes.holds_append.mp hsigns
  have hname := h.name_gap '=' hparameter hblank (heq.isAt_head rfl) rfl rfl
  exact (hname.gap hgap).holds hcolon rfl

/-- What stands before the colon, in front of a loose text. Its parts are put there one by one. -/
private theorem loose_front (h : LooseFrom b (i + t.front.size)) (hfront : b.Holds i t.front) :
    LooseFrom b i := by
  simp only [front, head, Array.size_append, ← Nat.add_assoc] at h
  simp only [front, head, Bytes.holds_append, Array.size_append, ← Nat.add_assoc] at hfront
  obtain ⟨⟨htarget, heq, htest, hbefore⟩, hmark, hafter, hchain, hcolon⟩ := hfront
  have hassign : b.Holds (i + t.target.bytes.size) (Gap.blank.bytes ++ Bytes.ofString "= ") := heq
  obtain ⟨hblank, hsign⟩ := Bytes.holds_append.mp hassign
  -- from right to left, each part is put in front of a loose text
  have hbranch := (((h.gap hcolon).chain hchain).gap hafter).holds hmark rfl
  have hname := (hbranch.gap hbefore).name_gap '?' htest hbefore (hmark.isAt_head rfl) rfl rfl
  exact (hname.holds heq rfl).name_gap '=' htarget hblank (hsign.isAt_head rfl) rfl rfl

/-- **The expression is loose**: where a name has whitespace behind it, a sign follows. From right
to left this is so for each of its three parts. -/
theorem loose_text (t : ConditionalArrow) : LooseFrom t.text 0 := by
  have harrow := loose_arrow t.holds_arrow t.size_text
  have halternative := loose_alternative harrow t.holds_alternative t.holds_arrow
  exact loose_front (by rwa [Nat.zero_add]) t.holds_front

/-! ### Nothing but the colon -/

private theorem tame_front (t : ConditionalArrow) : t.front.toList.all Byte.isTame = true := by
  simp only [front, head, Array.toList_append, List.all_append, Ident.all_isTame, Gap.all_isTame,
    Call.all_isTame_chain, Bool.true_and, Bool.and_true]
  rfl

private theorem tame_behind (t : ConditionalArrow) :
    (t.afterColon.bytes ++ (t.parameter.bytes ++ t.arrow)).toList.all Byte.isTame = true := by
  simp only [arrow, Array.toList_append, List.all_append, Ident.all_isTame, Gap.all_isTame,
    Bool.true_and]
  rfl

/-- What stands behind the colon. -/
private theorem holds_behind (t : ConditionalArrow) : t.text.Holds (t.front.size + 1)
    (t.afterColon.bytes ++ (t.parameter.bytes ++ t.arrow)) := by
  have halternative := t.holds_alternative
  have harrow := t.holds_arrow
  simp only [alternative, Bytes.holds_append, Array.size_append, ← Nat.add_assoc]
    at halternative harrow
  exact halternative.2.1.append (halternative.2.2.append harrow)

private theorem size_alternative (t : ConditionalArrow) :
    t.alternative.size = 1 + t.afterColon.bytes.size + t.parameter.bytes.size := by
  simp only [alternative, Array.size_append, ← Nat.add_assoc]
  rfl

private theorem isAt_colon (t : ConditionalArrow) : t.text.isAt t.front.size ':' = true :=
  (Bytes.holds_append.mp t.holds_alternative).1.isAt_head rfl

/-- The colon is the only byte that is not tame. -/
private theorem isTame_text (t : ConditionalArrow) (hi : i < t.text.size) (hne : i ≠ t.front.size) :
    t.text.satAt i Byte.isTame = true := by
  rcases Nat.lt_or_gt_of_ne hne with hlt | hgt
  · exact t.holds_front.satAt_of_all t.tame_front (Nat.zero_le i) (by omega)
  · refine t.holds_behind.satAt_of_all t.tame_behind hgt ?_
    rw [size_text, size_alternative] at hi
    simp only [Array.size_append]
    omega

/-- A character that is neither tame nor a colon does not stand in the expression. -/
theorem not_isAt (t : ConditionalArrow) {ch : Char} (htame : (Byte.ofChar ch).isTame = false)
    (hcolon : (Byte.ofChar ':').is ch = false) (i : Nat) : t.text.isAt i ch = false := by
  by_cases hi : i < t.text.size
  · by_cases hfront : i = t.front.size
    · rw [hfront, Bytes.isAt_eq_satAt, Bytes.satAt_of_isAt t.isAt_colon, hcolon]
    · exact Bytes.isAt_eq_false (t.isTame_text hi hfront) htame
  · exact Bytes.satAt_eq_false_of_size_le (Nat.le_of_not_lt hi)

/-- **Nothing is given away but at the colon**, since the expression is loose and tame. -/
theorem matchAt_eq_none (t : ConditionalArrow) (hne : i ≠ t.front.size) (cursor : Nat)
    (k : Construct) : k.matchAt t.text cursor i = none := by
  by_cases hi : i < t.text.size
  · exact (t.loose_text.mono (Nat.zero_le i)).matchAt_eq_none (fun j _ => t.not_isAt rfl rfl j)
      (t.isTame_text hi hne) cursor k
  · exact matchAt_eq_none_of_starts (Bytes.satAt_eq_false_of_size_le (Nat.le_of_not_lt hi))

/-! ### The colon -/

/-- The parts of the expression before the colon. -/
private theorem holds_branch (t : ConditionalArrow) :
    t.text.Holds 0 t.head ∧ t.text.isAt t.head.size '?' = true ∧
      t.text.Holds (t.head.size + 1)
        (t.afterMark.bytes ++ (t.first.chain t.links ++ t.beforeColon.bytes)) := by
  have hfront := t.holds_front
  rw [front, Bytes.holds_append, Bytes.holds_append, Nat.zero_add] at hfront
  exact ⟨hfront.1, hfront.2.1.isAt_head rfl, hfront.2.2⟩

private theorem size_front (t : ConditionalArrow) : t.front.size = t.head.size + 1 +
    t.afterMark.bytes.size + (t.first.chain t.links).size + t.beforeColon.bytes.size := by
  simp only [front, Array.size_append, ← Nat.add_assoc]
  rfl

/-- The colon follows a list of parameters unless the expression is spared. This is
`followsParameters_branch`; the `?` is not the second one of a `??`. -/
private theorem followsParameters_text (t : ConditionalArrow) :
    followsParameters t.text t.front.size = !t.spared := by
  obtain ⟨hhead, hmark, hbranch⟩ := t.holds_branch
  have hbefore : t.text.isBefore t.head.size '?' = false := by
    -- before the sign is the test, or whitespace behind the test
    simp only [head, Bytes.holds_append] at hhead
    obtain ⟨-, -, htest, hgap⟩ := hhead
    have hpos := t.test.size_pos
    have hlast := Ident.isNamePart htest (k := 0 + t.target.bytes.size +
      (Bytes.ofString " = ").size + t.test.bytes.size - 1) (by omega) (by omega)
    have hend := Gap.not_satAt_last (q := (·.is '?')) (by rwa [Nat.sub_add_cancel (by omega)]) rfl
      (Bytes.isAt_eq_false hlast rfl)
    rw [Bytes.isBefore, Bytes.isAt_eq_satAt, show t.head.size - 1 = 0 + t.target.bytes.size +
      (Bytes.ofString " = ").size + t.test.bytes.size - 1 + t.beforeMark.bytes.size by
        simp only [head, Array.size_append]; omega, hend, Bool.and_false]
  rw [size_front, followsParameters_branch hmark hbefore hbranch, spared]
  simp

/-- Nothing is annotated at the colon, as a bracket stands before it. -/
private theorem annotationOf_text (t : ConditionalArrow) :
    annotationOf t.text t.front.size = none := by
  obtain ⟨-, -, hbranch⟩ := t.holds_branch
  simp only [Bytes.holds_append] at hbranch
  obtain ⟨-, hchain, hgap⟩ := hbranch
  have hclose := Call.isAt_close_chain hchain
  have hpos := Bytes.lt_size_of_satAt (t.first.head_chain t.links)
  have hnone := annotationOf_eq_none hclose (w := t.beforeColon) (by
    rwa [Nat.sub_add_cancel (by omega)])
  rwa [Nat.sub_add_cancel (by omega), ← size_front] at hnone

/-- At the colon there can be a return type only. The other kinds start with other bytes, but for
annotations. -/
private theorem matchAt_colon (t : ConditionalArrow) {k : Construct} (hk : k ≠ .returnType)
    (cursor : Nat) : k.matchAt t.text cursor t.front.size = none := by
  by_cases hannotated : k = .annotated
  · rw [hannotated, Construct.matchAt, annotationAt, t.annotationOf_text]
    split <;> rfl
  · have hstarts : ∀ k ∈ Construct.all, k ≠ .returnType → k ≠ .annotated →
        k.starts (Byte.ofChar ':') = false := by decide
    exact matchAt_eq_none_of_starts ((Bytes.satAt_of_isAt t.isAt_colon _).trans
      (hstarts k (Construct.mem_all k) hk hannotated))

/-- Where the colon follows a list of parameters, a return type is read up to the arrow. -/
private theorem returnTypeStop_text (t : ConditionalArrow) :
    returnTypeStop t.text t.front.size =
      if t.spared then none else some (t.front.size + t.alternative.size) := by
  cases hspared : t.spared with
  | true =>
    -- nothing is read where no list of parameters is seen
    rw [returnTypeStop, t.followsParameters_text, hspared]
    rfl
  | false =>
    have hfollows : followsParameters t.text t.front.size = true := by
      rw [t.followsParameters_text, hspared]
      rfl
    have hbehind := t.holds_behind
    simp only [arrow, Bytes.holds_append] at hbehind
    obtain ⟨hgap, hparameter, hsigns, -⟩ := hbehind
    have hsigns : t.text.Holds (t.front.size + 1 + t.afterColon.bytes.size +
        t.parameter.bytes.size) (Bytes.ofString " =>" ++ Bytes.ofString " ") := hsigns
    rw [returnTypeStop_arrow hfollows
      (hgap.append (hparameter.append (Bytes.holds_append.mp hsigns).1)), size_alternative]
    simp only [Nat.add_assoc]
    rfl

/-- A return type is found at the colon unless the expression is spared. -/
private theorem isSome_returnTypeAt (t : ConditionalArrow) :
    (returnTypeAt t.text t.front.size).isSome = !t.spared := by
  obtain ⟨hgap, hname⟩ := Bytes.holds_append.mp t.holds_behind
  -- behind the colon there is whitespace or a name
  have hnext : t.text.isAt (t.front.size + 1) ':' = false :=
    Bytes.isAt_eq_false
      (Gap.satAt_head hgap (Ident.isNameStart (Bytes.holds_append.mp hname).1)) rfl
  rw [returnTypeAt, t.isAt_colon, hnext, t.returnTypeStop_text]
  cases t.spared <;> simp

/-! ### The run -/

/-- Nothing starts in the arrow, whatever was written before it: it is loose and tame by itself. -/
private theorem silentAt_arrow (t : ConditionalArrow) (done : Bytes) {i : Nat} (hi : done.size ≤ i)
    (hlt : i < done.size + t.arrow.size) : SilentAt (done ++ t.arrow) i := by
  -- the arrow is made of names and a few signs
  have hparts : t.arrow.toList.all (fun c => c.isNamePart || c.among [' ', '=', '>', ';']) =
      true := by
    have hname : t.result.bytes.toList.all
        (fun c => c.isNamePart || c.among [' ', '=', '>', ';']) = true :=
      List.all_eq_true.mpr fun c hc => by rw [List.all_eq_true.mp t.result.parts c hc, Bool.true_or]
    simp only [arrow, Array.toList_append, List.all_append, hname]
    rfl
  have harrow : (done ++ t.arrow).Holds done.size t.arrow := Bytes.holds_append_right done t.arrow
  have hpart {j : Nat} (hj : done.size ≤ j) (hlt : j < done.size + t.arrow.size) :=
    harrow.satAt_of_all hparts hj hlt
  -- it holds no curly bracket, and the text ends with it
  have hbrace (j : Nat) (hij : i ≤ j) : (done ++ t.arrow).isAt j '{' = false := by
    by_cases hj : j < done.size + t.arrow.size
    · exact Bytes.isAt_eq_false (hpart (Nat.le_trans hi hij) hj) rfl
    · refine Bytes.satAt_eq_false_of_size_le ?_
      rw [Array.size_append]
      omega
  have htame : (done ++ t.arrow).satAt i Byte.isTame = true :=
    Bytes.satAt_mono (hpart hi hlt) fun c hc => by
      rcases Bool.or_eq_true_iff.mp hc with hname | hsign
      · rw [Byte.isTame, hname, Bool.true_or, Bool.true_or]
      · exact Byte.of_among _ hsign rfl
  have hloose := (loose_arrow harrow Array.size_append).mono hi
  exact ⟨fun cursor k => hloose.matchAt_eq_none hbrace htame cursor k,
    Bytes.satAt_eq_false (hpart hi hlt) (Byte.excludes_among rfl)⟩

/-- There is no slash in what is commented out. -/
private theorem noSlash_alternative (t : ConditionalArrow) (k : Nat) :
    t.alternative.isAt k '/' = false := by
  by_cases hk : k < t.alternative.size
  · rw [Bytes.isAt_eq_satAt, ← t.holds_alternative.satAt hk]
    exact t.not_isAt rfl rfl _
  · exact Bytes.satAt_eq_false_of_size_le (Nat.le_of_not_lt hk)

end ConditionalArrow

/-- **A conditional expression with an arrow** is left as it is if there is no line break between
its `?` and the last call of its middle branch, or if that call looks like a control statement.
Otherwise the colon and the parameter of the arrow function are commented out. -/
theorem erase_conditional (t : ConditionalArrow) :
    ∃ e, erase {} t.text = .ok e ∧ e.output =
      if t.spared then t.text
      else t.front ++
        (Bytes.ofString "/*" ++ t.alternative ++ Bytes.ofString "*/" ++ t.arrow) := by
  -- the colon is the only place where something is found, and it can only be a return type
  have hother (cursor j : Nat) (k : Construct) (h : k ≠ .returnType ∨ j ≠ t.front.size) :
      k.matchAt t.text cursor j = none := by
    by_cases hj : j = t.front.size
    · rw [hj]
      exact t.matchAt_colon (h.resolve_right (not_not_intro hj)) cursor
    · exact t.matchAt_eq_none hj cursor k
  have hat := t.isSome_returnTypeAt
  cases hspared : t.spared with
  | true =>
    -- nothing is found, and the run ends at once
    rw [hspared, Bool.not_true, Option.isSome_eq_false_iff, Option.isNone_iff_eq_none] at hat
    have hquiet : ({} : Rules).Quiet t.text 0 t.text.size := by
      intro k _ i _ _
      by_cases hi : k ≠ .returnType ∨ i ≠ t.front.size
      · exact hother 0 i k hi
      · rw [not_or, not_not, not_not] at hi
        rw [hi.1, hi.2, Construct.matchAt, hat]
    refine ⟨⟨[], t.text⟩, Grammar.runFrom_of_next_eq_none ?_, Erasure.output_nil _⟩
    rw [Array.empty_append]
    exact hquiet.nextMatch_eq_none
  | false =>
    -- the return type is found, and nothing behind it
    have hstop := t.returnTypeStop_text
    rw [hspared] at hat hstop
    obtain ⟨e, he, hout⟩ := Rules.Writes.returnType rfl hat hstop hother
      (Rules.Writes.of_silent rfl fun i hi hlt => t.silentAt_arrow _ hi hlt)
    refine ⟨e, he, ?_⟩
    rw [hout, Bytes.commentOut_of_noSlash t.noSlash_alternative, if_neg Bool.false_ne_true]

/-- The expression `v = c ? f(a)… : x => y;` with the given whitespace behind its `?` and the given
calls behind the first. -/
def ConditionalArrow.sample (afterMark : Gap) (links : List Link) : ConditionalArrow where
  target := ⟨Bytes.ofString "v", by decide, by decide⟩
  test := ⟨Bytes.ofString "c", by decide, by decide⟩
  beforeMark := .blank
  afterMark := afterMark
  first :=
    ⟨⟨Bytes.ofString "f", by decide, by decide⟩, ⟨Bytes.ofString "a", by decide, by decide⟩⟩
  links := links
  beforeColon := .blank
  afterColon := .blank
  parameter := ⟨Bytes.ofString "x", by decide, by decide⟩
  result := ⟨Bytes.ofString "y", by decide, by decide⟩

/-- The call `.g(b)` behind the given whitespace. -/
def Link.sample (gap : Gap) : Link :=
  ⟨gap, ⟨Bytes.ofString "g", by decide, by decide⟩, ⟨Bytes.ofString "b", by decide, by decide⟩⟩

/-- A chain of calls on the line of the `?` is left as it is. -/
theorem erase_conditional_spared :
    ∃ t : ConditionalArrow, t.text = Bytes.ofString "v = c ? f(a) .g(b) : x => y;" ∧
      t.spared = true ∧ ∃ e, erase {} t.text = .ok e ∧
        e.output = Bytes.ofString "v = c ? f(a) .g(b) : x => y;" := by
  let t := ConditionalArrow.sample .blank [.sample .blank]
  have htext : t.text = Bytes.ofString "v = c ? f(a) .g(b) : x => y;" := by decide +kernel
  have hspared : t.spared = true := by decide +kernel
  obtain ⟨e, he, hout⟩ := erase_conditional t
  rw [if_pos hspared, htext] at hout
  exact ⟨t, htext, hspared, e, he, hout⟩

/-- **A line break makes the difference**: behind the `?`, or between the calls of the chain, it has
the parameter of the arrow function commented out. -/
theorem erase_conditional_broken :
    (∃ t : ConditionalArrow, t.text = Bytes.ofString "v = c ?\n f(a) : x => y;" ∧
      (erase {} t.text).toOption.map (·.output) =
        some (Bytes.ofString "v = c ?\n f(a) /*: x*/ => y;")) ∧
    ∃ t : ConditionalArrow, t.text = Bytes.ofString "v = c ? f(a)\n  .g(b) : x => y;" ∧
      (erase {} t.text).toOption.map (·.output) =
        some (Bytes.ofString "v = c ? f(a)\n  .g(b) /*: x*/ => y;") :=
  ⟨⟨.sample ⟨Bytes.ofString "\n ", by decide⟩ [], by decide +kernel, by decide +kernel⟩,
    .sample .blank [.sample ⟨Bytes.ofString "\n  ", by decide⟩], by decide +kernel,
    by decide +kernel⟩

end TypeErasure
