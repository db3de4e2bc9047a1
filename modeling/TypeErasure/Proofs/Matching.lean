import TypeErasure.Proofs.Alike
import TypeErasure.Proofs.Group
import TypeErasure.Proofs.Lexing
import TypeErasure.Proofs.Placed

/-!
# Groups of tokens and groups of bytes

The bracket that closes a group can be looked for among the tokens (`groupEnd`) or among the bytes
(`findClose`). The first search knows an arrow by two tokens that touch, the second by two bytes,
and they pass over literals each in its own way. If no token is a regular expression, the second
search goes from token to token (`findStopFrom_eq_tokenOffset`), so that both come to the same
bracket, or to the end.
-/

namespace TypeErasure

/-! ### Brackets by their group -/

namespace Byte

variable {c : Byte}

/-- The bracket that a byte opens is found by asking for four characters, which are those that the
search among the bytes asks for. All answers to the four questions are gone through. -/
private theorem isSome_opens? (c : Byte) : c.opens?.isSome = (c.isOpener || c.is '<') := by
  simp only [opens?, isOpener, among, List.any_cons, List.any_nil, Bool.or_false]
  cases c.is '(' <;> cases c.is '[' <;> cases c.is '{' <;> cases c.is '<' <;> rfl

/-- The same for the bracket that a byte closes. The angle bracket is listed with the others here
and apart from them there, because only it can be the head of an arrow. -/
private theorem isSome_closes? (c : Byte) : c.closes?.isSome = (c.isCloser || c.is '>') := by
  simp only [closes?, isCloser, among, List.any_cons, List.any_nil, Bool.or_false]
  cases c.is ')' <;> cases c.is ']' <;> cases c.is '}' <;> cases c.is '>' <;> rfl

/-- Only one byte closes an angle bracket. From left to right, the branches that give another
bracket are ruled out; from right to left, the byte is known and the rest is a computation. -/
private theorem closes?_eq_angle_iff : c.closes? = some .angle ↔ c.is '>' = true := by
  constructor
  · intro h
    unfold closes? at h
    split at h
    · simp at h
    · split at h
      · simp at h
      · split at h
        · simp at h
        · split at h
          · assumption
          · simp at h
  · intro h
    exact of_decide_eq_true ((apply_of_is h fun c => decide (c.closes? = some .angle)).trans rfl)

/-- No byte opens a group and closes one. It is one of four characters then, and none of these is
asked for as an opening one. -/
private theorem opens?_eq_none_of_closes? {shape : Bracket} (h : c.closes? = some shape) :
    c.opens? = none := by
  have hsome : c.closes?.isSome = true := by rw [h]; rfl
  have hamong : c.among [')', ']', '}', '>'] = true := by
    rw [isSome_closes?, Bool.or_eq_true] at hsome
    rcases hsome with hcloser | hangle
    · exact of_among (q := (·.among [')', ']', '}', '>'])) [')', ']', '}'] hcloser rfl
    · exact (apply_of_is hangle (·.among [')', ']', '}', '>'])).trans rfl
  simpa using of_among (q := fun c => c.opens?.isNone) _ hamong rfl

/-- A byte of a group other than those of brackets is no bracket. One case for each group of
characters. A group is a list of signs or, for words, defined by the absence of brackets. -/
private theorem not_bracket_of_holds {g : CharGroup} (h : g.Holds c)
    (hopen : ∀ shape, g ≠ .opening shape)
    (hclose : ∀ shape, g ≠ .closing shape) : c.opens? = none ∧ c.closes? = none := by
  -- the signs of all other groups are no brackets
  have hnone {s : List Char} (hc : c.among s = true)
      (hall : s.all (fun ch => (ofChar ch).opens?.isNone && (ofChar ch).closes?.isNone) = true) :
      c.opens? = none ∧ c.closes? = none := by
    simpa using of_among (q := fun c => c.opens?.isNone && c.closes?.isNone) s hc hall
  cases g with
  | whitespace => exact hnone (s := [' ', '\t']) h rfl
  | newline => exact hnone h rfl
  | quote => exact hnone h rfl
  | operator => exact hnone h rfl
  | separator => exact hnone h rfl
  | opening shape => exact absurd rfl (hopen shape)
  | closing shape => exact absurd rfl (hclose shape)
  | word => exact h

end Byte

section Groups

variable {b : Bytes} {i : Nat}

/-- In a type, the search among the bytes takes for an opening bracket what the groups of characters
do. -/
private theorem opensAt_type_eq (b : Bytes) (i : Nat) :
    opensAt b .type i = b.satAt i (·.opens?.isSome) := by
  simp only [Byte.isSome_opens?, opensAt, Bytes.satAt, Bytes.isAt]
  cases b[i]? <;> simp

/-- It takes for a closing bracket what the groups of characters do, but for the head of an arrow.
The two sides put the exception in different places, so that the angle bracket is split off. -/
private theorem closesAt_type_eq (b : Bytes) (i : Nat) :
    closesAt b .type i =
      (b.satAt i (·.closes?.isSome) && !(b.isAt i '>' && b.isBefore i '=')) := by
  simp only [Byte.isSome_closes?, closesAt, Bytes.satAt, Bytes.isAt]
  cases hc : b[i]? with
  | none => simp
  | some c =>
    -- the angle bracket is not among the other closing ones
    have hapart : c.is '>' = true → c.isCloser = false := fun h => Byte.apply_of_is h Byte.isCloser
    simp only [Option.any_some, beq_self_eq_true, Bool.true_and]
    cases hangle : c.is '>' with
    | false => simp
    | true => simp [hapart hangle]

/-- A byte of an opening group opens a group for the search. -/
private theorem opensAt_of_opening {shape : Bracket} (h : b.groupAt? i = some (.opening shape)) :
    opensAt b .type i = true := by
  obtain ⟨c, hc, hholds⟩ := Bytes.exists_of_groupAt? h
  have hopens : c.opens? = some shape := hholds
  rw [opensAt_type_eq, Bytes.satAt_of_getElem? hc, hopens]
  rfl

/-- The bytes of a closing bracket, read by themselves: only the head of an arrow closes nothing.
Whether it is such a head depends on the byte before it and on the shape of the bracket. -/
private theorem closesAt_of_closing {shape : Bracket} (h : b.groupAt? i = some (.closing shape)) :
    opensAt b .type i = false ∧
      closesAt b .type i = !(shape == .angle && b.isBefore i '=') := by
  obtain ⟨c, hc, hholds⟩ := Bytes.exists_of_groupAt? h
  have hcloses : c.closes? = some shape := hholds
  have hangle : b.isAt i '>' = (shape == .angle) := by
    rw [Bytes.isAt_eq_satAt, Bytes.satAt_of_getElem? hc, Bool.eq_iff_iff, beq_iff_eq,
      ← Byte.closes?_eq_angle_iff, hcloses, Option.some.injEq]
  constructor
  · rw [opensAt_type_eq, Bytes.satAt_of_getElem? hc, Byte.opens?_eq_none_of_closes? hcloses]
    rfl
  · rw [closesAt_type_eq, Bytes.satAt_of_getElem? hc, hcloses, hangle]
    rfl

/-- A byte of any other group is no bracket for the search. -/
private theorem plain_of_groupAt? {g : CharGroup} (h : b.groupAt? i = some g)
    (hopen : ∀ shape, g ≠ .opening shape) (hclose : ∀ shape, g ≠ .closing shape) :
    opensAt b .type i = false ∧ closesAt b .type i = false := by
  obtain ⟨c, hc, hholds⟩ := Bytes.exists_of_groupAt? h
  obtain ⟨hopens, hcloses⟩ := Byte.not_bracket_of_holds hholds hopen hclose
  rw [opensAt_type_eq, closesAt_type_eq, Bytes.satAt_of_getElem? hc, Bytes.satAt_of_getElem? hc,
    hopens, hcloses]
  exact ⟨rfl, rfl⟩

end Groups

/-! ### Arrows -/

section Arrow

variable {b : Bytes} {i : Nat} {t : Token}

/-- The array of tokens lists them in the order in which they are read. -/
private theorem getElem?_tokenize (b : Bytes) (i : Nat) :
    (tokenize b)[i]? = (tokensFrom b 0)[i]? := by
  rw [tokenize, List.getElem?_toArray]

/-- Every token has been read from the text that it is a token of. -/
private theorem readFrom_of_getElem? (ht : (tokenize b)[i]? = some t) : t.ReadFrom b :=
  readFrom_of_mem_tokensFrom (List.mem_of_getElem? ((getElem?_tokenize b i).symm.trans ht))

/-- Of two tokens the one with the smaller index ends before the other one starts. The tokens of a
text are sorted, which is said pairwise and used here by index. -/
private theorem stop_le_start {j : Nat} {u : Token} (ht : (tokenize b)[i]? = some t)
    (hu : (tokenize b)[j]? = some u) (hij : i < j) : t.span.stop ≤ u.span.start := by
  rw [getElem?_tokenize] at ht hu
  obtain ⟨hi, rfl⟩ := List.getElem?_eq_some_iff.mp ht
  obtain ⟨hj, rfl⟩ := List.getElem?_eq_some_iff.mp hu
  exact List.pairwise_iff_getElem.mp (pairwise_tokensFrom b 0) i j hi hj hij

/-- Tokens that touch stand next to each other. A token between the two would have to end where the
first ends, and then it would be empty; and a token is not before itself. -/
private theorem eq_succ_of_touch {j : Nat} {u : Token} (ht : (tokenize b)[i]? = some t)
    (hu : (tokenize b)[j]? = some u) (htouch : t.span.stop = u.span.start) : j = i + 1 := by
  have htlt := (readFrom_of_getElem? ht).bounds.1
  have hult := (readFrom_of_getElem? hu).bounds.1
  rcases Nat.lt_trichotomy j (i + 1) with hlt | heq | hgt
  · -- the second token does not come before the first, and is not the first
    rcases Nat.lt_or_eq_of_le (Nat.le_of_lt_succ hlt) with hji | rfl
    · have := stop_le_start hu ht hji
      omega
    · obtain rfl := Option.some.inj (ht.symm.trans hu)
      omega
  · exact heq
  · -- there is no room for the token between them
    have hsize := (Array.getElem?_eq_some_iff.mp hu).1
    have hmid : (tokenize b)[i + 1]? = some (tokenize b)[i + 1] :=
      Array.getElem?_eq_getElem (by omega)
    have hfst := stop_le_start ht hmid (Nat.lt_succ_self i)
    have hsnd := stop_le_start hmid hu hgt
    have := (readFrom_of_getElem? hmid).bounds.1
    omega

/-- **A token that ends with a `=` is that sign alone**, unless it is a comment that ends with its
line, a literal that is never closed, or a regular expression. A literal that is closed ends with a
quote or a slash, so the token has a group; the sign is a separator, and separators are tokens of
one byte. -/
theorem Token.ReadFrom.eq_equals (h : t.ReadFrom b) (hregex : t.kind ≠ .literal .regex)
    (hlast : b.isAt (t.span.stop - 1) '=' = true) (hsize : t.span.stop < b.size)
    (hline : b.isAt t.span.stop '\n' = false) :
    t.span.stop = t.span.start + 1 ∧ t.text = Bytes.ofString "=" := by
  have hbounds := h.bounds
  -- a literal that is closed does not end with that sign
  obtain ⟨g, hg⟩ : ∃ g, t.kind.group? = some g := by
    cases hkind : t.kind with
    | literal kind =>
      obtain ⟨l, hl, rfl, hspan⟩ := h.literalAt hkind
      have hstop := inertStop_of_literalAt hl fun hl => hregex (hkind.trans (congrArg _ hl))
      rw [hspan] at hstop
      rcases inertStop_of_last hstop hlast (Byte.excludes_opensInert rfl) with hend | hbreak
      · omega
      · simp [hline] at hbreak
    | _ => exact ⟨_, rfl⟩
  have hrun := h.groupRun hg
  -- all bytes of the token are of the same group as its last one
  have hgroup : g = .separator := by
    obtain ⟨c, hc, rfl⟩ := Option.map_eq_some_iff.mp
      (hrun.bytes (t.span.stop - 1) (by omega) (by omega)).1
    rw [Bytes.isAt_eq_satAt, Bytes.satAt_of_getElem? hc] at hlast
    have hsign := Byte.apply_of_is hlast fun c => decide (c.group = .separator)
    exact of_decide_eq_true (hsign.trans rfl)
  have hone : t.span.stop = t.span.start + 1 := hrun.single (by rw [hgroup]; rfl)
  refine ⟨hone, ?_⟩
  rw [hone, Nat.add_sub_cancel] at hlast
  have hholds : b.Holds t.span.start (Bytes.ofString "=") := by
    intro k hk
    obtain rfl : k = 0 := Nat.lt_one_iff.mp hk
    exact Bytes.getElem?_of_isAt hlast
  rw [h.text_eq, Span.text, hone]
  exact hholds.slice

/-- What the search among the tokens asks for at an angle bracket: the token before it is a `=` and
ends where the bracket starts. -/
private theorem isArrowHead_iff {tokens : Array Token} (ht : tokens[i]? = some t)
    (hangle : t.kind = .closing .angle) :
    isArrowHead tokens i = true ↔
      ∃ u, 0 < i ∧ tokens[i - 1]? = some u ∧ u.text = Bytes.ofString "=" ∧
        u.span.stop = t.span.start := by
  rw [isArrowHead, ht]
  cases hu : tokens[i - 1]? with
  | none => simp
  | some u => simp [hangle, and_assoc]

/-- No other token is the head of an arrow. -/
private theorem isArrowHead_of_ne_angle {tokens : Array Token} (ht : tokens[i]? = some t)
    (hangle : t.kind ≠ .closing .angle) : isArrowHead tokens i = false := by
  rw [isArrowHead, ht]
  cases hu : tokens[i - 1]? with
  | none => rfl
  | some u => simp [hangle]

/-- **The two notions of an arrow agree**: the byte before the bracket is a `=` if and only if the
token before it is one and touches it. From tokens to bytes, the token before the bracket has one
byte, which is the `=`. From bytes to tokens, the `=` belongs to some token, since it is no blank;
that token stands before the bracket and touches it, so it is the one with the index before, and it
is the sign alone by `Token.ReadFrom.eq_equals`. -/
theorem isArrowHead_eq (hregex : ∀ t ∈ (tokenize b).toList, t.kind ≠ .literal .regex)
    (ht : (tokenize b)[i]? = some t) (hangle : t.kind = .closing .angle) :
    isArrowHead (tokenize b) i = b.isBefore t.span.start '=' := by
  have hread := readFrom_of_getElem? ht
  have hbounds := hread.bounds
  rw [Bool.eq_iff_iff, isArrowHead_iff ht hangle]
  constructor
  · rintro ⟨u, -, hu, htext, htouch⟩
    have huread := readFrom_of_getElem? hu
    have hubounds := huread.bounds
    rw [huread.text_eq, Span.text] at htext
    -- the token is one byte long
    have hone : u.span.stop = u.span.start + 1 := by
      have hsize := congrArg Array.size htext
      rw [Bytes.size_slice hubounds.2] at hsize
      have : (Bytes.ofString "=").size = 1 := rfl
      omega
    have hat : b.hasAt u.span.start "=" = true := by
      rw [hone] at htext
      exact beq_iff_eq.mpr htext
    have hequals := Bytes.satAt_of_hasAt (p := (·.is '=')) hat (k := 0) (by decide) rfl
    rw [← htouch, hone, Bytes.isBefore, Nat.add_sub_cancel]
    simpa [Bytes.isAt_eq_satAt] using hequals
  · intro hbefore
    obtain ⟨hpos, hequals⟩ : 0 < t.span.start ∧ b.isAt (t.span.start - 1) '=' = true := by
      simpa [Bytes.isBefore] using hbefore
    -- the sign lies in a token, and that token ends where the bracket starts
    obtain ⟨u, hu, hustart, hustop⟩ : ∃ u ∈ tokensFrom b 0,
        u.span.start ≤ t.span.start - 1 ∧ t.span.start - 1 < u.span.stop := by
      rcases isBlank_or_mem_tokensFrom b (Nat.zero_le _) (Bytes.lt_size_of_isAt hequals) with h | h
      · rw [Bytes.satAt_of_isAt hequals] at h
        exact absurd h (by decide)
      · exact h
    obtain ⟨j, hj⟩ := List.mem_iff_getElem?.mp hu
    rw [← getElem?_tokenize] at hj
    have hji : j < i := by
      rcases Nat.lt_trichotomy j i with hlt | rfl | hgt
      · exact hlt
      · obtain rfl := Option.some.inj (ht.symm.trans hj)
        omega
      · have := stop_le_start ht hj hgt
        omega
    have htouch : u.span.stop = t.span.start := by
      have := stop_le_start hj ht hji
      omega
    obtain rfl := eq_succ_of_touch hj ht htouch
    -- a closing bracket is no line break
    have hrun := hread.groupRun (g := .closing .angle) (by rw [hangle]; rfl)
    obtain ⟨c, hc, hholds⟩ := Bytes.exists_of_groupAt? hrun.groupAt?
    have hline : b.isAt u.span.stop '\n' = false := by
      rw [htouch, Bytes.isAt_eq_satAt, Bytes.satAt_of_getElem? hc]
      exact Byte.apply_of_is (Byte.closes?_eq_angle_iff.mp hholds) (·.is '\n')
    have hsign :=
      (readFrom_of_getElem? hj).eq_equals (hregex u hu) (by rwa [htouch]) (by omega) hline
    exact ⟨u, Nat.succ_pos j, hj, hsign.2, htouch⟩

end Arrow

/-! ### The two searches -/

section Search

variable {b : Bytes} {d i j : Nat}

/-- The offset of the token at index `r`, or the end of the text if there is none. -/
def tokenOffset (b : Bytes) (r : Nat) : Nat :=
  (tokenize b)[r]?.elim b.size (·.span.start)

/-- The tokens behind a token are those of the text behind it. The induction follows the reading:
the token is the first one read, or one of those behind it. -/
private theorem drop_tokensFrom (b : Bytes) (i : Nat) : ∀ (n : Nat) (t : Token),
    (tokensFrom b i)[n]? = some t → (tokensFrom b i).drop (n + 1) = tokensFrom b t.span.stop := by
  fun_induction tokensFrom b i with
  | case1 i hi l hl ih =>
    intro n t h
    cases n with
    | zero =>
      obtain rfl := Option.some.inj h
      rfl
    | succ n => exact ih n t h
  | case2 i hi _ g stop _ ih =>
    -- whitespace makes no token
    exact ih
  | case3 i hi _ g stop kind _ ih =>
    intro n t h
    cases n with
    | zero =>
      obtain rfl := Option.some.inj h
      rfl
    | succ n => exact ih n t h
  | case4 =>
    -- nothing is left to read
    simp

/-- The first of the tokens that are left, and those behind it. -/
private theorem getElem?_of_drop_eq_cons {n : Nat} {t : Token} {rest : List Token}
    (h : (tokensFrom b 0).drop n = t :: rest) :
    (tokenize b)[n]? = some t ∧ (tokensFrom b 0).drop (n + 1) = rest := by
  constructor
  · rw [getElem?_tokenize, ← List.head?_drop, h, List.head?_cons]
  · rw [← List.tail_drop, h, List.tail_cons]

/-- The search among the bytes passes over bytes that are no brackets and start no literal. By
induction on their number. Each is one step of the search that changes nothing. -/
private theorem findStopFrom_of_plainRun (hij : i ≤ j) (hj : j ≤ b.size)
    (h : ∀ k, i ≤ k → k < j → inertStop b k = none ∧ opensAt b .type k = false ∧
      closesAt b .type k = false) :
    findStopFrom b .type (fun _ => false) d i = findStopFrom b .type (fun _ => false) d j := by
  obtain ⟨n, rfl⟩ := Nat.exists_eq_add_of_le hij
  induction n with
  | zero => rfl
  | succ n ih =>
    obtain ⟨hnone, hopen, hclose⟩ := h (i + n) (by omega) (by omega)
    rw [ih (by omega) (by omega) fun k hk hkj => h k hk (by omega),
      findStopFrom_eq_ite b _ _ d (i + n), if_pos (by omega), hnone, hopen, hclose]
    simp only [Bool.false_eq_true, and_false, if_false]
    rfl

/-- A run of bytes that are no brackets is passed over. Each of its bytes is of its group and starts
no literal, which is what `findStopFrom_of_plainRun` asks for. -/
theorem GroupRun.findStopFrom_eq {g : CharGroup} (h : GroupRun b g i j)
    (hopen : ∀ shape, g ≠ .opening shape) (hclose : ∀ shape, g ≠ .closing shape) :
    findStopFrom b .type (fun _ => false) d i = findStopFrom b .type (fun _ => false) d j := by
  refine findStopFrom_of_plainRun (Nat.le_of_lt h.lt) h.le_size fun k hk hkj => ?_
  obtain ⟨hgroup, hliteral⟩ := h.bytes k hk hkj
  refine ⟨?_, plain_of_groupAt? hgroup hopen hclose⟩
  rw [inertStop, hliteral]
  rfl

/-- A bracket is looked at by itself. A group that does not join has one byte, and the search makes
one step over it. -/
theorem GroupRun.findStopFrom_eq_ite {g : CharGroup} (h : GroupRun b g i j)
    (hjoins : g.joins = false) :
    findStopFrom b .type (fun _ => false) d i =
      if opensAt b .type i then findStopFrom b .type (fun _ => false) (d + 1) j
      else if closesAt b .type i then
        if d = 0 then i else findStopFrom b .type (fun _ => false) (d - 1) j
      else findStopFrom b .type (fun _ => false) d j := by
  obtain rfl := h.single hjoins
  have hnone : inertStop b i = none := by
    rw [inertStop, (h.bytes i (Nat.le_refl i) h.lt).2]
    rfl
  rw [TypeErasure.findStopFrom_eq_ite, if_pos (show i < b.size from h.le_size), hnone]
  simp only [Bool.false_eq_true, and_false, if_false]

/-- **The search among the bytes goes from token to token**: one group deeper, the count of the
tokens from index `n` on comes to the same place. The induction follows the reading of the tokens. A
literal is one step of both searches, whitespace is none for the tokens, and a bracket is one step
of both that changes both counts; the search among the bytes counts from zero where the other counts
from one. A byte that closes the last group stops both. -/
theorem findStopFrom_eq_tokenOffset
    (hregex : ∀ t ∈ (tokenize b).toList, t.kind ≠ .literal .regex) (i : Nat) :
    ∀ n d, (tokensFrom b 0).drop n = tokensFrom b i →
      findStopFrom b .type (fun _ => false) d i =
        tokenOffset b (groupEndFrom (tokenize b) (d + 1) n) := by
  fun_induction tokensFrom b i with
  | case1 i hi l hl ih =>
    -- a literal is passed over by both searches
    intro n d hn
    obtain ⟨ht, hrest⟩ := getElem?_of_drop_eq_cons hn
    have hkind : l.kind ≠ .regex := fun hkind =>
      hregex _ (List.mem_of_getElem? ((getElem?_tokenize b n).symm.trans ht)) (congrArg _ hkind)
    rw [groupEndFrom_of_other ht (by simp [Token.at]) (by simp [Token.at]),
      TypeErasure.findStopFrom_eq_ite, if_pos hi, inertStop_of_literalAt hl hkind]
    simp only [Bool.false_eq_true, and_false, if_false]
    exact ih (n + 1) d hrest
  | case2 i hi hnone g stop hkind ih =>
    intro n d hn
    -- whitespace makes no token, and the search passes over it
    have hrun : GroupRun b g i stop := groupRun_groupTokenStop hi hnone
    rw [hrun.findStopFrom_eq (by rintro shape hg; simp [hg, CharGroup.tokenKind?] at hkind)
      (by rintro shape hg; simp [hg, CharGroup.tokenKind?] at hkind)]
    exact ih n d hn
  | case3 i hi hnone g stop kind hkind ih =>
    -- a token that is no literal, told apart by its group
    intro n d hn
    obtain ⟨ht, hrest⟩ := getElem?_of_drop_eq_cons hn
    have hrun : GroupRun b g i stop := groupRun_groupTokenStop hi hnone
    have hgroup := CharGroup.group?_of_tokenKind? hkind hrun.ne_quote
    clear_value stop g
    cases kind with
    | opening shape =>
      obtain rfl := Option.some.inj hgroup
      rw [groupEndFrom_of_opening ht rfl, hrun.findStopFrom_eq_ite rfl,
        if_pos (opensAt_of_opening hrun.groupAt?)]
      exact ih (n + 1) (d + 1) hrest
    | closing shape =>
      obtain rfl := Option.some.inj hgroup
      obtain ⟨hopen, hclose⟩ := closesAt_of_closing hrun.groupAt?
      -- an arrow is one for both searches
      have harrow : isArrowHead (tokenize b) n = !closesAt b .type i := by
        rw [hclose, Bool.not_not]
        cases shape with
        | angle => exact isArrowHead_eq hregex ht rfl
        | _ => exact isArrowHead_of_ne_angle ht (by simp [Token.at])
      rw [groupEndFrom_of_closing ht rfl, hrun.findStopFrom_eq_ite rfl, hopen, harrow]
      -- the head of an arrow closes nothing; a bracket closes the group, or one that was opened in
      -- it
      cases closesAt b .type i with
      | false => exact ih (n + 1) d hrest
      | true =>
        cases d with
        | zero =>
          rw [tokenOffset]
          simp [ht, Token.at]
        | succ d => simpa using ih (n + 1) d hrest
    | literal _ => simp [TokenKind.group?] at hgroup
    | _ =>
      obtain rfl := Option.some.inj hgroup
      rw [groupEndFrom_of_other ht (by simp [Token.at]) (by simp [Token.at]),
        hrun.findStopFrom_eq (by simp) (by simp)]
      exact ih (n + 1) d hrest
  | case4 i hi =>
    -- the end of the text
    intro n d hn
    have hsize : (tokenize b).size ≤ n := by
      simpa [tokenize] using hn
    rw [groupEndFrom_of_size_le hsize, tokenOffset, Array.getElem?_eq_none (Nat.le_refl _),
      TypeErasure.findStopFrom_eq_ite, if_neg hi]
    rfl

/-- **Tokens and bytes agree on where a group ends.** If no token of the text is a regular
expression, the byte at which the search among the bytes stops is the first one of the token that
closes the group, and the search runs to the end if no token does. The token is one byte long, and
from there on this is `findStopFrom_eq_tokenOffset`. -/
theorem findClose_eq_groupEnd (hregex : ∀ t ∈ (tokenize b).toList, t.kind ≠ .literal .regex)
    {t : Token} {shape : Bracket} (ht : (tokenize b)[i]? = some t)
    (hkind : t.kind = .opening shape) :
    groupEnd (tokenize b) i ≤ (tokenize b).size ∧
      (∀ u, (tokenize b)[groupEnd (tokenize b) i]? = some u →
        findClose b .type (t.span.start + 1) = u.span.start) ∧
      (groupEnd (tokenize b) i = (tokenize b).size →
        findClose b .type (t.span.start + 1) = b.size) := by
  -- a bracket is a token of one byte, and the tokens behind it are those of the text behind it
  have hstop : t.span.stop = t.span.start + 1 :=
    ((readFrom_of_getElem? ht).groupRun (g := .opening shape) (by rw [hkind]; rfl)).single rfl
  have hrest := drop_tokensFrom b 0 i t ((getElem?_tokenize b i).symm.trans ht)
  have hoffset : findClose b .type (t.span.start + 1) =
      tokenOffset b (groupEnd (tokenize b) i) := by
    rw [← hstop, OpensGroup.groupEnd_eq ⟨t, shape, ht, hkind⟩]
    exact findStopFrom_eq_tokenOffset hregex t.span.stop (i + 1) 0 hrest
  refine ⟨groupEndFrom_le_size 0 i, fun u hu => ?_, fun hend => ?_⟩
  · rw [hoffset, tokenOffset, hu]
    rfl
  · rw [hoffset, tokenOffset, hend, Array.getElem?_eq_none (Nat.le_refl _)]
    rfl

/-- In `f<T=(a)=>']'>([x` the angle bracket is closed past a round group, an arrow and a string, and
the round one never is. -/
theorem findClose_eq_groupEnd_both :
    (findClose (.ofString "f<T=(a)=>']'>([x") .type 2 = 12 ∧
        groupEnd (tokenize (.ofString "f<T=(a)=>']'>([x")) 1 = 10) ∧
      findClose (.ofString "f<T=(a)=>']'>([x") .type 14 = 16 ∧
        groupEnd (tokenize (.ofString "f<T=(a)=>']'>([x")) 11 = 14 := by
  have hregex : ∀ t ∈ (tokenize (.ofString "f<T=(a)=>']'>([x")).toList,
      t.kind ≠ .literal .regex := by decide +kernel
  have hinner : groupEnd (tokenize (.ofString "f<T=(a)=>']'>([x")) 1 = 10 := by decide +kernel
  have houter : groupEnd (tokenize (.ofString "f<T=(a)=>']'>([x")) 11 = 14 := by decide +kernel
  refine ⟨⟨?_, hinner⟩, ?_, houter⟩
  · refine (findClose_eq_groupEnd hregex (i := 1) (t := ⟨.opening .angle, ⟨1, 2⟩, .ofString "<"⟩)
      (by decide +kernel) rfl).2.1 ⟨.closing .angle, ⟨12, 13⟩, .ofString ">"⟩ ?_
    rw [hinner]
    decide +kernel
  · refine (findClose_eq_groupEnd hregex (i := 11) (t := ⟨.opening .round, ⟨13, 14⟩, .ofString "("⟩)
      (by decide +kernel) rfl).2.2 ?_
    rw [houter]
    decide +kernel

end Search

end TypeErasure
