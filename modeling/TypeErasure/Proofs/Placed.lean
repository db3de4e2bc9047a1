import TypeErasure.Proofs.Alike.Class
import TypeErasure.Proofs.Backward
import TypeErasure.Proofs.Nesting

/-!
# Texts in their place

`Bytes.Holds b i t` says that the text `t` stands at offset `i` of `b`. A text that is put together
from parts holds each part at the end of the one before (`Bytes.holds_append`), so that what the
scans do on the whole can be said part by part, whatever stands around.

The second half is about names and comments in their place: where a name starts and ends and which
keyword it is (`Ident`), and that backward scans pass over comments.
-/

namespace TypeErasure

namespace Bytes

variable {b s t : Bytes} {i j k : Nat} {p : Byte → Bool}

/-- The text `t` stands at offset `i`. -/
def Holds (b : Bytes) (i : Nat) (t : Bytes) : Prop :=
  ∀ k, k < t.size → b[i + k]? = t[k]?

theorem holds_zero (b : Bytes) : b.Holds 0 b := fun k _ => by rw [Nat.zero_add]

/-- **A text that is put together stands where its parts do**, one behind the other. From right to
left, a place lies in one of the two parts. -/
theorem holds_append : b.Holds i (s ++ t) ↔ b.Holds i s ∧ b.Holds (i + s.size) t := by
  constructor
  · intro h
    refine ⟨fun k hk => ?_, fun k hk => ?_⟩
    · rw [h k (by rw [Array.size_append]; omega), Array.getElem?_append_left hk]
    · rw [Nat.add_assoc, h (s.size + k) (by rw [Array.size_append]; omega), getElem?_append_add]
  · rintro ⟨hs, ht⟩ k hk
    rw [Array.size_append] at hk
    -- the place lies in the first part or in the second
    by_cases hlt : k < s.size
    · rw [hs k hlt, Array.getElem?_append_left hlt]
    · obtain ⟨m, rfl⟩ : ∃ m, k = s.size + m := ⟨k - s.size, by omega⟩
      rw [← Nat.add_assoc, ht m (by omega), getElem?_append_add]

theorem holds_append_right (x y : Bytes) : (x ++ y).Holds x.size y :=
  fun k _ => getElem?_append_add x y k

/-- What is known of a byte stays so when something is put behind the text. -/
theorem satAt_append_of (h : s.satAt k p = true) (t : Bytes) : (s ++ t).satAt k p = true :=
  (satAt_congr (Array.getElem?_append_left (lt_size_of_satAt h)) p).trans h

namespace Holds

/-- Two parts in their places make the whole, in the form in which they are put together. -/
theorem append (hs : b.Holds i s) (ht : b.Holds (i + s.size) t) : b.Holds i (s ++ t) :=
  holds_append.mpr ⟨hs, ht⟩

theorem satAt (h : b.Holds i t) (hk : k < t.size) (p : Byte → Bool) :
    b.satAt (i + k) p = t.satAt k p :=
  satAt_congr (h k hk) p

/-- What is known of a byte of the text is known of it in its place. -/
private theorem satAt_of (h : b.Holds i t) (hk : t.satAt k p = true) : b.satAt (i + k) p = true :=
  (h.satAt (lt_size_of_satAt hk) p).trans hk

/-- The same for one character. -/
theorem isAt_of (h : b.Holds i t) {ch : Char} (hk : t.isAt k ch = true) :
    b.isAt (i + k) ch = true :=
  h.satAt_of hk

theorem isAt_head (h : b.Holds i t) {ch : Char} (hk : t.isAt 0 ch = true) : b.isAt i ch = true :=
  h.satAt_of hk

theorem satAt_head (h : b.Holds i t) (hk : t.satAt 0 p = true) : b.satAt i p = true :=
  h.satAt_of hk

/-- A text that is not empty ends within the text that holds it. -/
theorem le_size (h : b.Holds i t) (ht : 0 < t.size) : i + t.size ≤ b.size := by
  -- the last byte of the text is a byte of `b`
  have hlast : b[i + (t.size - 1)]? = some t[t.size - 1] := by
    rw [h (t.size - 1) (by omega), Array.getElem?_eq_getElem]
  have := (Array.getElem?_eq_some_iff.mp hlast).1
  omega

/-- The text can be read off its place. The range has the length of the text, since the text ends
within `b`, and its bytes. -/
theorem slice (h : b.Holds i t) : b.slice i (i + t.size) = t := by
  have hsize : (b.slice i (i + t.size)).size = t.size := by
    rw [Bytes.slice, Array.size_extract]
    -- an empty text has no last byte to look at
    rcases Nat.eq_zero_or_pos t.size with hzero | hpos
    · omega
    · have := h.le_size hpos
      omega
  refine Array.ext_getElem? fun k => ?_
  by_cases hk : k < t.size
  · rw [getElem?_slice (by omega), h k hk]
  · rw [Array.getElem?_eq_none (by omega), Array.getElem?_eq_none (by omega)]

/-- What all bytes of the text have in common they have in their place. The offset is counted from
the start of the text. -/
theorem satAt_of_all (h : b.Holds i t) (ht : t.toList.all p = true) (hik : i ≤ k)
    (hk : k < i + t.size) : b.satAt k p = true := by
  have hlt : k - i < t.size := by omega
  have hat : t.satAt (k - i) p = true := by
    rw [Bytes.satAt, Array.getElem?_eq_getElem hlt]
    exact List.all_eq_true.mp ht _ (Array.getElem_mem_toList hlt)
  rw [← Nat.add_sub_cancel' hik]
  exact h.satAt_of hat

/-- A scan passes over the text if all of it is of the class. -/
theorem skipWhile_eq (h : b.Holds i t) (ht : t.toList.all p = true)
    (hend : b.satAt (i + t.size) p = false) : b.skipWhile p i = i + t.size :=
  Bytes.skipWhile_eq (by omega) (fun _ => h.satAt_of_all ht) hend

theorem hasAt {w : String} (h : b.Holds i (ofString w)) : b.hasAt i w = true :=
  hasAt_iff.mpr h

end Holds

/-- A class that holds fewer bytes does not hold where a larger one does not. -/
theorem satAt_eq_false_of_imp {q : Byte → Bool} (h : b.satAt i q = false)
    (hpq : ∀ c, p c = true → q c = true) : b.satAt i p = false := by
  cases hp : b.satAt i p with
  | false => rfl
  | true => exact (satAt_mono hp hpq).symm.trans h

/-- None of some characters stands where none of more characters does. -/
theorem not_among_of_subset {chars signs : List Char} (h : b.satAt i (·.among signs) = false)
    (hsub : chars.all signs.contains = true) : b.satAt i (·.among chars) = false :=
  satAt_eq_false_of_imp h fun c hc => by
    obtain ⟨ch, hch, hat⟩ := List.any_eq_true.mp hc
    have hmem := List.contains_iff_mem.mp (List.all_eq_true.mp hsub ch hch)
    exact List.any_eq_true.mpr ⟨ch, hmem, hat⟩

/-- A byte among some characters is one of them. -/
theorem exists_isAt_of_among {chars : List Char} (h : b.satAt i (·.among chars) = true) :
    ∃ ch ∈ chars, b.isAt i ch = true := by
  obtain ⟨c, hc, hmem⟩ : ∃ c, b[i]? = some c ∧ c.among chars = true := by
    simpa [satAt, Option.any_eq_true] using h
  obtain ⟨ch, hch, his⟩ := List.any_eq_true.mp hmem
  exact ⟨ch, hch, by rw [isAt, hc]; exact his⟩

/-- A byte that is known by name is known. -/
theorem getElem?_of_isAt {ch : Char} (h : b.isAt i ch = true) : b[i]? = some (Byte.ofChar ch) := by
  cases hc : b[i]? with
  | none => simp [isAt, hc] at h
  | some c =>
    have his : c.is ch = true := by simpa [isAt, hc] using h
    have heq := Byte.apply_of_is his (· == Byte.ofChar ch)
    rw [beq_self_eq_true, beq_iff_eq] at heq
    rw [heq]

/-! ### Where backward scans end -/

/-- A run that nothing goes on with before it starts there. By induction on its end. -/
theorem runStart_of_run (hij : i ≤ j) (hrun : ∀ k, i ≤ k → k < j → b.satAt k p = true)
    (hbefore : i = 0 ∨ b.satAt (i - 1) p = false) : b.runStart p j = i := by
  induction j with
  | zero => rw [runStart, Nat.le_zero.mp hij]
  | succ n ih =>
    rcases Nat.lt_or_eq_of_le hij with hlt | heq
    · rw [runStart, if_pos (hrun n (by omega) (by omega))]
      exact ih (by omega) fun k hk hkn => hrun k hk (by omega)
    · subst heq
      rw [runStart, if_neg]
      simpa using hbefore

/-- All bytes of a run are of its class. By induction on its end. -/
theorem satAt_of_runStart_le (hk : b.runStart p j ≤ k) (hkj : k < j) : b.satAt k p = true := by
  induction j with
  | zero => omega
  | succ n ih =>
    rw [runStart] at hk
    -- the run goes on, or it is over
    split at hk
    · rename_i hn
      rcases Nat.lt_or_eq_of_le (Nat.le_of_lt_succ hkj) with hlt | rfl
      · exact ih hk hlt
      · exact hn
    · omega

/-- Ink with nothing but whitespace behind it is the last ink. -/
theorem lastInk_of_ink (hki : k < i) (hink : b.satAt k (fun c => !c.isSpace) = true)
    (hspace : ∀ m, k < m → m < i → b.satAt m Byte.isSpace = true) : b.lastInk i = some k :=
  lastBelow_of_last hki hink fun m hm hmi => by
    have hm := hspace m hm hmi
    rw [satAt_not (lt_size_of_satAt hm), hm]
    rfl

/-- An end with ink before it is not moved. -/
theorem trimEnd_of_ink (hstart : i < j) (hink : b.satAt (j - 1) Byte.isSpace = false) :
    b.trimEnd i j = j := by
  obtain ⟨n, rfl⟩ : ∃ n, j = n + 1 := ⟨j - 1, by omega⟩
  rw [Nat.add_sub_cancel] at hink
  rw [trimEnd, hink, Bool.and_false, if_neg (by simp)]

/-- An end is moved over the whitespace before it. By induction on the end. -/
theorem trimEnd_of_space {start : Nat} (hstart : start ≤ i) (hij : i ≤ j)
    (hspace : ∀ k, i ≤ k → k < j → b.satAt k Byte.isSpace = true) :
    b.trimEnd start j = b.trimEnd start i := by
  induction j with
  | zero => rw [Nat.le_zero.mp hij]
  | succ n ih =>
    rcases Nat.lt_or_eq_of_le hij with hlt | rfl
    · rw [trimEnd, hspace n (by omega) (by omega), decide_eq_true (by omega : start < n + 1)]
      exact ih (by omega) fun k hk hkn => hspace k hk (by omega)
    · rfl

end Bytes

/-! ### Backward over code and comments -/

section ScanBack

variable {σ α : Type} {b t : Bytes} {visit : σ → Nat → Visit σ α} {s : σ} {i j k : Nat}

theorem not_closesComment (h : b.isAt k '/' = false) : closesComment b k = false := by
  rw [closesComment, h, Bool.false_and]

/-- A scan goes on over bytes that it does not stop at and that end no comment. By induction on the
offset that the scan starts from; the state does not change. -/
theorem scanBack_of_go (hij : i ≤ j) (hslash : ∀ k, i ≤ k → k < j → b.isAt k '/' = false)
    (hgo : ∀ k, i ≤ k → k < j → visit s k = .go s) :
    scanBack b visit s j = scanBack b visit s i := by
  induction j with
  | zero => rw [Nat.le_zero.mp hij]
  | succ n ih =>
    rcases Nat.lt_or_eq_of_le hij with hlt | heq
    · rw [scanBack_succ, not_closesComment (hslash n (by omega) (by omega)), if_neg (by simp),
        hgo n (by omega) (by omega)]
      exact ih (by omega) (fun k hk hkn => hslash k hk (by omega)) fun k hk hkn =>
        hgo k hk (by omega)
    · rw [← heq]

theorem scanBack_of_halt {a : α} (hslash : b.isAt k '/' = false) (h : visit s k = .halt a) :
    scanBack b visit s (k + 1) = some a := by
  rw [scanBack_succ, not_closesComment hslash, if_neg (by simp), h]

/-- A step of a scan into another state. -/
theorem scanBack_of_visit {s' : σ} (hslash : b.isAt k '/' = false) (h : visit s k = .go s') :
    scanBack b visit s (k + 1) = scanBack b visit s' k := by
  rw [scanBack_succ, not_closesComment hslash, if_neg (by simp), h]

/-- A byte that is no bracket is looked at by a scan that lies in no group. The class of the byte
tells that it is none of the six brackets. -/
theorem visitOutside_zero {α : Type} {b : Bytes} {opened : Nat → α} {outside : Nat → Visit Nat α}
    {k : Nat} {p : Byte → Bool} (h : b.satAt k p = true)
    (hp : ['(', '[', '{', ')', ']', '}'].all (fun ch => !p (Byte.ofChar ch)) = true) :
    visitOutside b opened outside 0 k = outside k := by
  have hexcludes := Bytes.satAt_eq_false h (Byte.excludes_among hp)
  have hopener : b.satAt k Byte.isOpener = false :=
    Bytes.satAt_eq_false_of_imp hexcludes fun c hc => by
      simpa [Byte.among, Byte.isOpener, or_assoc] using Or.inl hc
  have hcloser : b.satAt k Byte.isCloser = false :=
    Bytes.satAt_eq_false_of_imp hexcludes fun c hc => by
      simp_all [Byte.among, Byte.isCloser]
  rw [visitOutside, hopener, hcloser]
  rfl

/-- A text without slashes ends no comment. By induction on the bytes: a closing mark would need a
slash. -/
private theorem breakClosers_of_noSlash {cs : List Byte} (h : ∀ c ∈ cs, c.is '/' = false) :
    breakClosers cs = cs := by
  induction cs with
  | nil => rfl
  | cons c rest ih =>
    have hrest : ∀ c ∈ rest, c.is '/' = false := fun c hc => h c (List.mem_cons_of_mem _ hc)
    have hhead : rest.head?.any (·.is '/') = false := by
      cases rest with
      | nil => rfl
      | cons d _ => exact hrest d List.mem_cons_self
    rw [breakClosers, hhead, Bool.and_false, if_neg (by simp), ih hrest]

/-- A character that no byte of a text is stands nowhere in it. -/
theorem Bytes.not_isAt_of_all {ch : Char} (h : t.toList.all (fun c => !c.is ch) = true) (k : Nat) :
    t.isAt k ch = false := by
  rw [isAt]
  cases hk : t[k]? with
  | none => rfl
  | some c =>
    obtain ⟨hlt, rfl⟩ := Array.getElem?_eq_some_iff.mp hk
    simpa using List.all_eq_true.mp h _ (Array.getElem_mem_toList hlt)

/-- The same the other way round, for the bytes of the text as a list. -/
private theorem Bytes.mem_noSlash (h : ∀ k, t.isAt k '/' = false) :
    ∀ c ∈ t.toList, c.is '/' = false := by
  intro c hc
  obtain ⟨k, hk, rfl⟩ := List.getElem_of_mem hc
  have hat := h k
  rw [isAt, Array.getElem?_eq_getElem (by simpa using hk)] at hat
  simpa using hat

/-- **A text without slashes is commented out as it stands**, between the two marks. -/
theorem Bytes.commentOut_of_noSlash (h : ∀ k, t.isAt k '/' = false) :
    t.commentOut = ofString "/*" ++ t ++ ofString "*/" := by
  rw [commentOut, breakClosers_of_noSlash (mem_noSlash h)]

/-- **A scan passes over a comment** that was put in place of a text without slashes. The start that
the scan finds is the one of the whole comment. -/
theorem scanBack_commentOut (h : b.Holds i t.commentOut) (hslash : ∀ k, t.isAt k '/' = false) :
    scanBack b visit s (i + t.commentOut.size) = scanBack b visit s i := by
  obtain ⟨start, hstart, -, hwhole⟩ := exists_commentStart h
  -- without a slash the text opens no comment of its own
  obtain rfl := hwhole.mpr (Bytes.not_opensComment_of_noSlash hslash)
  exact scanBack_of_commentStart h hstart visit s

/-- Code that ends with a byte of its own ends there. -/
theorem lastCode_of_ink (hspace : b.satAt k Byte.isSpace = false) (hslash : b.isAt k '/' = false) :
    lastCode b (k + 1) = some k :=
  scanBack_of_halt hslash (by simp [hspace])

/-- Whitespace is no code. -/
theorem lastCode_of_space (hij : i ≤ j)
    (h : ∀ k, i ≤ k → k < j → b.satAt k Byte.isSpace = true) : lastCode b j = lastCode b i :=
  scanBack_of_go hij
    (fun k hk hkj => Bytes.isAt_eq_false (h k hk hkj) rfl)
    (fun k hk hkj => by rw [h k hk hkj]; rfl)

end ScanBack

/-! ### Names -/

/-- **A run of name bytes is a name** if it starts as one and nothing goes on with it before. The
digits that are left off at its start are none. -/
theorem nameStart_of_run {b : Bytes} {i j : Nat} (hij : i ≤ j)
    (hstart : b.satAt i Byte.isNameStart = true)
    (hrun : ∀ k, i ≤ k → k < j → b.satAt k Byte.isNamePart = true)
    (hbefore : i = 0 ∨ b.satAt (i - 1) Byte.isNamePart = false) : nameStart b j = i := by
  -- a name starts with no digit
  have hdigit : b.skipWhile Byte.isDigit i = i := by
    refine Bytes.skipWhile_eq (Nat.le_refl i) (fun k hk hki => by omega) ?_
    refine Bytes.satAt_eq_false hstart fun c hc => ?_
    cases hdigit : c.isDigit with
    | false => rfl
    | true => simp [Byte.isNameStart_of_isDigit hdigit] at hc
  rw [nameStart, Bytes.runStart_of_run hij hrun hbefore, hdigit]
  omega

/-- A name with its bytes. -/
structure Ident where
  bytes : Bytes
  head : bytes.satAt 0 Byte.isNameStart = true
  parts : bytes.toList.all Byte.isNamePart = true

/-- No name and no dot ends right before offset `i`, so that a word can start there. -/
def Bytes.ApartAt (b : Bytes) (i : Nat) : Prop :=
  i = 0 ∨ b.satAt (i - 1) (fun c => c.isNamePart || c.is '.') = false

namespace Ident

variable {b : Bytes} {x : Ident} {i k : Nat} {w : String}

theorem size_pos (x : Ident) : 0 < x.bytes.size :=
  Bytes.lt_size_of_satAt x.head

theorem isNameStart (h : b.Holds i x.bytes) : b.satAt i Byte.isNameStart = true :=
  h.satAt_head x.head

theorem isNamePart (h : b.Holds i x.bytes) (hik : i ≤ k) (hk : k < i + x.bytes.size) :
    b.satAt k Byte.isNamePart = true :=
  h.satAt_of_all x.parts hik hk

theorem nameStop_eq (h : b.Holds i x.bytes)
    (hend : b.satAt (i + x.bytes.size) Byte.isNamePart = false) :
    nameStop b i = i + x.bytes.size := by
  rw [nameStop, if_pos (isNameStart h)]
  exact Bytes.skipWhile_eq (by omega) (fun k hk hkj => isNamePart h hk hkj) hend

/-- A name reaches back to where it starts, also behind a dot. -/
theorem nameStart_of_before (h : b.Holds i x.bytes)
    (hbefore : i = 0 ∨ b.satAt (i - 1) Byte.isNamePart = false) :
    nameStart b (i + x.bytes.size) = i :=
  nameStart_of_run (Nat.le_add_right _ _) (isNameStart h) (fun _ hk hkj => isNamePart h hk hkj)
    hbefore

theorem nameStart_eq (h : b.Holds i x.bytes) (hapart : b.ApartAt i) :
    nameStart b (i + x.bytes.size) = i :=
  nameStart_of_before h <| hapart.imp_right fun hbefore =>
    Bytes.satAt_eq_false_of_imp hbefore fun c hc => by rw [hc]; rfl

/-- The word before the end of a name is that name. -/
theorem wordBefore_eq (h : b.Holds i x.bytes) (hapart : b.ApartAt i) (words : List String) :
    wordBefore b (i + x.bytes.size) words = words.any fun w => Bytes.ofString w == x.bytes := by
  rw [wordBefore, nameStart_eq h hapart, h.slice]

theorem wordAt_eq (h : b.Holds i x.bytes)
    (hend : b.satAt (i + x.bytes.size) Byte.isNamePart = false) (words : List String) :
    wordAt b i words = words.any fun w => Bytes.ofString w == x.bytes := by
  rw [wordAt, nameStop_eq h hend, h.slice]

/-- Within a name no word starts. The byte before would be one of the name. -/
theorem not_keywordAt (h : b.Holds i x.bytes) (hik : i < k) (hk : k < i + x.bytes.size) :
    keywordAt b k w = false := by
  have hpart : b.satAt (k - 1) (fun c => c.isNamePart || c.is '.') = true :=
    Bytes.satAt_mono (isNamePart h (by omega) (by omega)) fun c hc => by rw [hc]; rfl
  rw [keywordAt, hpart, decide_eq_true (by omega : 0 < k)]
  simp

/-- A name is the keyword that stands in its place. Both end where no byte of a name follows, so
they have the same length, and the same bytes. -/
theorem eq_of_keywordAt (h : b.Holds i x.bytes)
    (hend : b.satAt (i + x.bytes.size) Byte.isNamePart = false) (hat : keywordAt b i w = true)
    (hw : (Bytes.ofString w).toList.all Byte.isNamePart = true) : x.bytes = Bytes.ofString w := by
  simp only [keywordAt, Bool.and_eq_true, Bool.not_eq_true'] at hat
  obtain ⟨⟨hhas, -⟩, hstop⟩ := hat
  have hsize : x.bytes.size = (Bytes.ofString w).size := by
    -- the shorter of the two would be followed by a byte of the other
    rcases Nat.lt_trichotomy x.bytes.size (Bytes.ofString w).size with hlt | heq | hgt
    · rw [Bytes.satAt_of_hasAt hhas hlt hw] at hend
      simp at hend
    · exact heq
    · rw [isNamePart h (by omega) (by omega)] at hstop
      simp at hstop
  refine Array.ext_getElem? fun k => ?_
  by_cases hk : k < x.bytes.size
  · rw [← h k hk, Bytes.getElem?_of_hasAt hhas (by omega)]
  · rw [Array.getElem?_eq_none (by omega), Array.getElem?_eq_none (by omega)]

/-- **A keyword stands in the place of a name if and only if the name is the keyword.** -/
theorem keywordAt_eq (h : b.Holds i x.bytes) (hapart : b.ApartAt i)
    (hend : b.satAt (i + x.bytes.size) Byte.isNamePart = false)
    (hw : (Bytes.ofString w).toList.all Byte.isNamePart = true) :
    keywordAt b i w = decide (x.bytes = Bytes.ofString w) := by
  rw [Bool.eq_iff_iff, decide_eq_true_eq]
  refine ⟨fun hat => eq_of_keywordAt h hend hat hw, fun hx => ?_⟩
  rw [hx] at h hend
  have hbefore : (decide (0 < i) && b.satAt (i - 1) fun c => c.isNamePart || c.is '.') = false := by
    rcases hapart with hzero | hbefore
    · rw [hzero]
      rfl
    · rw [hbefore, Bool.and_false]
  rw [keywordAt, h.hasAt, hbefore, hend]
  rfl

/-! ### Headers -/

/-- The code that ends with a name ends with its last byte. That byte is neither whitespace nor the
end of a comment. -/
theorem lastCode_eq (h : b.Holds i x.bytes) :
    lastCode b (i + x.bytes.size) = some (i + x.bytes.size - 1) := by
  have hpos := x.size_pos
  have hpart : b.satAt (i + x.bytes.size - 1) Byte.isNamePart = true :=
    isNamePart h (by omega) (by omega)
  have hcode := lastCode_of_ink (Bytes.satAt_eq_false hpart (Byte.excludes_isSpace rfl))
    (Bytes.isAt_eq_false hpart rfl)
  rwa [Nat.sub_add_cancel (by omega)] at hcode

/-- Code that ends with a name is the header of a class if the name is `class`, or if what stands
before it is one. The name is the last part of the header, and what stands before it is read
next. -/
theorem endsClassHeader_eq (h : b.Holds i x.bytes) (hapart : b.ApartAt i)
    (hlast : lastCode b k = some (i + x.bytes.size - 1)) :
    endsClassHeader b k = (keywordAt b i "class" || endsClassHeader b i) := by
  have hpos := x.size_pos
  have hpart : b.satAt (i + x.bytes.size - 1) Byte.isNamePart = true :=
    isNamePart h (by omega) (by omega)
  -- the name is a part of the header on its own
  have hstart : headerPartStart b (i + x.bytes.size - 1) = some i := by
    rw [headerPartStart, if_pos hpart, Nat.sub_add_cancel (by omega), nameStart_eq h hapart]
    exact if_neg (by omega)
  rw [Alike.endsClassHeader_eq_match, hlast]
  simp only [hstart, hpart, Bool.true_and]

end Ident

theorem not_endsClassHeader_zero (b : Bytes) : endsClassHeader b 0 = false := by
  rw [Alike.endsClassHeader_eq_match, lastCode, scanBack]

end TypeErasure
