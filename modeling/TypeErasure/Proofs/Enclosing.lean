import Mathlib.Algebra.BigOperators.Intervals
import TypeErasure.Proofs.Placed
import TypeErasure.Proofs.Search

/-!
# Matching brackets forward and backward

From behind an opening bracket, `findClose` runs forward to the bracket that closes the group. From
a closing bracket, `enclosingOpen` runs backward to the one that opens it, within the statement. The
two count in opposite directions and know nothing of each other.

`bracketSum b i j` is the number of brackets that open between two offsets, less the number of those
that close there. In a text without literals both searches can be read off such sums: the forward
search needs the sums from its start on to be zero or more (`findClose_eq_iff`), the backward search
needs the sums up to its start to be zero or less (`Encloses`, `enclosingOpen_eq_some_iff`).

Main statement: where the sum of the whole is zero these are the same, so that one search undoes the
other (`findClose_eq_iff_enclosingOpen`).
-/

namespace TypeErasure

variable {b : Bytes} {i j k : Nat} {d : Int}

/-! ### Sums of brackets -/

/-- **The brackets that open from offset `i` up to `j`, less those that close there.** -/
def bracketSum (b : Bytes) (i j : Nat) : Int :=
  ∑ k ∈ Finset.Ico i j, bracketIn b .value k

private theorem bracketSum_self (b : Bytes) (i : Nat) : bracketSum b i i = 0 := by
  rw [bracketSum, Finset.Ico_self, Finset.sum_empty]

private theorem bracketSum_succ (h : i ≤ k) :
    bracketSum b i (k + 1) = bracketSum b i k + bracketIn b .value k :=
  Finset.sum_Ico_succ_top h _

private theorem bracketSum_add (hij : i ≤ j) (hjk : j ≤ k) :
    bracketSum b i j + bracketSum b j k = bracketSum b i k :=
  Finset.sum_Ico_consecutive _ hij hjk

private theorem bracketSum_one (b : Bytes) (i : Nat) :
    bracketSum b i (i + 1) = bracketIn b .value i := by
  rw [bracketSum_succ (Nat.le_refl i), bracketSum_self, Int.zero_add]

/-- In an expression, angle brackets do not count. -/
private theorem bracketIn_value (b : Bytes) (k : Nat) :
    bracketIn b .value k =
      if b.satAt k Byte.isOpener then 1 else if b.satAt k Byte.isCloser then -1 else 0 := by
  simp [bracketIn_eq_ite, opensAt, closesAt]

private theorem bracketIn_of_isOpener (h : b.satAt k Byte.isOpener = true) :
    bracketIn b .value k = 1 := by
  rw [bracketIn_value, if_pos h]

private theorem bracketIn_of_isCloser (h : b.satAt k Byte.isCloser = true) :
    bracketIn b .value k = -1 := by
  have hopener : b.satAt k Byte.isOpener = false := Bytes.satAt_eq_false h (Byte.excludes_among rfl)
  rw [bracketIn_value, hopener, if_neg Bool.false_ne_true, if_pos h]

private theorem bracketIn_of_isAt_semicolon (h : b.isAt k ';' = true) :
    bracketIn b .value k = 0 := by
  rw [bracketIn_value, Bytes.satAt_of_isAt h, Bytes.satAt_of_isAt h]
  rfl

/-! ### Forward -/

section Forward

variable (hbare : ∀ k, b.satAt k Byte.opensInert = false)

include hbare

/-- A scan goes from byte to byte where there are no literals. -/
private theorem visitNext_of_bare (i : Nat) : visitNext b i = i + 1 := by
  rw [visitNext_eq_scanNext, scanNext_of_eq_none (inertStop_eq_none (hbare i))]

/-- A text without literals is scanned byte by byte. -/
private theorem visited_of_bare (i n : Nat) : visited b i n = i + n := by
  induction n generalizing i with
  | zero => rfl
  | succ n ih =>
    rw [visited, visitNext_of_bare hbare, ih]
    omega

/-- The depth of a scan is the sum of the brackets that it has come past. By induction on its
steps. -/
private theorem depthAt_of_bare (d : Int) (i n : Nat) :
    depthAt b .value d i n = d + bracketSum b i (i + n) := by
  induction n generalizing d i with
  | zero => rw [depthAt, Nat.add_zero, bracketSum_self, Int.add_zero]
  | succ n ih =>
    have hsplit : bracketSum b i (i + 1) + bracketSum b (i + 1) (i + 1 + n) =
        bracketSum b i (i + 1 + n) := bracketSum_add (by omega) (by omega)
    rw [depthAt, visitNext_of_bare hbare, ih, Nat.add_comm n 1, ← Nat.add_assoc, ← hsplit,
      bracketSum_one, Int.add_assoc]

/-- A scan ends at a closing bracket with nothing open before it. -/
private theorem endsAt_of_bare (i n : Nat) :
    EndsAt b .value (fun _ => false) 0 i n ↔
      i + n < b.size ∧ bracketSum b i (i + n) = 0 ∧ bracketIn b .value (i + n) = -1 := by
  rw [EndsAt, visited_of_bare hbare, depthAt_of_bare hbare, Int.zero_add]
  simp

/-- **The group that starts at offset `i` is closed at offset `j`** if the brackets between them are
balanced and none of them closes the group before. The search ends at the first place where it can
(`findStopFrom_cases`), and at each of them the sum falls below zero. -/
theorem findClose_eq_iff (hij : i ≤ j) (hclose : b.satAt j Byte.isCloser = true) :
    findClose b .value i = j ↔
      bracketSum b i j = 0 ∧ ∀ k, i ≤ k → k ≤ j → 0 ≤ bracketSum b i k := by
  have hsize := Bytes.lt_size_of_satAt hclose
  have hcases := findStopFrom_cases b .value (fun _ => false) 0 i
  rw [Int.natCast_zero] at hcases
  constructor
  · intro h
    -- the search ended at a bracket, and not with the text
    rcases hcases with ⟨n, ⟨hends, -, hdepth⟩, hn⟩ | ⟨hend, -⟩
    · obtain rfl : i + n = j := by rw [← visited_of_bare hbare, hn]; exact h
      refine ⟨((endsAt_of_bare hbare i n).mp hends).2.1, fun k hik hkj => ?_⟩
      have hnonneg := hdepth (k - i) (by omega)
      rwa [depthAt_of_bare hbare, Int.zero_add, Nat.add_sub_cancel' hik] at hnonneg
    · have : j = b.size := h.symm.trans hend
      omega
  · rintro ⟨hzero, hnonneg⟩
    have hends : EndsAt b .value (fun _ => false) 0 i (j - i) := by
      rw [endsAt_of_bare hbare, Nat.add_sub_cancel' hij]
      exact ⟨hsize, hzero, bracketIn_of_isCloser hclose⟩
    -- it ends at `j` at the latest, and nowhere before
    rcases hcases with ⟨n, ⟨hfirst, hbefore, -⟩, hn⟩ | ⟨-, hnone⟩
    · obtain ⟨-, hzero', hcloses⟩ := (endsAt_of_bare hbare i n).mp hfirst
      rw [visited_of_bare hbare] at hn
      -- behind an earlier end the sum would be negative
      have hle : n ≤ j - i := Nat.le_of_not_lt fun hlt => hbefore _ hlt hends
      have hge : ¬ i + n < j := fun hlt => by
        have hneg := hnonneg (i + n + 1) (by omega) (by omega)
        rw [bracketSum_succ (by omega), hzero', hcloses] at hneg
        omega
      have : i + n = j := by omega
      exact hn.symm.trans this
    · exact absurd hends (hnone _)

end Forward

/-! ### Backward -/

/-- **The bracket at offset `i` opens the group around offset `k`**, where `d` groups that close
behind `k` are still to be left on the way back: between the two offsets all other brackets are
matched, and no `;` ends the statement outside of them. -/
structure Encloses (b : Bytes) (d : Int) (i k : Nat) : Prop where
  opener : b.satAt i Byte.isOpener = true
  lt : i < k
  sum : bracketSum b (i + 1) k = d
  within : ∀ m, i < m → m ≤ k → bracketSum b m k ≤ d
  statement : ∀ m, i < m → m < k → b.isAt m ';' = true → bracketSum b (m + 1) k ≠ d

/-- One byte on the way back, if there the way goes on. Each condition on sums up to `k + 1` is the
one up to `k`, with the byte at `k` counted. -/
private theorem encloses_succ (hik : i < k) :
    Encloses b d i (k + 1) ↔
      0 ≤ d ∧ (b.isAt k ';' = true → d ≠ 0) ∧ Encloses b (d - bracketIn b .value k) i k := by
  -- up to `k + 1` every sum has the byte at `k` as its last term, except the empty one
  have hself := bracketSum_self b (k + 1)
  constructor
  · intro h
    refine ⟨?_, fun hat => ?_, h.opener, hik, ?_, fun m him hmk => ?_, fun m him hmk hat => ?_⟩
    · have := h.within (k + 1) (by omega) (Nat.le_refl _)
      omega
    · have := h.statement k hik (Nat.lt_succ_self k) hat
      omega
    · have := h.sum
      rw [bracketSum_succ (i := i + 1) hik] at this
      omega
    · have := h.within m him (by omega)
      rw [bracketSum_succ hmk] at this
      omega
    · have := h.statement m him (by omega) hat
      rw [bracketSum_succ (i := m + 1) hmk] at this
      omega
  · rintro ⟨hd, hsemicolon, h⟩
    refine ⟨h.opener, by omega, ?_, fun m him hmk => ?_, fun m him hmk hat => ?_⟩
    · rw [bracketSum_succ (i := i + 1) hik, h.sum]
      omega
    · rcases Nat.lt_or_eq_of_le hmk with hlt | rfl
      · have := h.within m him (by omega)
        rw [bracketSum_succ (by omega)]
        omega
      · omega
    · rcases Nat.lt_or_eq_of_le (Nat.le_of_lt_succ hmk) with hlt | rfl
      · have := h.statement m him hlt hat
        rw [bracketSum_succ (i := m + 1) hlt]
        omega
      · have := hsemicolon hat
        omega

/-- The bracket itself, if no group is left to leave. -/
private theorem encloses_succ_self :
    Encloses b d k (k + 1) ↔ b.satAt k Byte.isOpener = true ∧ d = 0 := by
  have hself := bracketSum_self b (k + 1)
  constructor
  · intro h
    exact ⟨h.opener, h.sum.symm.trans hself⟩
  · rintro ⟨hopener, rfl⟩
    refine ⟨hopener, Nat.lt_succ_self k, hself, fun m hkm hmk => ?_, fun m hkm hmk => by omega⟩
    obtain rfl : m = k + 1 := by omega
    exact Int.le_of_eq hself

/-- The way back goes on unless it has come to the bracket or to the end of the statement before. -/
private theorem encloses_succ_iff (hd : 0 ≤ d) (hopener : b.satAt k Byte.isOpener = true → d ≠ 0)
    (hsemicolon : b.isAt k ';' = true → d ≠ 0) :
    Encloses b d i (k + 1) ↔ Encloses b (d - bracketIn b .value k) i k := by
  constructor
  · intro h
    rcases Nat.lt_or_eq_of_le (Nat.le_of_lt_succ h.lt) with hik | rfl
    · exact ((encloses_succ hik).mp h).2.2
    · obtain ⟨hopen, hzero⟩ := encloses_succ_self.mp h
      exact absurd hzero (hopener hopen)
  · intro h
    exact (encloses_succ h.lt).mpr ⟨hd, hsemicolon, h⟩

/-- With no group left to leave, an opening bracket is the one that encloses the place. One further
left would have a positive sum behind it. -/
private theorem encloses_zero_iff (hopener : b.satAt k Byte.isOpener = true) :
    Encloses b 0 i (k + 1) ↔ k = i := by
  constructor
  · intro h
    rcases Nat.lt_or_eq_of_le (Nat.le_of_lt_succ h.lt) with hik | heq
    · have := h.within k hik (Nat.le_succ k)
      rw [bracketSum_one, bracketIn_of_isOpener hopener] at this
      omega
    · exact heq.symm
  · rintro rfl
    exact encloses_succ_self.mpr ⟨hopener, rfl⟩

/-- With no group left to leave, a `;` is the end of the statement before. -/
private theorem not_encloses_zero (hsemicolon : b.isAt k ';' = true) :
    ¬ Encloses b 0 i (k + 1) := by
  intro h
  rcases Nat.lt_or_eq_of_le (Nat.le_of_lt_succ h.lt) with hik | rfl
  · exact h.statement k hik (Nat.lt_succ_self k) hsemicolon (bracketSum_self b (k + 1))
  · have hopener := h.opener
    rw [Bytes.satAt_of_isAt hsemicolon] at hopener
    exact absurd hopener (by decide)

/-- **One byte of the search backward.** Outside of all groups it ends at an opening bracket and at
a `;`. Otherwise it goes on, and counts the byte against the groups that are to be left. -/
theorem visitEnclosing_cases (b : Bytes) (d k : Nat) :
    (d = 0 ∧ b.satAt k Byte.isOpener = true ∧ visitEnclosing b d k = .halt (some k)) ∨
      (d = 0 ∧ b.isAt k ';' = true ∧ visitEnclosing b d k = .halt none) ∨
      ∃ d' : Nat, visitEnclosing b d k = .go d' ∧ (d' : Int) = d - bracketIn b .value k ∧
        (b.satAt k Byte.isOpener = true → d ≠ 0) ∧ (b.isAt k ';' = true → d ≠ 0) := by
  by_cases hcloser : b.satAt k Byte.isCloser = true
  · -- one more group to leave
    have hopener : b.satAt k Byte.isOpener = false :=
      Bytes.satAt_eq_false hcloser (Byte.excludes_among rfl)
    have hsemicolon : b.isAt k ';' = false := Bytes.isAt_eq_false hcloser rfl
    refine .inr (.inr ⟨d + 1, if_pos hcloser, ?_, by simp [hopener], by simp [hsemicolon]⟩)
    rw [bracketIn_of_isCloser hcloser]
    omega
  · by_cases hopener : b.satAt k Byte.isOpener = true
    · by_cases hzero : d = 0
      · exact .inl ⟨hzero, hopener, by simp [visitEnclosing, visitOutside, hcloser, hopener, hzero]⟩
      · -- the start of a group that was entered by its closing bracket
        have hsemicolon : b.isAt k ';' = false := Bytes.isAt_eq_false hopener rfl
        refine .inr (.inr ⟨d - 1, ?_, ?_, fun _ => hzero, by simp [hsemicolon]⟩)
        · simp [visitEnclosing, visitOutside, hcloser, hopener, hzero]
        · rw [bracketIn_of_isOpener hopener]
          omega
    · -- a semicolon outside of all groups, or any other byte
      by_cases hends : d = 0 ∧ b.isAt k ';' = true
      · exact .inr (.inl ⟨hends.1, hends.2,
          by simp [visitEnclosing, visitOutside, hcloser, hopener, hends]⟩)
      · refine .inr (.inr ⟨d, ?_, ?_, fun hat => absurd hat hopener,
          fun hat hzero => hends ⟨hzero, hat⟩⟩)
        · by_cases hzero : d = 0
          · have hsemicolon : ¬ b.isAt k ';' = true := fun hat => hends ⟨hzero, hat⟩
            simp [visitEnclosing, visitOutside, hcloser, hopener, hzero, hsemicolon]
          · simp [visitEnclosing, visitOutside, hcloser, hopener, hzero]
        · rw [bracketIn_value, if_neg hopener, if_neg hcloser, Int.sub_zero]

/-- **A search backward that has entered `d` groups** finds the bracket that encloses its place. By
induction on the place, with one case for each thing that a byte can do (`visitEnclosing_cases`). -/
theorem scanBack_eq_some_iff (hslash : ∀ k, b.isAt k '/' = false) (d k : Nat) :
    (scanBack b (visitEnclosing b) d k).join = some i ↔ Encloses b d i k := by
  -- the number of groups changes from byte to byte, and with it the sum that is asked for
  induction k generalizing d with
  | zero =>
    refine ⟨fun h => ?_, fun h => absurd h.lt (Nat.not_lt_zero i)⟩
    simp [scanBack] at h
  | succ k ih =>
    rcases visitEnclosing_cases b d k with ⟨rfl, hopener, hhalt⟩ | ⟨rfl, hsemicolon, hhalt⟩ |
      ⟨d', hgo, hd', hopener, hsemicolon⟩
    · -- the bracket is found
      rw [scanBack_of_halt (hslash k) hhalt, Int.natCast_zero, encloses_zero_iff hopener,
        Option.join_some, Option.some.injEq]
    · -- the statement ends before it is
      rw [scanBack_of_halt (hslash k) hhalt]
      exact ⟨fun h => by simp at h, fun h => absurd h (not_encloses_zero hsemicolon)⟩
    · -- the search goes on, with another number of groups
      rw [scanBack_of_visit (hslash k) hgo, ih, hd', encloses_succ_iff (Int.natCast_nonneg d)
        (fun hat => Int.natCast_ne_zero.mpr (hopener hat))
        (fun hat => Int.natCast_ne_zero.mpr (hsemicolon hat))]

theorem enclosingOpen_eq_some_iff (hslash : ∀ k, b.isAt k '/' = false) (k : Nat) :
    enclosingOpen b k = some i ↔ Encloses b 0 i k :=
  scanBack_eq_some_iff hslash 0 k

/-! ### Both ways -/

/-- **One search undoes the other.** In a text without quotes, backticks and slashes, the group that
opens at offset `i` is closed at offset `j` exactly if the search backward from `j` finds `i`. The
search backward stays within a statement, so no `;` may stand directly in the group. -/
theorem findClose_eq_iff_enclosingOpen
    (hbare : ∀ k, b.satAt k (·.among ['/', '\'', '"', '`']) = false) (hij : i < j)
    (hopen : b.satAt i (·.among ['(', '[', '{']) = true)
    (hclose : b.satAt j (·.among [')', ']', '}']) = true)
    (hsemicolon : ∀ k, i < k → k < j → b.isAt k ';' = true → bracketSum b (i + 1) k ≠ 0) :
    findClose b .value (i + 1) = j ↔ enclosingOpen b j = some i := by
  have hslash (k : Nat) : b.isAt k '/' = false := by
    rw [Bool.eq_false_iff]
    intro hat
    have := hbare k
    rw [Bytes.satAt_of_isAt hat] at this
    exact absurd this (by decide)
  rw [findClose_eq_iff (i := i + 1) hbare hij hclose, enclosingOpen_eq_some_iff hslash]
  -- the sums on the two sides of an offset add up to that of the whole
  have hsplit {m : Nat} (him : i < m) (hmj : m ≤ j) :
      bracketSum b (i + 1) m + bracketSum b m j = bracketSum b (i + 1) j := bracketSum_add him hmj
  constructor
  · -- from the sums to the left of an offset to those to its right
    rintro ⟨hzero, hnonneg⟩
    refine ⟨hopen, hij, hzero, fun m him hmj => ?_, fun m him hmj hat => ?_⟩
    · have := hsplit him hmj
      have := hnonneg m him hmj
      omega
    · have hmatch := hsplit (m := m + 1) (by omega) hmj
      rw [bracketSum_succ (i := i + 1) him, bracketIn_of_isAt_semicolon hat] at hmatch
      have := hsemicolon m him hmj hat
      omega
  · -- and back
    intro h
    refine ⟨h.sum, fun k hik hkj => ?_⟩
    have := hsplit hik hkj
    have := h.within k hik hkj
    have := h.sum
    omega

/-- A group of three kinds of brackets, in which a `;` stands but not directly. -/
theorem findClose_eq_iff_enclosingOpen_mixed :
    let b := Bytes.ofString "f(x[\x7ba;b\x7d],\x7bc\x7d)"
    b.isAt 6 ';' = true ∧ findClose b .value 2 = 14 ∧ enclosingOpen b 14 = some 1 := by
  intro b
  have hbare (k : Nat) : b.satAt k (·.among ['/', '\'', '"', '`']) = false := by
    by_cases hk : k < b.size
    · have hall : ∀ k < 15, b.satAt k (·.among ['/', '\'', '"', '`']) = false := by decide
      exact hall k hk
    · exact Bytes.satAt_eq_false_of_size_le (Nat.le_of_not_lt hk)
  have hsemicolon : ∀ k < 14, 1 < k → b.isAt k ';' = true → bracketSum b 2 k ≠ 0 := by decide
  have hclose : findClose b .value 2 = 14 := by decide +kernel
  exact ⟨by decide, hclose, (findClose_eq_iff_enclosingOpen hbare (by decide) (by decide)
    (by decide) fun k hik hkj => hsemicolon k hkj hik).mp hclose⟩

end TypeErasure
