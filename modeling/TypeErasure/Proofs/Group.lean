import TypeErasure.Token

/-!
# Groups of tokens

`groupEnd` counts brackets from an opening one on, each call from its own start, without regard to
their shapes and past the heads of arrows. For all that the counts agree with each other: a count
that is `d + e` deep has to be brought down by `d` before the other `e` are closed
(`groupEndFrom_add`), so the group of an inner bracket is over before that of an outer one is.

Main statement: two groups of which the first one closes are either apart, or one lies within the
other (`groups_nest`).
-/

namespace TypeErasure

variable {tokens : Array Token}

/-- The token at index `i` opens a group. -/
def OpensGroup (tokens : Array Token) (i : Nat) : Prop :=
  ∃ t shape, tokens[i]? = some t ∧ t.kind = .opening shape

theorem OpensGroup.lt_size {i : Nat} (h : OpensGroup tokens i) : i < tokens.size := by
  obtain ⟨t, -, ht, -⟩ := h
  exact (Array.getElem?_eq_some_iff.mp ht).1

/-! ### One token -/

section Step

variable {i : Nat} {t : Token} (ht : tokens[i]? = some t)

include ht

theorem groupEndFrom_of_opening {shape : Bracket} (hkind : t.kind = .opening shape) (d : Nat) :
    groupEndFrom tokens d i = groupEndFrom tokens (d + 1) (i + 1) := by
  obtain ⟨hi, rfl⟩ := Array.getElem?_eq_some_iff.mp ht
  rw [groupEndFrom, dif_pos hi]
  simp only [hkind]

/-- A closing bracket ends the count or is taken off it, unless it is the head of an arrow. -/
theorem groupEndFrom_of_closing {shape : Bracket} (hkind : t.kind = .closing shape) (d : Nat) :
    groupEndFrom tokens d i =
      if isArrowHead tokens i then groupEndFrom tokens d (i + 1)
      else if d ≤ 1 then i else groupEndFrom tokens (d - 1) (i + 1) := by
  obtain ⟨hi, rfl⟩ := Array.getElem?_eq_some_iff.mp ht
  rw [groupEndFrom, dif_pos hi]
  simp only [hkind]

/-- Any other token is passed over. -/
theorem groupEndFrom_of_other (hopen : ∀ shape, t.kind ≠ .opening shape)
    (hclose : ∀ shape, t.kind ≠ .closing shape) (d : Nat) :
    groupEndFrom tokens d i = groupEndFrom tokens d (i + 1) := by
  obtain ⟨hi, rfl⟩ := Array.getElem?_eq_some_iff.mp ht
  rw [groupEndFrom, dif_pos hi]
  split
  · rename_i shape hkind
    exact absurd hkind (hopen shape)
  · rename_i shape hkind
    exact absurd hkind (hclose shape)
  · rfl

end Step

/-- **What one token does to the count**: it opens a group, it closes one, or it is passed over. One
case for each kind of token. All that follows goes by these three. -/
theorem groupEndFrom_cases {i : Nat} (hi : i < tokens.size) :
    (OpensGroup tokens i ∧
        ∀ d, groupEndFrom tokens d i = groupEndFrom tokens (d + 1) (i + 1)) ∨
      (¬ OpensGroup tokens i ∧
        ∀ d, groupEndFrom tokens d i =
          if d ≤ 1 then i else groupEndFrom tokens (d - 1) (i + 1)) ∨
      (¬ OpensGroup tokens i ∧
        ∀ d, groupEndFrom tokens d i = groupEndFrom tokens d (i + 1)) := by
  have ht : tokens[i]? = some tokens[i] := Array.getElem?_eq_getElem hi
  have hnot (h : ∀ shape, tokens[i].kind ≠ .opening shape) : ¬ OpensGroup tokens i := by
    rintro ⟨t, shape, ht', hkind⟩
    obtain rfl := Option.some.inj (ht.symm.trans ht')
    exact h shape hkind
  cases hkind : tokens[i].kind with
  | opening shape => exact .inl ⟨⟨_, shape, ht, hkind⟩, groupEndFrom_of_opening ht hkind⟩
  | closing shape =>
    have hstep := groupEndFrom_of_closing ht hkind
    have hopen := hnot (by simp [hkind])
    -- the head of an arrow closes nothing
    cases harrow : isArrowHead tokens i with
    | false =>
      simp only [harrow, Bool.false_eq_true, if_false] at hstep
      exact .inr (.inl ⟨hopen, hstep⟩)
    | true =>
      simp only [harrow, if_true] at hstep
      exact .inr (.inr ⟨hopen, hstep⟩)
  | _ =>
    exact .inr (.inr ⟨hnot (by simp [hkind]),
      groupEndFrom_of_other ht (by simp [hkind]) (by simp [hkind])⟩)

theorem groupEndFrom_of_size_le {d i : Nat} (hi : tokens.size ≤ i) :
    groupEndFrom tokens d i = tokens.size := by
  rw [groupEndFrom, dif_neg (by omega)]

/-- A group is counted from the token behind its bracket on. -/
theorem OpensGroup.groupEnd_eq {i : Nat} (h : OpensGroup tokens i) :
    groupEnd tokens i = groupEndFrom tokens 1 (i + 1) := by
  rcases groupEndFrom_cases h.lt_size with ⟨-, hstep⟩ | ⟨hnot, -⟩ | ⟨hnot, -⟩
  · exact hstep 0
  · exact absurd h hnot
  · exact absurd h hnot

/-! ### The count -/

/-- The end of a count is a token or the end of all tokens. The recursion is that of the count. -/
theorem groupEndFrom_le_size (d i : Nat) : groupEndFrom tokens d i ≤ tokens.size := by
  by_cases hi : i < tokens.size
  · rcases groupEndFrom_cases hi with ⟨-, hstep⟩ | ⟨-, hstep⟩ | ⟨-, hstep⟩ <;> rw [hstep]
    · exact groupEndFrom_le_size (d + 1) (i + 1)
    · split
      · exact Nat.le_of_lt hi
      · exact groupEndFrom_le_size (d - 1) (i + 1)
    · exact groupEndFrom_le_size d (i + 1)
  · exact Nat.le_of_eq (groupEndFrom_of_size_le (by omega))
termination_by tokens.size - i

/-- A count does not end before it starts. -/
private theorem le_groupEndFrom {d i : Nat} (hi : i ≤ tokens.size) :
    i ≤ groupEndFrom tokens d i := by
  rcases Nat.lt_or_eq_of_le hi with hlt | rfl
  · have hnext (e : Nat) : i ≤ groupEndFrom tokens e (i + 1) :=
      Nat.le_of_lt (le_groupEndFrom hlt)
    rcases groupEndFrom_cases hlt with ⟨-, hstep⟩ | ⟨-, hstep⟩ | ⟨-, hstep⟩ <;> rw [hstep]
    · exact hnext _
    · split
      · exact Nat.le_refl i
      · exact hnext _
    · exact hnext _
  · exact Nat.le_of_eq (groupEndFrom_of_size_le (Nat.le_refl _)).symm
termination_by tokens.size - i

/-- A count does not end with a bracket that opens. The recursion is that of the count. -/
private theorem not_opensGroup_groupEndFrom (d i : Nat) :
    ¬ OpensGroup tokens (groupEndFrom tokens d i) := by
  by_cases hi : i < tokens.size
  · rcases groupEndFrom_cases hi with ⟨-, hstep⟩ | ⟨hnot, hstep⟩ | ⟨-, hstep⟩ <;> rw [hstep]
    · exact not_opensGroup_groupEndFrom (d + 1) (i + 1)
    · split
      · exact hnot
      · exact not_opensGroup_groupEndFrom (d - 1) (i + 1)
    · exact not_opensGroup_groupEndFrom d (i + 1)
  · rw [groupEndFrom_of_size_le (by omega)]
    exact fun hopens => Nat.lt_irrefl _ hopens.lt_size
termination_by tokens.size - i

/-- **A count from `d + e` down** is a count from `d` down and, behind its end, one from `e` down.
The recursion is that of the count: the first bracket that brings it below `e + 1` is the end of the
first. -/
theorem groupEndFrom_add {d e : Nat} (i : Nat) (hd : 0 < d) (he : 0 < e) :
    groupEndFrom tokens (d + e) i =
      if groupEndFrom tokens d i < tokens.size then
        groupEndFrom tokens e (groupEndFrom tokens d i + 1)
      else tokens.size := by
  by_cases hi : i < tokens.size
  · rcases groupEndFrom_cases hi with ⟨-, hstep⟩ | ⟨-, hstep⟩ | ⟨-, hstep⟩
    · rw [hstep, hstep d, Nat.add_right_comm]
      exact groupEndFrom_add (i + 1) (Nat.succ_pos d) he
    · rw [hstep, hstep d, if_neg (show ¬ d + e ≤ 1 by omega)]
      by_cases hone : d = 1
      · -- this bracket ends the first count, and the second one goes on behind it
        subst hone
        rw [if_pos (Nat.le_refl 1), if_pos hi, Nat.add_sub_cancel_left]
      · -- the bracket closes a group that the first count has open
        rw [if_neg (show ¬ d ≤ 1 by omega), show d + e - 1 = d - 1 + e by omega]
        exact groupEndFrom_add (i + 1) (by omega) he
    · rw [hstep, hstep d]
      exact groupEndFrom_add (i + 1) hd he
  · rw [groupEndFrom_of_size_le (by omega), groupEndFrom_of_size_le (by omega),
      if_neg (Nat.lt_irrefl _)]
termination_by tokens.size - i

/-- **A count that has not ended before `j` goes on from there**, with some groups open. The
recursion goes from `i` to `j`. -/
theorem exists_groupEndFrom_eq {d i j : Nat} (hd : 0 < d) (hij : i ≤ j)
    (hj : j < groupEndFrom tokens d i) :
    ∃ e, 0 < e ∧ groupEndFrom tokens d i = groupEndFrom tokens e j := by
  rcases Nat.lt_or_eq_of_le hij with hlt | rfl
  · have hi : i < tokens.size := by
      have hle : groupEndFrom tokens d i ≤ tokens.size := groupEndFrom_le_size d i
      omega
    rcases groupEndFrom_cases hi with ⟨-, hstep⟩ | ⟨-, hstep⟩ | ⟨-, hstep⟩ <;> rw [hstep] at hj ⊢
    · exact exists_groupEndFrom_eq (Nat.succ_pos d) hlt hj
    · -- the count would have ended here
      split at hj
      · omega
      · rename_i hdeep
        rw [if_neg hdeep]
        exact exists_groupEndFrom_eq (by omega) hlt hj
    · exact exists_groupEndFrom_eq hd hlt hj
  · exact ⟨d, hd, rfl⟩
termination_by j - i

/-! ### Groups -/

/-- A group is not over before it starts. -/
private theorem OpensGroup.lt_groupEnd {i : Nat} (h : OpensGroup tokens i) :
    i < groupEnd tokens i := by
  rw [h.groupEnd_eq]
  exact le_groupEndFrom h.lt_size

/-- **A group that opens within a closed one closes within it.** At the inner bracket the count of
the outer group is some `e` deep, and with that bracket `1 + e`; so it goes on behind the end of the
inner group (`groupEndFrom_add`). -/
theorem OpensGroup.groupEnd_lt {i j : Nat} (hi : OpensGroup tokens i) (hj : OpensGroup tokens j)
    (hij : i < j) (hinner : j < groupEnd tokens i) (hclosed : groupEnd tokens i < tokens.size) :
    groupEnd tokens j < groupEnd tokens i := by
  rw [hi.groupEnd_eq] at hinner hclosed ⊢
  obtain ⟨e, he, hgo⟩ := exists_groupEndFrom_eq Nat.one_pos hij hinner
  -- at the inner bracket `e` groups are open, and it opens one more
  have hsplit : groupEndFrom tokens e j =
      if groupEnd tokens j < tokens.size then groupEndFrom tokens e (groupEnd tokens j + 1)
      else tokens.size := by
    rcases groupEndFrom_cases hj.lt_size with ⟨-, hstep⟩ | ⟨hnot, -⟩ | ⟨hnot, -⟩
    · rw [hstep, Nat.add_comm, groupEndFrom_add (j + 1) Nat.one_pos he, hj.groupEnd_eq]
    · exact absurd hj hnot
    · exact absurd hj hnot
  rw [hgo, hsplit] at hclosed ⊢
  split at hclosed
  · rename_i hlt
    rw [if_pos hlt]
    exact le_groupEndFrom hlt
  · -- if the inner group were never closed, the outer one would not be either
    omega

/-- **Groups nest.** Of two groups of which the first one closes, the second one starts behind the
first or closes within it. So two groups never end with the same token, and a group within a closed
one is closed. -/
theorem groups_nest (tokens : Array Token) :
    (∀ i j, OpensGroup tokens i → OpensGroup tokens j → i < j →
      groupEnd tokens i < tokens.size →
        groupEnd tokens i < j ∨ j < groupEnd tokens j ∧ groupEnd tokens j < groupEnd tokens i) ∧
      (∀ i j, OpensGroup tokens i → OpensGroup tokens j → groupEnd tokens i < tokens.size →
        groupEnd tokens i = groupEnd tokens j → i = j) ∧
      ∀ i j, OpensGroup tokens i → OpensGroup tokens j → i < j → j < groupEnd tokens i →
        groupEnd tokens i < tokens.size → groupEnd tokens j < tokens.size := by
  have hnest (i j : Nat) (hi : OpensGroup tokens i) (hj : OpensGroup tokens j) (hij : i < j)
      (hclosed : groupEnd tokens i < tokens.size) :
      groupEnd tokens i < j ∨ j < groupEnd tokens j ∧ groupEnd tokens j < groupEnd tokens i := by
    rcases Nat.lt_trichotomy (groupEnd tokens i) j with hlt | heq | hgt
    · exact .inl hlt
    · -- a count does not end with a bracket that opens
      exact absurd hj (heq ▸ not_opensGroup_groupEndFrom 0 i)
    · exact .inr ⟨hj.lt_groupEnd, hi.groupEnd_lt hj hij hgt hclosed⟩
  refine ⟨hnest, fun i j hi hj hclosed hsame => ?_, fun i j hi hj hij hinner hclosed => ?_⟩
  · -- two groups with one end cannot lie apart, nor one in the other
    rcases Nat.lt_trichotomy i j with hij | rfl | hji
    · rcases hnest i j hi hj hij hclosed with hlt | ⟨-, hlt⟩
      · have := hj.lt_groupEnd
        omega
      · omega
    · rfl
    · rcases hnest j i hj hi hji (hsame ▸ hclosed) with hlt | ⟨-, hlt⟩
      · have := hi.lt_groupEnd
        omega
      · omega
  · exact Nat.lt_trans (hi.groupEnd_lt hj hij hinner hclosed) hclosed

/-- Brackets of different shapes around an arrow, before one that is never closed. -/
theorem groups_nest_shapes :
    let tokens := tokenize (.ofString "(a = <b => c]) [")
    OpensGroup tokens 0 ∧ OpensGroup tokens 3 ∧ groupEnd tokens 0 = 9 ∧ 9 < tokens.size ∧
      (groupEnd tokens 0 < 3 ∨
        3 < groupEnd tokens 3 ∧ groupEnd tokens 3 < groupEnd tokens 0) ∧
      groupEnd tokens 3 = 8 := by
  intro tokens
  have hfst : OpensGroup tokens 0 := ⟨⟨.opening .round, ⟨0, 1⟩, .ofString "("⟩, .round, by
    decide +kernel, rfl⟩
  have hsnd : OpensGroup tokens 3 := ⟨⟨.opening .angle, ⟨5, 6⟩, .ofString "<"⟩, .angle, by
    decide +kernel, rfl⟩
  have hclosed : groupEnd tokens 0 = 9 ∧ 9 < tokens.size ∧ groupEnd tokens 3 = 8 := by
    decide +kernel
  exact ⟨hfst, hsnd, hclosed.1, hclosed.2.1,
    (groups_nest tokens).1 0 3 hfst hsnd (by decide) (hclosed.1 ▸ hclosed.2.1), hclosed.2.2⟩

end TypeErasure
