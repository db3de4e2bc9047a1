import Mathlib.Order.Bounds.Defs
import TypeErasure.Proofs.Run

/-!
# The grammar of delimited literals

Strings, templates and block comments end with a delimiter. What stands before the closing quote of
a string or template is a sequence of units (`QuotedText`): bytes that are neither the quote nor a
backslash, and backslashes with one byte behind each. A block comment has no units, and ends with
the first `*/` behind its opening delimiter.

The search for the closing quote takes one unit after the other, so that it stops at a quote exactly
if the text before it is made of units (`quoteClose_eq_some_iff`).

Main statement: `literalAt` recognises these literals by their grammar (`literalAt_delimited`).
-/

namespace TypeErasure

/-! ### Units of a quoted text -/

/-- One unit of a text in quotes `q`. -/
inductive QuotedUnit (q : Byte) : List Byte → Prop where
  | byte {c : Byte} (hquote : c ≠ q) (hplain : c.is '\\' = false) : QuotedUnit q [c]
  | escape {c d : Byte} (hescape : c.is '\\' = true) : QuotedUnit q [c, d]

/-- **The text splits into units.** -/
def QuotedText (q : Byte) (text : List Byte) : Prop :=
  ∃ units : List (List Byte), units.flatten = text ∧ ∀ u ∈ units, QuotedUnit q u

section Units

variable {q c : Byte} {text rest : List Byte}

private theorem quotedText_nil (q : Byte) : QuotedText q [] :=
  ⟨[], rfl, fun _ hu => absurd hu List.not_mem_nil⟩

/-- A text that is not empty starts with a unit. The units behind it split the rest. -/
private theorem quotedText_cons_iff :
    QuotedText q (c :: rest) ↔
      ∃ u tail, QuotedUnit q u ∧ QuotedText q tail ∧ c :: rest = u ++ tail := by
  constructor
  · rintro ⟨units, hflat, hunits⟩
    cases units with
    | nil => simp at hflat
    | cons u units =>
      exact ⟨u, units.flatten, hunits u List.mem_cons_self,
        ⟨units, rfl, fun v hv => hunits v (List.mem_cons_of_mem _ hv)⟩, hflat.symm⟩
  · rintro ⟨u, tail, hu, ⟨units, rfl, hunits⟩, heq⟩
    exact ⟨u :: units, heq.symm, List.forall_mem_cons.mpr ⟨hu, hunits⟩⟩

/-- If the first byte is no backslash, it is a unit by itself, and it is not the quote. -/
private theorem quotedText_cons_of_byte (hplain : c.is '\\' = false) :
    QuotedText q (c :: rest) ↔ c ≠ q ∧ QuotedText q rest := by
  rw [quotedText_cons_iff]
  constructor
  · rintro ⟨u, tail, hu, htail, heq⟩
    cases hu with
    | byte hquote =>
      obtain ⟨rfl, rfl⟩ := List.cons.inj heq
      exact ⟨hquote, htail⟩
    | escape hescape =>
      obtain ⟨rfl, -⟩ := List.cons.inj heq
      rw [hescape] at hplain
      exact absurd hplain (by simp)
  · rintro ⟨hquote, hrest⟩
    exact ⟨[c], rest, .byte hquote hplain, hrest, rfl⟩

/-- If the first byte is a backslash, it makes a unit with the byte behind it, which has to be
there. -/
private theorem quotedText_cons_of_escape (hescape : c.is '\\' = true) :
    QuotedText q (c :: rest) ↔ ∃ d tail, rest = d :: tail ∧ QuotedText q tail := by
  rw [quotedText_cons_iff]
  constructor
  · rintro ⟨u, tail, hu, htail, heq⟩
    cases hu with
    | byte _ hplain =>
      obtain ⟨rfl, -⟩ := List.cons.inj heq
      rw [hescape] at hplain
      exact absurd hplain (by simp)
    | @escape _ d _ => exact ⟨d, tail, (List.cons.inj heq).2, htail⟩
  · rintro ⟨d, tail, rfl, htail⟩
    exact ⟨[c, d], tail, .escape hescape, htail, rfl⟩

end Units

/-! ### The closing quote -/

/-- A range that is not empty starts with its first byte. -/
private theorem Bytes.toList_slice_cons {b : Bytes} {j k : Nat} (hjk : j < k) (hk : k ≤ b.size) :
    (b.slice j k).toList = b[j] :: (b.slice (j + 1) k).toList := by
  have hhead : b.slice j (j + 1) = #[b[j]] := by
    refine Array.ext (by rw [size_slice (by omega)]; simp) fun m hm _ => ?_
    rw [size_slice (by omega)] at hm
    obtain rfl : m = 0 := by omega
    simp [slice]
  rw [← slice_append_slice b (Nat.le_succ j) hjk, hhead, Array.toList_append]
  rfl

/-- **The search stops behind a quote exactly if units lead to it.** The induction follows the
search, which takes one unit after the other. A quote within an escape is part of a unit, so that
the search does not stop there; any other quote starts no unit. -/
theorem quoteClose_eq_some_iff {b : Bytes} {q : Byte} (hq : q.is '\\' = false) {j stop : Nat} :
    quoteClose b q j = some stop ↔
      j < stop ∧ b[stop - 1]? = some q ∧ QuotedText q (b.slice j (stop - 1)).toList := by
  have hsize (h : b[stop - 1]? = some q) : stop - 1 < b.size :=
    (Array.getElem?_eq_some_iff.mp h).1
  -- a byte that is not the quote stands before it, so that it belongs to the text
  have hbefore {j : Nat} (hj : j < b.size) (hlt : j < stop) (hquote : b[stop - 1]? = some q)
      (hne : b[j] ≠ q) : j < stop - 1 := by
    refine Nat.lt_of_le_of_ne (by omega) fun heq => hne ?_
    rw [← heq, Array.getElem?_eq_getElem hj] at hquote
    exact Option.some.inj hquote
  fun_induction quoteClose b q j with
  | case1 j hj hescape ih =>
    -- a backslash and the byte behind it are taken as one unit
    refine ih.trans ⟨?_, ?_⟩
    · rintro ⟨hlt, hquote, htext⟩
      have := hsize hquote
      rw [Bytes.toList_slice_cons (by omega) (by omega), quotedText_cons_of_escape hescape,
        Bytes.toList_slice_cons (by omega) (by omega)]
      exact ⟨by omega, hquote, _, _, rfl, htext⟩
    · rintro ⟨hlt, hquote, htext⟩
      have hjstop : j < stop - 1 := hbefore hj hlt hquote fun heq => by
        rw [heq, hq] at hescape
        simp at hescape
      have := hsize hquote
      rw [Bytes.toList_slice_cons hjstop (by omega), quotedText_cons_of_escape hescape] at htext
      obtain ⟨d, tail, htail, htext⟩ := htext
      -- the escaped byte belongs to the text, too
      have hlength := congrArg List.length htail
      rw [Array.length_toList, Bytes.size_slice (by omega), List.length_cons] at hlength
      rw [Bytes.toList_slice_cons (by omega) (by omega)] at htail
      rw [← (List.cons.inj htail).2] at htext
      exact ⟨by omega, hquote, htext⟩
  | case2 j hj hescape hat =>
    -- the quote stands here, and the text before it is empty
    have hat : b[j] = q := eq_of_beq hat
    rw [Option.some.injEq]
    constructor
    · rintro rfl
      rw [Nat.add_sub_cancel, Bytes.slice_self, Array.getElem?_eq_getElem hj, hat]
      exact ⟨Nat.lt_succ_self j, rfl, quotedText_nil q⟩
    · rintro ⟨hlt, hquote, htext⟩
      have := hsize hquote
      -- a unit does not start with the quote, so that the text is empty
      have hnot : ¬ j < stop - 1 := fun hjstop => by
        rw [Bytes.toList_slice_cons hjstop (by omega),
          quotedText_cons_of_byte (Bool.eq_false_iff.mpr hescape)] at htext
        exact htext.1 hat
      omega
  | case3 j hj hescape hat ih =>
    -- any other byte is a unit by itself
    have hne : b[j] ≠ q := fun heq => hat (beq_iff_eq.mpr heq)
    refine ih.trans ⟨?_, ?_⟩
    · rintro ⟨hlt, hquote, htext⟩
      have := hsize hquote
      rw [Bytes.toList_slice_cons (by omega) (by omega),
        quotedText_cons_of_byte (Bool.eq_false_iff.mpr hescape)]
      exact ⟨by omega, hquote, hne, htext⟩
    · rintro ⟨hlt, hquote, htext⟩
      have hjstop := hbefore hj hlt hquote hne
      have := hsize hquote
      rw [Bytes.toList_slice_cons hjstop (by omega),
        quotedText_cons_of_byte (Bool.eq_false_iff.mpr hescape)] at htext
      exact ⟨by omega, hquote, htext.2⟩
  | case4 j hj =>
    -- there is no byte left, so no quote either
    refine ⟨fun h => by simp at h, fun h => ?_⟩
    have := hsize h.2.1
    omega

/-! ### Where a literal is closed -/

/-- **The literal is closed where `p` holds**: at no more than one offset, and if at none, then it
is not terminated and runs to the end of the text. -/
structure Literal.ClosedWhere (l : Literal) (b : Bytes) (p : Nat → Prop) : Prop where
  stop_iff : ∀ stop, l.terminated = true ∧ l.span.stop = stop ↔ p stop
  unique : ∀ stop stop', p stop → p stop' → stop = stop'
  unclosed : (∀ stop, ¬ p stop) → l.terminated = false ∧ l.span.stop = b.size

/-- A literal is closed where the search for its closing delimiter stops. The search gives one
offset or none. -/
private theorem Literal.closedWhere_closedBy {b : Bytes} {close : Option Nat} {p : Nat → Prop}
    (h : ∀ stop, close = some stop ↔ p stop) (kind : LiteralKind) (i : Nat) :
    (closedBy kind b i close).ClosedWhere b p where
  stop_iff stop := by
    rw [← h stop]
    cases close <;> simp [closedBy]
  unique stop stop' hstop hstop' :=
    Option.some.inj (((h stop).mpr hstop).symm.trans ((h stop').mpr hstop'))
  unclosed hnone := by
    cases close with
    | none => exact ⟨rfl, rfl⟩
    | some stop => exact absurd ((h stop).mp rfl) (hnone stop)

/-- **A text in quotes extends from the quote at offset `i` to offset `stop`.** -/
structure QuotedAt (b : Bytes) (q : Byte) (i stop : Nat) : Prop where
  two_le : i + 2 ≤ stop
  text : QuotedText q (b.slice (i + 1) (stop - 1)).toList
  last : b[stop - 1]? = some q

section Delimited

variable {b : Bytes} {i stop : Nat} {q : Byte}

private theorem quoteClose_eq_some_iff_quotedAt (hq : q.is '\\' = false) :
    quoteClose b q (i + 1) = some stop ↔ QuotedAt b q i stop := by
  rw [quoteClose_eq_some_iff hq]
  exact ⟨fun h => ⟨h.1, h.2.2, h.2.1⟩, fun h => ⟨h.two_le, h.last, h.text⟩⟩

/-- **A block comment ends with the first closing mark behind its opening one.** The search goes
upward, so what it finds is the least offset at which a mark ends. -/
private theorem blockClose_eq_some_iff_isLeast :
    blockClose b (i + 2) = some stop ↔
      IsLeast {e | i + 4 ≤ e ∧ b.isAt (e - 2) '*' = true ∧ b.isAt (e - 1) '/' = true} stop := by
  rw [blockClose_eq_some_iff, Bool.and_eq_true]
  constructor
  · -- an earlier mark would have been found
    rintro ⟨hle, hclose, hfirst⟩
    refine ⟨⟨hle, hclose⟩, fun e he => Nat.le_of_not_lt fun hlt => ?_⟩
    obtain ⟨hfour, hstar, hslash⟩ := he
    have hnot := hfirst (e - 2) (by omega) (by omega)
    rw [hstar, show e - 2 + 1 = e - 1 by omega, hslash] at hnot
    simp at hnot
  · -- the least offset is the one that the search comes to
    rintro ⟨⟨hle, hclose⟩, hleast⟩
    refine ⟨hle, hclose, fun k hk hlt => eq_false_of_ne_true fun hat => ?_⟩
    have : stop ≤ k + 2 := hleast ⟨by omega, Bool.and_eq_true_iff.mp hat⟩
    omega

/-- A byte of a class is none of the characters outside of it. It would have to be in the class
otherwise. -/
private theorem Byte.is_eq_false {p : Byte → Bool} {ch : Char} (h : p q = true)
    (hch : p (ofChar ch) = false) : q.is ch = false := by
  rw [Bool.eq_false_iff]
  intro his
  rw [apply_of_is his p, hch] at h
  simp at h

/-- A quote or backtick starts a string or a template. -/
private theorem literalAt_of_quote (hat : b[i]? = some q)
    (hquote : (q.isQuote || q.is '`') = true) :
    literalAt b i = some (Literal.closedBy (if q.is '`' then .template else .string) b i
      (quoteClose b q (i + 1))) := by
  have hslash : q.is '/' = false :=
    Byte.is_eq_false (p := fun c => c.isQuote || c.is '`') hquote rfl
  rw [literalAt, hat]
  dsimp only
  rw [hslash, if_neg Bool.false_ne_true]
  -- a backtick is no quote
  by_cases htick : q.is '`' = true
  · have hnot : q.isQuote = false := (Byte.apply_of_is htick Byte.isQuote).trans rfl
    rw [hnot, if_neg Bool.false_ne_true, if_pos htick, if_pos htick]
  · rw [Bool.eq_false_iff.mpr htick, Bool.or_false] at hquote
    rw [if_pos hquote, if_neg htick]

/-- A slash and a star start a block comment. The star is no slash, so this is no line comment. -/
private theorem literalAt_of_blockComment (hslash : b.isAt i '/' = true)
    (hstar : b.isAt (i + 1) '*' = true) :
    literalAt b i = some (Literal.closedBy .blockComment b i (blockClose b (i + 2))) := by
  obtain ⟨c, hc, his⟩ := (Option.any_eq_true _ _).mp hslash
  have hnot : b.isAt (i + 1) '/' = false := (Bytes.satAt_of_isAt hstar _).trans rfl
  rw [literalAt, hc]
  dsimp only
  rw [if_pos his, hnot, if_neg Bool.false_ne_true, if_pos hstar]

/-- **Delimited literals are recognised by their grammar.** A quote or backtick starts a literal
that is closed where units lead to a copy of it, and `/*` starts one that is closed behind the first
`*/` that does not overlap it. -/
theorem literalAt_delimited (b : Bytes) (i : Nat) :
    (∀ q, b[i]? = some q → (q.isQuote || q.is '`') = true →
      ∃ l, literalAt b i = some l ∧ l.kind = (if q.is '`' then .template else .string) ∧
        l.span.start = i ∧ l.ClosedWhere b (QuotedAt b q i)) ∧
      (b.isAt i '/' = true → b.isAt (i + 1) '*' = true →
        ∃ l, literalAt b i = some l ∧ l.kind = .blockComment ∧ l.span.start = i ∧
          l.ClosedWhere b (IsLeast {stop | i + 4 ≤ stop ∧
            b.isAt (stop - 2) '*' = true ∧ b.isAt (stop - 1) '/' = true})) := by
  constructor
  · intro q hat hquote
    -- a quote or backtick is no backslash
    have hplain : q.is '\\' = false :=
      Byte.is_eq_false (p := fun c => c.isQuote || c.is '`') hquote rfl
    exact ⟨_, literalAt_of_quote hat hquote, Literal.kind_closedBy _ _ _ _,
      Literal.start_closedBy _ _ _ _,
      Literal.closedWhere_closedBy (fun _ => quoteClose_eq_some_iff_quotedAt hplain) _ _⟩
  · intro hslash hstar
    exact ⟨_, literalAt_of_blockComment hslash hstar, Literal.kind_closedBy _ _ _ _,
      Literal.start_closedBy _ _ _ _,
      Literal.closedWhere_closedBy (fun _ => blockClose_eq_some_iff_isLeast) _ _⟩

/-- A string with an escaped quote and an escaped backslash, a comment whose first `*/` overlaps its
opening delimiter, and a string whose last backslash has nothing behind it. -/
theorem literalAt_delimited_escapes :
    let b := Bytes.ofString "'\\'\\\\'/*/*/\"\\"
    (literalAt b 0 = some ⟨.string, ⟨0, 6⟩, true⟩ ∧ QuotedAt b 39 0 6) ∧
      (literalAt b 6 = some ⟨.blockComment, ⟨6, 11⟩, true⟩ ∧
        IsLeast {stop | 10 ≤ stop ∧ b.isAt (stop - 2) '*' = true ∧ b.isAt (stop - 1) '/' = true}
          11) ∧
      literalAt b 11 = some ⟨.string, ⟨11, 13⟩, false⟩ ∧ ∀ stop, ¬ QuotedAt b 34 11 stop := by
  intro b
  have hstring : literalAt b 0 = some ⟨.string, ⟨0, 6⟩, true⟩ := by decide +kernel
  have hcomment : literalAt b 6 = some ⟨.blockComment, ⟨6, 11⟩, true⟩ := by decide +kernel
  have hopen : literalAt b 11 = some ⟨.string, ⟨11, 13⟩, false⟩ := by decide +kernel
  -- the theorem tells the first two literals closed and the third one not
  refine ⟨⟨hstring, ?_⟩, ⟨hcomment, ?_⟩, hopen, fun stop hstop => ?_⟩
  · obtain ⟨l, hl, -, -, hclosed⟩ := (literalAt_delimited b 0).1 39 rfl rfl
    obtain rfl := Option.some.inj (hl.symm.trans hstring)
    exact (hclosed.stop_iff 6).mp ⟨rfl, rfl⟩
  · obtain ⟨l, hl, -, -, hclosed⟩ := (literalAt_delimited b 6).2 rfl rfl
    obtain rfl := Option.some.inj (hl.symm.trans hcomment)
    exact (hclosed.stop_iff 11).mp ⟨rfl, rfl⟩
  · obtain ⟨l, hl, -, -, hclosed⟩ := (literalAt_delimited b 11).1 34 rfl rfl
    obtain rfl := Option.some.inj (hl.symm.trans hopen)
    exact Bool.false_ne_true ((hclosed.stop_iff stop).mpr hstop).1

end Delimited

end TypeErasure
