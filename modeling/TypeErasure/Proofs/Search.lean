import TypeErasure.Proofs.Alike
import TypeErasure.Proofs.Nesting

/-!
# The search for a delimiter is exact

A scan from an offset looks at one offset after the other, and passes over each string, template and
comment in one step: `visited b i n` is the offset that it looks at after `n` steps, and
`depthAt b reading d i n` the number of brackets that are open there. Neither of the two knows of
the condition at which a search stops.

A search goes along with such a scan as long as no offset meets its condition at depth zero
(`findStopFrom_of_not_endsAt`). Main statement: `findStop` finds the first offset of the scan that
does, or the end of the text (`findStop_exact`).
-/

namespace TypeErasure

variable {b : Bytes} {reading : Reading} {stop : Nat → Bool}

/-! ### The scan -/

/-- The offset behind the literal at offset `i`, or behind the byte there. A regular expression is
passed over byte by byte. -/
def visitNext (b : Bytes) (i : Nat) : Nat :=
  match literalAt b i with
  | some l => if l.kind = .regex then i + 1 else l.span.stop
  | none => i + 1

/-- **The offset that a scan from `i` looks at after `n` steps.** -/
def visited (b : Bytes) (i : Nat) : Nat → Nat
  | 0 => i
  | n + 1 => visited b (visitNext b i) n

/-- What the byte at offset `i` adds to the number of open brackets. In a type, `<` and `>` are
brackets too, unless the `>` is the head of an arrow. -/
def bracketIn (b : Bytes) (reading : Reading) (i : Nat) : Int :=
  if b.satAt i (·.among ['(', '[', '{']) || (reading == .type && b.isAt i '<') then 1
  else if b.satAt i (·.among [')', ']', '}']) ||
      (reading == .type && b.isAt i '>' && !b.isBefore i '=') then -1
  else 0

/-- The scan takes the steps of a search. -/
theorem visitNext_eq_scanNext (b : Bytes) (i : Nat) : visitNext b i = scanNext b i := by
  rw [visitNext]
  cases hl : literalAt b i with
  | none => exact (scanNext_of_eq_none (inertStop_of_literalAt_eq_none hl)).symm
  | some l =>
    by_cases hregex : l.kind = .regex
    · rw [scanNext_of_eq_none (inertStop_of_regex hl hregex)]
      exact if_pos hregex
    · rw [scanNext_of_inertStop (inertStop_of_literalAt hl hregex)]
      exact if_neg hregex

private theorem lt_visitNext (b : Bytes) (i : Nat) : i < visitNext b i := by
  rw [visitNext_eq_scanNext]
  exact lt_scanNext b i

theorem bracketIn_eq_ite (b : Bytes) (reading : Reading) (i : Nat) :
    bracketIn b reading i =
      if opensAt b reading i then 1 else if closesAt b reading i then -1 else 0 :=
  rfl

/-- A bracket that closes counts as `-1`. -/
private theorem bracketIn_eq_neg_one_iff {i : Nat} :
    bracketIn b reading i = -1 ↔ closesAt b reading i = true := by
  rw [bracketIn_eq_ite]
  by_cases hclose : closesAt b reading i = true
  · simp [hclose, not_opensAt_of_closesAt hclose]
  · by_cases hopen : opensAt b reading i = true <;> simp [hclose, hopen]

/-- **The number of brackets that are open after `n` steps** of a scan from `i`, where `d` of them
are open at `i`. It is negative behind a closing bracket that was never opened. -/
def depthAt (b : Bytes) (reading : Reading) (d : Int) (i : Nat) : Nat → Int
  | 0 => d
  | n + 1 => depthAt b reading (d + bracketIn b reading i) (visitNext b i) n

/-- The offset after `n` steps lies in the text and outside all groups, and it satisfies `stop` or
holds a closing bracket. -/
def EndsAt (b : Bytes) (reading : Reading) (stop : Nat → Bool) (d : Int) (i n : Nat) : Prop :=
  visited b i n < b.size ∧ depthAt b reading d i n = 0 ∧
    (stop (visited b i n) = true ∨ bracketIn b reading (visited b i n) = -1)

private theorem endsAt_zero {d i : Nat} :
    EndsAt b reading stop d i 0 ↔
      i < b.size ∧ d = 0 ∧ (stop i = true ∨ closesAt b reading i = true) := by
  rw [EndsAt, visited, depthAt, Int.natCast_eq_zero, bracketIn_eq_neg_one_iff]

/-- Each step leads at least one byte on. -/
private theorem add_le_visited (b : Bytes) (i n : Nat) : i + n ≤ visited b i n := by
  induction n generalizing i with
  | zero => exact Nat.le_refl i
  | succ n ih =>
    have hstep := lt_visitNext b i
    have := ih (visitNext b i)
    rw [visited]
    omega

/-! ### One step -/

/-- Where a string, template or comment starts, there is no bracket. -/
private theorem bracketIn_of_inertStop {i next : Nat} (h : inertStop b i = some next) :
    bracketIn b reading i = 0 := by
  have hinert : b.satAt i Byte.opensInert = true := (inertStop_eq_some_iff.mp h).opensInert
  have hnone {p : Byte → Bool}
      (hp : ['/', '\'', '"', '`'].all (fun ch => !p (Byte.ofChar ch)) = true) :
      b.satAt i p = false :=
    Bytes.not_satAt_of_among _ hinert hp
  have hopen : opensAt b reading i = false := by
    rw [opensAt, hnone rfl, Bytes.isAt_eq_satAt, hnone rfl, Bool.and_false, Bool.or_false]
  have hclose : closesAt b reading i = false := by
    rw [closesAt, hnone rfl, Bytes.isAt_eq_satAt, hnone rfl, Bool.and_false, Bool.false_and,
      Bool.or_false]
  rw [bracketIn_eq_ite, hopen, hclose]
  rfl

/-- **A search that may stop does so.** It does at its condition, and at a closing bracket that it
did not see opened. -/
private theorem findStopFrom_of_endsAt {d i : Nat} (h : EndsAt b reading stop d i 0) :
    findStopFrom b reading stop d i = i := by
  obtain ⟨hi, rfl, hstop⟩ := endsAt_zero.mp h
  rw [findStopFrom_eq_ite, if_pos hi]
  by_cases hmet : stop i = true
  · rw [if_pos ⟨rfl, hmet⟩]
  · have hclose : closesAt b reading i = true := hstop.resolve_left hmet
    -- a closing bracket starts no literal
    have hinert : inertStop b i = none :=
      inertStop_eq_none (Bytes.not_satAt_of_among _ (satAt_of_closesAt hclose) rfl)
    rw [if_neg fun hboth => hmet hboth.2, hinert]
    dsimp only
    rw [not_opensAt_of_closesAt hclose, if_neg Bool.false_ne_true, if_pos hclose, if_pos rfl]

/-- **A search that may not stop takes one step of the scan**, and its depth is that of the scan.
One case for each way to go on: over a literal, into a group, out of one, or over any other byte. -/
theorem findStopFrom_of_not_endsAt {d i : Nat} (hi : i < b.size)
    (h : ¬ EndsAt b reading stop d i 0) :
    ∃ e : Nat, (e : Int) = d + bracketIn b reading i ∧
      findStopFrom b reading stop d i = findStopFrom b reading stop e (visitNext b i) := by
  rw [visitNext_eq_scanNext]
  rw [endsAt_zero] at h
  rw [findStopFrom_eq_ite, if_pos hi, if_neg fun hboth => h ⟨hi, hboth.1, .inl hboth.2⟩]
  cases hinert : inertStop b i with
  | some next =>
    -- a literal is passed over, and holds no bracket
    exact ⟨d, by rw [bracketIn_of_inertStop hinert, Int.add_zero],
      by rw [scanNext_of_inertStop hinert]⟩
  | none =>
    rw [scanNext_of_eq_none hinert, bracketIn_eq_ite]
    by_cases hopen : opensAt b reading i = true
    · exact ⟨d + 1, by rw [if_pos hopen, Int.natCast_add, Int.natCast_one], by rw [if_pos hopen]⟩
    · rw [if_neg hopen]
      by_cases hclose : closesAt b reading i = true
      · -- a closing bracket at depth zero would have stopped the search
        have hd : d ≠ 0 := fun hd => h ⟨hi, hd, .inr hclose⟩
        exact ⟨d - 1, by rw [if_pos hclose]; omega, by rw [if_neg hopen, if_pos hclose, if_neg hd]⟩
      · exact ⟨d, by rw [if_neg hclose, Int.add_zero], by rw [if_neg hopen, if_neg hclose]⟩

/-! ### The whole search -/

/-- After `n` steps a search from `i` meets its condition for the first time, and up to there no
depth is negative. -/
def FirstEnd (b : Bytes) (reading : Reading) (stop : Nat → Bool) (d : Int) (i n : Nat) : Prop :=
  EndsAt b reading stop d i n ∧ (∀ m < n, ¬ EndsAt b reading stop d i m) ∧
    ∀ m ≤ n, 0 ≤ depthAt b reading d i m

/-- **A search that counts from depth `d` on** stops at the first offset of the scan that meets its
condition, and up to there no bracket is closed that was never opened. The recursion is that of the
search, and each step of it is one of the scan. -/
theorem findStopFrom_cases (b : Bytes) (reading : Reading) (stop : Nat → Bool) (d i : Nat) :
    (∃ n, FirstEnd b reading stop d i n ∧ visited b i n = findStopFrom b reading stop d i) ∨
      findStopFrom b reading stop d i = b.size ∧ ∀ n, ¬ EndsAt b reading stop d i n := by
  by_cases hi : i < b.size
  · -- the search may stop at once
    by_cases hends : EndsAt b reading stop d i 0
    · refine .inl ⟨0, ⟨hends, fun m hm => absurd hm (Nat.not_lt_zero m), fun m hm => ?_⟩,
        (findStopFrom_of_endsAt hends).symm⟩
      obtain rfl := Nat.le_zero.mp hm
      exact Int.natCast_nonneg d
    · obtain ⟨e, he, heq⟩ := findStopFrom_of_not_endsAt hi hends
      have hless : b.size - visitNext b i < b.size - i := by
        have := lt_visitNext b i
        omega
      rw [heq]
      -- what is met after the next offset is met one step later from here
      rcases findStopFrom_cases b reading stop e (visitNext b i) with
        ⟨n, hfirst, hn⟩ | ⟨hend, hnone⟩
      · rw [he] at hfirst
        refine .inl ⟨n + 1, ⟨hfirst.1, fun m hm => ?_, fun m hm => ?_⟩, hn⟩
        · cases m with
          | zero => exact hends
          | succ m => exact hfirst.2.1 m (Nat.lt_of_succ_lt_succ hm)
        · cases m with
          | zero => exact Int.natCast_nonneg d
          | succ m => exact hfirst.2.2 m (Nat.le_of_succ_le_succ hm)
      · -- no end is met further on, and none is here
        rw [he] at hnone
        refine .inr ⟨hend, fun n => ?_⟩
        cases n with
        | zero => exact hends
        | succ n => exact hnone n
  · -- behind the end of the text no step leads back
    refine .inr ⟨by rw [findStopFrom_eq_ite, if_neg hi], fun n hends => hi ?_⟩
    have := add_le_visited b i n
    have := hends.1
    omega
termination_by b.size - i

/-- **The search is exact.** It gives the first offset of the scan that lies outside all groups and
satisfies `stop` or holds a closing bracket, and the end of the text if there is none. Before it
stops, every bracket on its way is opened before it is closed, and all are closed. The scan comes to
the end of the text after at most as many steps as there are bytes before it. Both directions come
from `findStopFrom_cases` at depth zero. -/
theorem findStop_exact (b : Bytes) (reading : Reading) (stop : Nat → Bool) (i : Nat) :
    (∀ r, findStop b reading stop i = r ↔
        (∃ n, visited b i n = r ∧ EndsAt b reading stop 0 i n ∧
            ∀ m < n, ¬ EndsAt b reading stop 0 i m) ∨
          r = b.size ∧ ∀ n, ¬ EndsAt b reading stop 0 i n) ∧
      (findStop b reading stop i < b.size →
        ∃ n, visited b i n = findStop b reading stop i ∧ depthAt b reading 0 i n = 0 ∧
          ∀ m ≤ n, 0 ≤ depthAt b reading 0 i m) ∧
      b.size ≤ visited b i (b.size - i) := by
  have hcases := findStopFrom_cases b reading stop 0 i
  rw [Int.natCast_zero] at hcases
  refine ⟨fun r => ⟨?_, ?_⟩, fun hlt => ?_, ?_⟩
  · rintro rfl
    rcases hcases with ⟨n, hfirst, hn⟩ | hnone
    · exact .inl ⟨n, hn, hfirst.1, hfirst.2.1⟩
    · exact .inr hnone
  · -- a search has one result, so it is enough that the first end is one
    rintro (⟨n, rfl, hends, hbefore⟩ | ⟨rfl, hnone⟩)
    · rcases hcases with ⟨k, hfirst, hk⟩ | ⟨-, hnone⟩
      · obtain rfl : k = n := by
          rcases Nat.lt_trichotomy k n with hlt | heq | hgt
          · exact absurd hfirst.1 (hbefore k hlt)
          · exact heq
          · exact absurd hends (hfirst.2.1 n hgt)
        exact hk.symm
      · exact absurd hends (hnone n)
    · rcases hcases with ⟨k, hfirst, -⟩ | ⟨hend, -⟩
      · exact absurd hfirst.1 (hnone k)
      · exact hend
  · rcases hcases with ⟨n, hfirst, hn⟩ | ⟨hend, -⟩
    · exact ⟨n, hn, hfirst.1.2.1, hfirst.2.2⟩
    · exact absurd hend (Nat.ne_of_lt hlt)
  · have := add_le_visited b i (b.size - i)
    omega

end TypeErasure
