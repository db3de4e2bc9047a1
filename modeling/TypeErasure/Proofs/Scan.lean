import Mathlib.Logic.Relation
import TypeErasure.Proofs.Literal

/-!
# Scanning a text from literal to literal

`Scans b i j` says that a reader who starts at offset `i` and steps over one byte, or over one whole
string, template or comment, comes to offset `j`. It is the path of every forward search of the
eraser:

* `scans_findStop` — the search for the end of a type or expression;
* `scans_skipWhile`, `scans_skipTrivia` — runs of whitespace, names and comments;
* `scans_of_hasAt` — a word of fixed spelling.

The path is deterministic, so two places on it are ordered (`Scans.of_le`). It depends on nothing to
the left of its start (`scans_append_right_iff`), and on nothing to the right of its end as long as
no literal is cut (`Scans.congr`, `Lexes.congr`).

Regular expressions are stepped over byte by byte. `Clean b c` says that this makes no difference
behind `c`: every `/` on the path opens a comment.

The ends that the eraser computes are moved back over whitespace, possibly into a line comment.
`Settles b c q` says that nothing but whitespace lies between `q` and a place on the path from `c`.
-/

namespace TypeErasure

/-! ### The path -/

/-- The offset after the inert literal at offset `i`, or after the byte there. -/
def scanNext (b : Bytes) (i : Nat) : Nat :=
  (inertStop b i).getD (i + 1)

theorem scanNext_of_inertStop {b : Bytes} {i stop : Nat} (h : inertStop b i = some stop) :
    scanNext b i = stop := by
  rw [scanNext, h, Option.getD_some]

/-- Where no inert literal starts, a step leads over one byte. -/
theorem scanNext_of_eq_none {b : Bytes} {i : Nat} (h : inertStop b i = none) :
    scanNext b i = i + 1 := by
  rw [scanNext, h, Option.getD_none]

/-- A step moves on, whether it leads over a literal or over a byte. -/
theorem lt_scanNext (b : Bytes) (i : Nat) : i < scanNext b i := by
  cases h : inertStop b i with
  | none => exact (scanNext_of_eq_none h).symm ▸ Nat.lt_succ_self i
  | some stop => exact (scanNext_of_inertStop h).symm ▸ lt_of_inertStop h

/-- A step that starts within the text stays within it. -/
private theorem scanNext_le_size {b : Bytes} {i : Nat} (hi : i < b.size) :
    scanNext b i ≤ b.size := by
  cases h : inertStop b i with
  | none => exact (scanNext_of_eq_none h).symm ▸ hi
  | some stop => exact (scanNext_of_inertStop h).symm ▸ le_of_inertStop h

/-- One step of a scan. -/
def ScanStep (b : Bytes) (i j : Nat) : Prop :=
  i < b.size ∧ j = scanNext b i

/-- **A scan from offset `i` comes to offset `j`.** -/
def Scans (b : Bytes) : Nat → Nat → Prop :=
  Relation.ReflTransGen (ScanStep b)

namespace Scans

variable {b : Bytes} {c i j p q : Nat}

theorem refl (b : Bytes) (i : Nat) : Scans b i i :=
  Relation.ReflTransGen.refl

theorem trans (h₁ : Scans b i j) (h₂ : Scans b j p) : Scans b i p :=
  Relation.ReflTransGen.trans h₁ h₂

/-- The step over a byte that opens no inert literal. -/
theorem byte (hi : i < b.size) (h : inertStop b i = none) : Scans b i (i + 1) :=
  Relation.ReflTransGen.single ⟨hi, (scanNext_of_eq_none h).symm⟩

/-- The step over an inert literal. -/
theorem inert (h : inertStop b i = some j) : Scans b i j :=
  Relation.ReflTransGen.single
    ⟨Nat.lt_of_lt_of_le (lt_of_inertStop h) (le_of_inertStop h), (scanNext_of_inertStop h).symm⟩

theorem le (h : Scans b i j) : i ≤ j := by
  induction h with
  | refl => exact Nat.le_refl i
  | tail _ hstep ih => exact Nat.le_trans ih (hstep.2 ▸ Nat.le_of_lt (lt_scanNext b _))

/-- A path that starts within the text, or at its end, does not leave it. -/
theorem le_size (h : Scans b i j) (hi : i ≤ b.size) : j ≤ b.size := by
  induction h with
  | refl => exact hi
  | tail _ hstep _ => exact hstep.2 ▸ scanNext_le_size hstep.1

/-- Of two places on one path, the path leads from the earlier one to the later one. This is the
general fact that a relation in which each place has one successor orders all that is reached from
one place; the order of the offsets then decides which of the two comes first. -/
theorem of_le (hp : Scans b c p) (hq : Scans b c q) (h : p ≤ q) : Scans b p q := by
  -- a step is a function of where it starts, so two paths from `c` cannot part
  have hunique : Relator.RightUnique (ScanStep b) := fun _ _ _ h₁ h₂ => h₁.2.trans h₂.2.symm
  rcases Relation.ReflTransGen.total_of_right_unique hunique hp hq with hpq | hqp
  · exact hpq
  · obtain rfl : p = q := Nat.le_antisymm h (Scans.le hqp)
    exact refl b p

/-- A path that goes on from a place goes on with the step from there. In particular the path does
not stop within a literal that it has come to. -/
theorem next_le (hp : Scans b c p) (hq : Scans b c q) (h : p < q) : scanNext b p ≤ q := by
  rcases Relation.ReflTransGen.cases_head (hp.of_le hq (Nat.le_of_lt h)) with heq | ⟨s, hs, hsq⟩
  · omega
  · exact hs.2 ▸ Scans.le hsq

end Scans

/-! ### Stretches without literals -/

/-- Bytes that open no inert literal are scanned one by one. By induction on the end of the
stretch. -/
theorem scans_of_forall {b : Bytes} {i j : Nat} (hij : i ≤ j) (hj : j ≤ b.size)
    (h : ∀ k, i ≤ k → k < j → inertStop b k = none) : Scans b i j := by
  induction j with
  | zero =>
    obtain rfl : i = 0 := by omega
    exact Scans.refl b 0
  | succ n ih =>
    by_cases heq : i = n + 1
    · exact heq ▸ Scans.refl b i
    · have hin : i ≤ n := by omega
      exact (ih hin (by omega) fun k hk hkn => h k hk (by omega)).trans
        (Scans.byte (by omega) (h n hin (Nat.lt_succ_self n)))

/-- A stretch of bytes of one class is scanned byte by byte if no byte of the class opens a
literal. -/
theorem scans_of_satAt {b : Bytes} {i j : Nat} {p : Byte → Bool} (hij : i ≤ j)
    (h : ∀ k, i ≤ k → k < j → b.satAt k p = true)
    (hp : Byte.Excludes p Byte.opensInert) : Scans b i j := by
  rcases Nat.lt_or_eq_of_le hij with hlt | rfl
  · -- the last byte is there, so the whole stretch lies within the text
    have hlast := Bytes.lt_size_of_satAt (h (j - 1) (by omega) (by omega))
    exact scans_of_forall hij (by omega) fun k hk hkj =>
      inertStop_eq_none (Bytes.satAt_eq_false (h k hk hkj) hp)
  · exact Scans.refl b i

/-- The step over one byte of a class that opens no literal. -/
theorem scans_succ {b : Bytes} {i : Nat} {p : Byte → Bool} (h : b.satAt i p = true)
    (hp : Byte.Excludes p Byte.opensInert) : Scans b i (i + 1) :=
  Scans.byte (Bytes.lt_size_of_satAt h) (inertStop_eq_none (Bytes.satAt_eq_false h hp))

theorem scans_isAt {b : Bytes} {i : Nat} {ch : Char} (h : b.isAt i ch = true)
    (hch : (Byte.ofChar ch).opensInert = false) : Scans b i (i + 1) :=
  Scans.byte (Bytes.lt_size_of_isAt h)
    (inertStop_eq_none ((Bytes.satAt_of_isAt h Byte.opensInert).trans hch))

/-- A run of a class that opens no literal is on the path from its start. -/
theorem scans_skipWhile {b : Bytes} {p : Byte → Bool} (i : Nat)
    (hp : Byte.Excludes p Byte.opensInert) : Scans b i (b.skipWhile p i) :=
  scans_of_satAt (b.le_skipWhile p i) (fun _ hk hlt => Bytes.satAt_of_lt_skipWhile hk hlt) hp

theorem scans_skipSpace (b : Bytes) (i : Nat) : Scans b i (b.skipSpace i) :=
  scans_skipWhile i (Byte.excludes_opensInert rfl)

theorem scans_skipBlanks (b : Bytes) (i : Nat) : Scans b i (b.skipBlanks i) :=
  scans_skipWhile i (Byte.excludes_opensInert rfl)

theorem scans_nameStop (b : Bytes) (i : Nat) : Scans b i (nameStop b i) := by
  unfold nameStop
  split
  · exact scans_skipWhile i (Byte.excludes_opensInert rfl)
  · exact Scans.refl b i

/-- A word whose bytes open no literal is scanned byte by byte. The class is a parameter, since
keywords are made of letters but arrows and dots are not. -/
theorem scans_of_hasAt {b : Bytes} {i : Nat} {w : String} {p : Byte → Bool}
    (h : b.hasAt i w = true) (hw : (Bytes.ofString w).toList.all p = true)
    (hp : Byte.Excludes p Byte.opensInert) : Scans b i (i + (Bytes.ofString w).size) := by
  refine scans_of_satAt (p := p) (by omega) (fun k hk hlt => ?_) hp
  have := Bytes.satAt_of_hasAt h (k := k - i) (by omega) hw
  rwa [Nat.add_sub_cancel' hk] at this

/-! ### The forward searches -/

/-- Whitespace and comments are on the path. The induction follows the comments, and each of them is
one step. -/
theorem scans_skipTrivia (b : Bytes) (i : Nat) : Scans b i (skipTrivia b i) := by
  fun_induction skipTrivia b i with
  | case1 i => exact scans_skipSpace b i
  | case2 i l hl hcomment ih =>
    -- only comments are skipped, and no comment is a regular expression
    have hkind : l.kind ≠ .regex := by
      intro hregex
      rw [hregex] at hcomment
      simp [LiteralKind.isComment] at hcomment
    exact ((scans_skipSpace b i).trans (Scans.inert (inertStop_of_literalAt hl hkind))).trans ih
  | case3 i => exact scans_skipSpace b i

/-- The search for an end follows the path at every depth: it steps over one byte or over one inert
literal. The induction follows the search. -/
private theorem scans_findStopFrom {b : Bytes} {reading : Reading} {stop : Nat → Bool}
    {depth i : Nat} (h : i ≤ b.size) : Scans b i (findStopFrom b reading stop depth i) := by
  fun_induction findStopFrom b reading stop depth i with
  | case1 => exact Scans.refl b _
  | case2 _ i _ _ next hnext ih => exact (Scans.inert hnext).trans (ih (le_of_inertStop hnext))
  | case3 _ i hi _ hnone _ ih => exact (Scans.byte hi hnone).trans (ih hi)
  | case4 => exact Scans.refl b _
  | case5 _ i hi _ hnone _ _ _ ih => exact (Scans.byte hi hnone).trans (ih hi)
  | case6 _ i hi _ hnone _ _ ih => exact (Scans.byte hi hnone).trans (ih hi)
  | case7 _ i hi =>
    -- the search has come to the end of the text
    obtain rfl : i = b.size := by omega
    exact Scans.refl b _

/-- **The search for the end of a type or expression follows the path.** -/
theorem scans_findStop {b : Bytes} {reading : Reading} {stop : Nat → Bool} {i : Nat}
    (h : i ≤ b.size) : Scans b i (findStop b reading stop i) :=
  scans_findStopFrom h

/-- A search ends at a place that satisfies its condition, at a closing bracket, or at the end of
the text. The induction follows the search, which answers in these three ways only. If the answer
lies before the end of the text, the third is excluded. -/
theorem findStopFrom_spec {b : Bytes} {reading : Reading} {stop : Nat → Bool} {depth i : Nat}
    (h : findStopFrom b reading stop depth i < b.size) :
    stop (findStopFrom b reading stop depth i) = true ∨
      closesAt b reading (findStopFrom b reading stop depth i) = true := by
  fun_induction findStopFrom b reading stop depth i with
  | case1 _ _ _ hstop => exact .inl hstop.2
  | case2 _ _ _ _ _ _ ih => exact ih h
  | case3 _ _ _ _ _ _ ih => exact ih h
  | case4 _ _ _ _ hclose => exact .inr hclose
  | case5 _ _ _ _ _ _ _ _ ih => exact ih h
  | case6 _ _ _ _ _ _ _ ih => exact ih h
  | case7 => omega

/-- A closing bracket is scanned as one byte. -/
private theorem scans_succ_of_closesAt {b : Bytes} {reading : Reading} {i : Nat}
    (h : closesAt b reading i = true) : Scans b i (i + 1) := by
  refine scans_succ (p := fun c => c.isCloser || c.is '>') ?_ (Byte.excludes_opensInert rfl)
  rw [closesAt, Bool.or_eq_true] at h
  rcases h with h | h
  · exact Bytes.satAt_mono h fun c hc => by rw [hc, Bool.true_or]
  · simp only [Bool.and_eq_true] at h
    exact Bytes.satAt_mono h.1.2 fun c hc => by rw [hc, Bool.or_true]

/-- **The closing bracket that a search finds is on the path**, and so is what follows it. The
search has no condition to stop at, so it stops at a bracket that closes its group, which is one
byte. -/
theorem scans_succ_findClose {b : Bytes} {reading : Reading} {i : Nat} (hi : i ≤ b.size)
    (h : findClose b reading i < b.size) : Scans b i (findClose b reading i + 1) := by
  rcases findStopFrom_spec h with hstop | hclose
  · simp at hstop
  · exact (scans_findStop hi).trans (scans_succ_of_closesAt hclose)

/-! ### Places next to the path -/

/-- **Only whitespace lies between offset `q` and a place on the path from `c`.** -/
def Settles (b : Bytes) (c q : Nat) : Prop :=
  c ≤ q ∧ ∃ w, Scans b c w ∧ q ≤ w ∧ ∀ k, q ≤ k → k < w → b.satAt k Byte.isSpace = true

/-- An erased text starts with ink, or with a single blank before ink. -/
def StartsInk (b : Bytes) (i : Nat) : Prop :=
  b.satAt i (fun c => !c.isSpace) = true ∨
    b.satAt i Byte.isBlank = true ∧ b.satAt (i + 1) (fun c => !c.isSpace) = true

theorem Scans.settles {b : Bytes} {c q : Nat} (h : Scans b c q) : Settles b c q :=
  ⟨h.le, q, h, Nat.le_refl q, fun k _ _ => by omega⟩

/-- The end of a trimmed text is next to the path that its end was on, since only whitespace has
been given up. -/
theorem settles_trimEnd {b : Bytes} {c start stop : Nat} (h : Scans b c stop) (hc : c ≤ start)
    (hstart : start ≤ stop) : Settles b c (b.trimEnd start stop) :=
  ⟨Nat.le_trans hc (Bytes.le_trimEnd hstart), stop, h, b.trimEnd_le start stop,
    fun _ hk hlt => Bytes.isSpace_of_trimEnd_le hk hlt⟩

/-- Whitespace before ink is on the path that comes to the ink, since no literal ends there. The
last step to the ink is looked at: if it led over a literal, that literal would end in whitespace
and be followed by ink, against `inertStop_of_isSpace`. -/
private theorem Scans.of_succ {b : Bytes} {c q : Nat} (h : Scans b c (q + 1)) (hc : c ≤ q)
    (hspace : b.satAt q Byte.isSpace = true)
    (hink : b.satAt (q + 1) (fun c => !c.isSpace) = true) : Scans b c q := by
  rcases Relation.ReflTransGen.cases_tail h with heq | ⟨v, hv, hstep⟩
  · omega
  · cases hstop : inertStop b v with
    | none =>
      -- the last step was over one byte, which is the whitespace itself
      have := hstep.2
      rw [scanNext_of_eq_none hstop] at this
      obtain rfl : q = v := by omega
      exact hv
    | some stop =>
      have heq := hstep.2
      rw [scanNext_of_inertStop hstop] at heq
      subst heq
      -- a literal that ends in whitespace goes on to a line break or to the end, but behind it is
      -- ink
      have hsize := Bytes.lt_size_of_satAt hink
      rcases inertStop_of_isSpace hstop hspace with hend | hbreak
      · omega
      · rw [Bytes.isAt_eq_false hink rfl] at hbreak
        simp at hbreak

namespace Settles

variable {b : Bytes} {c p q : Nat}

/-- A path that starts next to another one stays next to it. Either the new path comes to where the
whitespace ends, and then it goes on as the old one, or it stays within the whitespace. -/
theorem trans_scans (h : Settles b c p) (hq : Scans b p q) : Settles b c q := by
  obtain ⟨hcp, w, hw, hpw, hspace⟩ := h
  -- the whitespace next to the path is a path of its own
  have hpath : Scans b p w := scans_of_satAt hpw hspace (Byte.excludes_opensInert rfl)
  have hpq := hq.le
  by_cases hle : w ≤ q
  · exact (hw.trans (hpath.of_le hq hle)).settles
  · exact ⟨by omega, w, hw, by omega, fun k hk hkw => hspace k (by omega) hkw⟩

/-- Being next to a path carries over from path to path. -/
theorem trans (h₁ : Settles b c p) (h₂ : Settles b p q) : Settles b c q := by
  -- the second path ends next to the first one, and the whitespace at both ends adds up
  obtain ⟨hpq, w, hw, hqw, hspace⟩ := h₂
  obtain ⟨-, v, hv, hwv, hspace'⟩ := h₁.trans_scans hw
  refine ⟨by have := h₁.1; omega, v, hv, by omega, fun k hk hkv => ?_⟩
  by_cases hkw : k < w
  · exact hspace k hk hkw
  · exact hspace' k (by omega) hkv

/-- **A path that starts next to another one joins it before it comes to ink.** Unless the path has
joined already, the place is the last blank before the old path, and then `Scans.of_succ`
applies. -/
theorem scans_of_startsInk (h : Settles b c p) (hq : Scans b p q) (hink : StartsInk b q) :
    Scans b c q := by
  obtain ⟨hcp, w, hw, hpw, hspace⟩ := h
  have hpath : Scans b p w := scans_of_satAt hpw hspace (Byte.excludes_opensInert rfl)
  have hpq := hq.le
  by_cases hle : w ≤ q
  · exact hw.trans (hpath.of_le hq hle)
  · -- otherwise `q` is the last blank before `w`
    have hqspace := hspace q hpq (by omega)
    have hclash {k : Nat} (h₁ : b.satAt k Byte.isSpace = true)
        (h₂ : b.satAt k (fun c => !c.isSpace) = true) : False := by
      rw [Bytes.satAt_not (Bytes.lt_size_of_satAt h₁), h₁] at h₂
      simp at h₂
    rcases hink with hink | ⟨-, hink⟩
    · exact (hclash hqspace hink).elim
    · obtain rfl : q + 1 = w := by
        apply Nat.le_antisymm (by omega)
        apply Nat.le_of_not_lt
        intro hlt
        exact hclash (hspace (q + 1) (by omega) hlt) hink
      exact hw.of_succ (by omega) hqspace hink

/-- From a place next to the path, the path is rejoined. -/
theorem scans_of_le (h : Settles b c p) (hq : Scans b c q) (hpq : p ≤ q) : Scans b p q := by
  obtain ⟨hcp, w, hw, hpw, hspace⟩ := h
  -- either the path from `c` is met again at `w`, or `q` lies within the whitespace before it
  by_cases hle : w ≤ q
  · exact (scans_of_satAt hpw hspace (Byte.excludes_opensInert rfl)).trans (hw.of_le hq hle)
  · exact scans_of_satAt hpq (fun k hk hkq => hspace k hk (by omega))
      (Byte.excludes_opensInert rfl)

end Settles

/-! ### What stands before a path -/

theorem scanNext_append_right (x y : Bytes) (i : Nat) :
    scanNext (x ++ y) (x.size + i) = x.size + scanNext y i := by
  rw [scanNext, scanNext, inertStop_append_right]
  cases inertStop y i <;> rfl

/-- **A path does not depend on what stands before it.** From right to left the steps are lifted one
by one. From left to right the path is followed from its start, and each of its places is shown to
lie in the second text. -/
theorem scans_append_right_iff {x y : Bytes} {i j : Nat} :
    Scans (x ++ y) (x.size + i) (x.size + j) ↔ Scans y i j := by
  constructor
  · intro h
    -- the end of the path is generalized, since the steps before the last one end elsewhere
    obtain ⟨k, hk, hscan⟩ : ∃ k, x.size + j = x.size + k ∧ Scans y i k := by
      generalize x.size + j = q at h
      induction h with
      | refl => exact ⟨i, rfl, Scans.refl y i⟩
      | tail _ hstep ih =>
        obtain ⟨k, rfl, hscan⟩ := ih
        refine ⟨scanNext y k, ?_, hscan.tail ⟨?_, rfl⟩⟩
        · rw [hstep.2, scanNext_append_right]
        · have := hstep.1
          rw [Array.size_append] at this
          omega
    obtain rfl : j = k := by omega
    exact hscan
  · intro h
    refine Relation.ReflTransGen.lift (x.size + ·) (fun k l hstep => ?_) i j h
    refine ⟨?_, ?_⟩
    · show x.size + k < (x ++ y).size
      have := hstep.1
      rw [Array.size_append]
      omega
    · show x.size + l = scanNext (x ++ y) (x.size + k)
      rw [scanNext_append_right, hstep.2]

/-! ### What stands behind a path -/

/-- A step is the same in two texts that agree on the bytes it takes and, lest a line comment goes
on or a slash becomes a comment, on the byte behind them. Over a literal this is `inertStop_congr`;
over a single byte it is `inertStop_eq_none_congr`, or it is enough that the byte is no slash. -/
private theorem scanNext_congr {b b' : Bytes} {i m : Nat} (hsize : scanNext b i < b.size)
    (hagree : ∀ k, i + k < scanNext b i → b[i + k]? = b'[m + k]?)
    (hend : b[scanNext b i]? = b'[m + (scanNext b i - i)]? ∨
      b.isAt (scanNext b i) '\n' = false ∧ (b.isAt i '/' = true → (inertStop b i).isSome)) :
    scanNext b' m = m + (scanNext b i - i) := by
  have hlt := lt_scanNext b i
  cases h : inertStop b i with
  | some stop =>
    rw [scanNext_of_inertStop h] at hsize hagree hend ⊢
    -- a literal: only a line comment can tell what follows, and it is ended by the same line break
    refine scanNext_of_inertStop (inertStop_congr h hagree (fun hbreak => ?_) fun _ => by omega)
    rcases hend with hend | ⟨hnot, -⟩
    · rw [← Bytes.isAt_congr hend]
      exact hbreak
    · rw [hbreak] at hnot
      simp at hnot
  | none =>
    rw [scanNext_of_eq_none h] at hsize hagree hend ⊢
    have hhead := hagree 0 (by omega)
    rw [Nat.add_zero, Nat.add_zero] at hhead
    rw [Nat.add_sub_cancel_left] at hend ⊢
    -- one byte: a slash could become a comment by what follows it
    apply scanNext_of_eq_none
    rcases hend with hend | ⟨-, hslash⟩
    · exact inertStop_eq_none_congr h hhead hend
    · -- a single byte that is no slash tells that no literal starts
      apply inertStop_eq_none
      rw [← Bytes.satAt_congr hhead]
      have hnot : b.isAt i '/' = false := by
        cases hat : b.isAt i '/' with
        | false => rfl
        | true => simpa [h] using hslash hat
      exact opensInert_of_inertStop_eq_none h hnot

/-- **A path is the same in two texts that agree on it and on the byte where it ends.** By induction
from the start of the path, so that the texts agree on what is left of it. -/
theorem Scans.congr {b b' : Bytes} {i j m : Nat} (h : Scans b i j) (hj : j < b.size)
    (hagree : ∀ k, i + k ≤ j → b[i + k]? = b'[m + k]?) : Scans b' m (m + (j - i)) := by
  induction h using Relation.ReflTransGen.head_induction_on generalizing m with
  | refl => rw [Nat.sub_self]; exact Scans.refl b' m
  | @head i s hstep hrest ih =>
    obtain ⟨hi, rfl⟩ := hstep
    -- the first step reads the byte behind it at most, and that one still belongs to the path
    have hlt := lt_scanNext b i
    have hle : scanNext b i ≤ j := Scans.le hrest
    have hnext : scanNext b' m = m + (scanNext b i - i) := by
      refine scanNext_congr (by omega) (fun k hk => hagree k (by omega)) (.inl ?_)
      have := hagree (scanNext b i - i) (by omega)
      rwa [Nat.add_sub_cancel' (Nat.le_of_lt hlt)] at this
    have hi' : m < b'.size := Bytes.lt_size_congr (hagree 0 (by omega)) hi
    have := ih (m := scanNext b' m) fun k hk => by
      have := hagree (scanNext b i - i + k) (by omega)
      rwa [← Nat.add_assoc, ← Nat.add_assoc, Nat.add_sub_cancel' (Nat.le_of_lt hlt),
        ← hnext] at this
    rw [show m + (j - i) = scanNext b' m + (j - scanNext b i) by omega]
    exact Relation.ReflTransGen.head ⟨hi', rfl⟩ this

/-! ### Paths without regular expressions -/

/-- Every slash on the path from offset `c` opens a comment. -/
def Clean (b : Bytes) (c : Nat) : Prop :=
  ∀ q, Scans b c q → b.isAt q '/' = true → (inertStop b q).isSome = true

/-- A step of a scan that meets no slash but one that opens a comment. -/
def LexStep (b : Bytes) (i j : Nat) : Prop :=
  ScanStep b i j ∧ (b.isAt i '/' = true → (inertStop b i).isSome = true)

/-- **A scan from offset `i` comes to offset `j` and reads all that the lexer reads.** -/
def Lexes (b : Bytes) : Nat → Nat → Prop :=
  Relation.ReflTransGen (LexStep b)

theorem Lexes.trans {b : Bytes} {i j k : Nat} (h₁ : Lexes b i j) (h₂ : Lexes b j k) :
    Lexes b i k :=
  Relation.ReflTransGen.trans h₁ h₂

namespace Clean

variable {b : Bytes} {c p q : Nat}

theorem of_scans (h : Clean b c) (hp : Scans b c p) : Clean b p :=
  fun k hk => h k (hp.trans hk)

/-- Whitespace holds no slash, so a place next to a clean path starts one. A slash is ink, so a path
from such a place has joined the clean one before it comes to the slash. -/
theorem of_settles (h : Clean b c) (hp : Settles b c p) : Clean b p := by
  intro k hk hslash
  refine h k (hp.scans_of_startsInk hk (.inl ?_)) hslash
  rw [Bytes.satAt_not (Bytes.lt_size_of_isAt hslash),
    Bytes.satAt_of_isAt hslash]
  rfl

/-- On a clean path every scan reads all that the lexer reads. -/
theorem lexes (h : Clean b p) (hq : Scans b p q) : Lexes b p q := by
  induction hq with
  | refl => exact Relation.ReflTransGen.refl
  | tail hscan hstep ih => exact ih.tail ⟨hstep, h _ hscan⟩

/-- Whether a path is clean does not depend on what stands before it. -/
theorem append_right {x y : Bytes} {i : Nat} :
    Clean (x ++ y) (x.size + i) ↔ Clean y i := by
  have hat (j : Nat) : (x ++ y).isAt (x.size + j) '/' = y.isAt j '/' :=
    Bytes.isAt_congr (Bytes.getElem?_append_add x y j) '/'
  constructor
  · intro h j hj hslash
    have := h (x.size + j) (scans_append_right_iff.mpr hj) (by rw [hat]; exact hslash)
    rwa [inertStop_append_right, Option.isSome_map] at this
  · intro h q hq hslash
    obtain ⟨j, rfl⟩ : ∃ j, q = x.size + j := ⟨q - x.size, by have := hq.le; omega⟩
    rw [inertStop_append_right, Option.isSome_map]
    rw [hat] at hslash
    exact h j (scans_append_right_iff.mp hq) hslash

end Clean

/-- **What the lexer reads does not depend on what follows**, if no line comment is cut. By
induction from the start of the path. The last step is the one where the texts may differ behind it,
and neither a line break nor a slash makes use of that. -/
theorem Lexes.congr {b b' : Bytes} {i j m : Nat} (h : Lexes b i j) (hj : j < b.size)
    (hbreak : b.isAt j '\n' = false) (hagree : ∀ k, i + k < j → b[i + k]? = b'[m + k]?) :
    Lexes b' m (m + (j - i)) := by
  induction h using Relation.ReflTransGen.head_induction_on generalizing m with
  | refl => rw [Nat.sub_self]; exact Relation.ReflTransGen.refl
  | @head i s hstep hrest ih =>
    obtain ⟨⟨hi, rfl⟩, hslash⟩ := hstep
    have hlt := lt_scanNext b i
    have hle : scanNext b i ≤ j :=
      Scans.le (Relation.ReflTransGen.mono (fun _ _ hs => hs.1) _ _ hrest)
    -- as in `Scans.congr`, but the byte where the path ends may be another one
    have hhead : b[i]? = b'[m]? := hagree 0 (by omega)
    have hnext : scanNext b' m = m + (scanNext b i - i) := by
      refine scanNext_congr (by omega) (fun k hk => hagree k (by omega)) ?_
      -- behind the last step the texts may differ, but there is no line break
      rcases Nat.lt_or_eq_of_le hle with hin | hend
      · left
        have := hagree (scanNext b i - i) (by omega)
        rwa [Nat.add_sub_cancel' (Nat.le_of_lt hlt)] at this
      · exact .inr ⟨hend ▸ hbreak, hslash⟩
    have hi' : m < b'.size := Bytes.lt_size_congr hhead hi
    have hslash' : b'.isAt m '/' = true → (inertStop b' m).isSome = true := by
      intro hat
      rw [← Bytes.isAt_congr hhead] at hat
      obtain ⟨stop, hstop⟩ := Option.isSome_iff_exists.mp (hslash hat)
      -- a comment takes more than one byte, and so does the step over it in `b'`
      cases hnone : inertStop b' m with
      | some => rfl
      | none =>
        have hone := scanNext_of_eq_none hnone
        have htwo := (comment_of_inertStop hstop hat).1
        rw [scanNext_of_inertStop hstop] at hnext
        omega
    have := ih (m := scanNext b' m) fun k hk => by
      have := hagree (scanNext b i - i + k) (by omega)
      rwa [← Nat.add_assoc, ← Nat.add_assoc, Nat.add_sub_cancel' (Nat.le_of_lt hlt),
        ← hnext] at this
    rw [show m + (j - i) = scanNext b' m + (j - scanNext b i) by omega]
    exact Relation.ReflTransGen.head ⟨⟨hi', rfl⟩, hslash'⟩ this

end TypeErasure
