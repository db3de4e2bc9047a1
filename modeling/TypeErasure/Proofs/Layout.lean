import TypeErasure.Patch
import TypeErasure.Proofs.Scan

/-!
# Layouts: how a patch divides its construct

A patch falls into segments, and each construct computes their bounds in its own way. `Layout` is
what all of them have in common, and all that the theory of runs has to know about a patch:

* consecutive segments hold consecutive bytes of the text;
* a segment that is commented out is not empty, starts with ink on the path that a scan from the
  start of the construct takes, and ends next to that path;
* a nested text lies behind the start of the construct, so it is shorter than what the run has left.

`Patch.Fits` says so of a whole patch, and adds that the patch moves the run on.
-/

namespace TypeErasure

/-- **The segments divide the bytes from `i` to `j`**, for a construct that starts at offset `c`. -/
inductive Layout (b : Bytes) (c : Nat) : Nat → List Segment → Nat → Prop where
  | nil (i : Nat) : Layout b c i [] i
  | keep {i j k : Nat} {rest : List Segment} (hij : i ≤ j) (hj : j ≤ b.size)
      (tail : Layout b c j rest k) : Layout b c i (.keep b i j :: rest) k
  | erase {i j k : Nat} {rest : List Segment} (hij : i < j) (hj : j ≤ b.size)
      (hscan : Scans b c i) (hink : StartsInk b i) (hend : Settles b c j)
      (tail : Layout b c j rest k) : Layout b c i (.erase b i j :: rest) k
  | nested {i j k : Nat} {rest : List Segment} (hij : i ≤ j) (hj : j ≤ b.size) (hci : c < i)
      (hscan : Scans b c i) (hend : Settles b c j)
      (htrim : i < j → b.satAt (j - 1) Byte.isSpace = false)
      (tail : Layout b c j rest k) : Layout b c i (.nested (b.slice i j) :: rest) k

namespace Layout

variable {b : Bytes} {c i j k : Nat} {segments rest : List Segment}

/-- A layout can be continued by another that starts where it ends. -/
theorem append (h : Layout b c i segments j) (hrest : Layout b c j rest k) :
    Layout b c i (segments ++ rest) k := by
  induction h with
  | nil => exact hrest
  | keep hij hj _ ih => exact .keep hij hj (ih hrest)
  | erase hij hj hscan hink hend _ ih => exact .erase hij hj hscan hink hend (ih hrest)
  | nested hij hj hci hscan hend htrim _ ih =>
    exact .nested hij hj hci hscan hend htrim (ih hrest)

/-- A layout leads forward. -/
theorem le (h : Layout b c i segments j) : i ≤ j := by
  induction h with
  | nil => exact Nat.le_refl _
  | keep hij _ _ ih => exact Nat.le_trans hij ih
  | erase hij _ _ _ _ _ ih => exact Nat.le_trans (Nat.le_of_lt hij) ih
  | nested hij _ _ _ _ _ _ ih => exact Nat.le_trans hij ih

/-- A layout that starts within the text ends within it. -/
theorem le_size (h : Layout b c i segments j) (hi : i ≤ b.size) : j ≤ b.size := by
  induction h with
  | nil => exact hi
  | keep _ hj _ ih => exact ih hj
  | erase _ hj _ _ _ _ ih => exact ih hj
  | nested _ hj _ _ _ _ _ ih => exact ih hj

/-- **A nested text is shorter than what follows the start of its construct.** By induction on the
layout. The run on a nested text ends because of this. -/
theorem size_lt_of_nested (h : Layout b c i segments j) {t : Bytes}
    (ht : Segment.nested t ∈ segments) : t.size < b.size - c := by
  induction h with
  | nil => simp at ht
  | keep _ _ _ ih => exact ih (by simpa [Segment.keep] using ht)
  | erase _ _ _ _ _ _ ih => exact ih (by simpa [Segment.erase] using ht)
  | @nested i j k rest hij hj hci _ _ _ _ ih =>
    rcases List.mem_cons.mp ht with heq | hmem
    · -- the slice starts behind `c` and ends within the text
      obtain rfl := Segment.nested.inj heq
      rw [Bytes.slice, Array.size_extract]
      omega
    · exact ih hmem

end Layout

/-- **The patch of a construct that starts at offset `start`**: its segments divide the construct,
and it ends behind its start, next to the path of a scan. -/
structure Patch.Fits (p : Patch) (b : Bytes) (start : Nat) : Prop where
  layout : Layout b start start p.segments p.stop
  lt_stop : start < p.stop
  settles : Settles b start p.stop

/-- A construct that is commented out whole. It has a single segment, and its start is on the path
that starts there. -/
theorem Patch.erase_fits {b : Bytes} {start stop : Nat} (hstop : start < stop)
    (hsize : stop ≤ b.size) (hink : StartsInk b start) (hend : Settles b start stop) :
    (Patch.erase b start stop).Fits b start where
  layout := .erase hstop hsize (Scans.refl b start) hink hend (.nil stop)
  lt_stop := hstop
  settles := hend

/-! ### Ends of constructs -/

/-- What starts with ink is not trimmed away. Two bytes at least are asked for, since the ink may be
the second one. -/
theorem lt_trimEnd_of_startsInk {b : Bytes} {start stop : Nat} (hink : StartsInk b start)
    (hstop : start + 1 < stop) : start < b.trimEnd start stop := by
  rcases hink with hink | ⟨-, hink⟩
  · -- the first byte itself is ink
    rw [Bytes.satAt_not (Bytes.lt_size_of_satAt hink), Bool.not_eq_true'] at hink
    exact Bytes.lt_trimEnd (by omega) hink
  · rw [Bytes.satAt_not (Bytes.lt_size_of_satAt hink), Bool.not_eq_true'] at hink
    -- the ink behind the blank stops the trimming
    have := Bytes.lt_trimEnd_of_not_isSpace start hstop hink
    omega

theorem startsInk_of_satAt {b : Bytes} {i : Nat} {p : Byte → Bool} (h : b.satAt i p = true)
    (hp : Byte.Excludes p Byte.isSpace) : StartsInk b i := by
  left
  rw [Bytes.satAt_not (Bytes.lt_size_of_satAt h), Bytes.satAt_eq_false h hp]
  rfl

theorem startsInk_of_isAt {b : Bytes} {i : Nat} {ch : Char} (h : b.isAt i ch = true)
    (hch : (Byte.ofChar ch).isSpace = false) : StartsInk b i := by
  left
  rw [Bytes.satAt_of_isAt h, hch]
  rfl

/-- A statement ends behind its `;`, or next to the place where its last type ends. -/
theorem settles_statementStop {b : Bytes} {start stop : Nat} (h : Scans b start stop) :
    Settles b start (statementStop b start stop) := by
  unfold statementStop
  split
  · rename_i hsemi
    exact (h.trans (scans_isAt hsemi rfl)).settles
  · exact settles_trimEnd h (Nat.le_refl _) h.le

/-- A statement of two bytes or more that starts with ink is not trimmed away. -/
theorem lt_statementStop {b : Bytes} {start stop : Nat} (hink : StartsInk b start)
    (hstop : start + 1 < stop) : start < statementStop b start stop := by
  unfold statementStop
  split
  · omega
  · exact lt_trimEnd_of_startsInk hink hstop

/-- The end of a statement lies within the text. -/
theorem statementStop_le_size {b : Bytes} {start stop : Nat} (h : stop ≤ b.size) :
    statementStop b start stop ≤ b.size := by
  unfold statementStop
  split
  · rename_i hsemi
    exact Bytes.lt_size_of_isAt hsemi
  · exact Nat.le_trans (b.trimEnd_le start stop) h

end TypeErasure
