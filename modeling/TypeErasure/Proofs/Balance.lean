import TypeErasure.Proofs.Cut.Class
import TypeErasure.Proofs.Reach

/-!
# Erasure swallows no bracket

What a patch comments out is enclosed (`Rules.severs`): its text closes no bracket that it does not
open, and leaves none open unless only whitespace follows. `Cuts.enclosed_of_erased` finds the place
of an erased segment in the text that its round sees, and `erased_balanced` says of all erased
pieces, those of inner runs included, how their brackets count.
-/

namespace TypeErasure

/-- **An erased segment is an enclosed range** of the text, behind the segments before it. The
segments before it are split off, and what is left starts with a segment that is erased. -/
theorem Cuts.enclosed_of_erased {b : Bytes} {i j : Nat} {before behind : List Segment} {s : Bytes}
    (h : Cuts b i (before ++ .piece (.erased s) :: behind) j) :
    i + Segment.sizeOf before + s.size ≤ b.size ∧
      b.slice (i + Segment.sizeOf before) (i + Segment.sizeOf before + s.size) = s ∧
      Enclosed b (i + Segment.sizeOf before) (i + Segment.sizeOf before + s.size) := by
  have htail := h.split.2
  generalize i + Segment.sizeOf before = start at htail ⊢
  cases htail with
  | @erase _ stop _ _ hi hij henclosed tail =>
    have hsize := tail.seam_left.le_size
    rw [Bytes.size_slice hsize, Nat.add_sub_cancel' hij]
    exact ⟨hsize, rfl, henclosed⟩

/-- **Erasure never swallows a bracket of the kept code.** Every erased piece is a segment of the
patch of a round that the run on the text, or an inner run, comes to. Whatever text `done ++ rest`
a round sees, the piece stands behind the segments before it, its running bracket count is never
negative, and the count ends at zero unless only whitespace follows it in that text. -/
theorem erased_balanced (r : Rules) (text : Bytes) :
    (∃ e, erase r text = .ok e ∧ ∀ s, .erased s ∈ e.pieces →
      ∃ done rest m, r.grammar.Reaches text done rest ∧
        r.nextMatch (done ++ rest) done.size = some m ∧
        .piece (.erased s) ∈ (patchOf (done ++ rest) m).segments) ∧
      ∀ (done rest : Bytes) (m : Match) (before behind : List Segment) (s : Bytes),
        r.nextMatch (done ++ rest) done.size = some m →
        (patchOf (done ++ rest) m).segments = before ++ .piece (.erased s) :: behind →
        let start := m.start + Segment.sizeOf before
        (done ++ rest).slice start (start + s.size) = s ∧
          (∀ n ∈ s.bracketDepths 0 0, 0 ≤ n) ∧
          ((s.bracketDepths 0 0).getLastD 0 = 0 ∨
            ∀ k, start + s.size ≤ k → k < (done ++ rest).size →
              (done ++ rest).satAt k Byte.isSpace = true) := by
  have hg := r.grammar_lawful
  obtain ⟨e, hrun, -⟩ := hg.exists_runFrom #[] text
  refine ⟨⟨e, hrun, fun s hs => hg.erased_of_run hrun .start hs⟩, ?_⟩
  -- what any round comments out, reached or not
  intro done rest m before behind s hnext hsegments
  have hcuts := (Rules.severs hnext).cuts
  rw [hsegments] at hcuts
  obtain ⟨hsize, hslice, henclosed⟩ := hcuts.enclosed_of_erased
  have hdepths := henclosed.depths hsize
  rw [hslice] at hdepths
  exact ⟨hslice, hdepths⟩

/-- A type alias whose bracket is never closed is erased to the end of the text, but for the line
break behind it. -/
theorem erased_balanced_unclosed :
    let b := Bytes.ofString "type A = (B\n"
    let s := Bytes.ofString "type A = (B"
    let m : Match := ⟨.typeAlias, ⟨0, 8⟩⟩
    Rules.nextMatch {} (#[] ++ b) 0 = some m ∧
      (patchOf (#[] ++ b) m).segments = [] ++ .piece (.erased s) :: [] ∧
      s.bracketDepths 0 0 = [0, 0, 0, 0, 0, 0, 0, 0, 0, 1, 1] ∧
      ((s.bracketDepths 0 0).getLastD 0 = 0 ∨
        ∀ k, 11 ≤ k → k < (#[] ++ b).size → Bytes.satAt (#[] ++ b) k Byte.isSpace = true) := by
  have hnext : Rules.nextMatch {} (#[] ++ Bytes.ofString "type A = (B\n") 0 =
      some ⟨.typeAlias, ⟨0, 8⟩⟩ := by decide +kernel
  have hsegments : (patchOf (#[] ++ Bytes.ofString "type A = (B\n") ⟨.typeAlias, ⟨0, 8⟩⟩).segments =
      [] ++ .piece (.erased (Bytes.ofString "type A = (B")) :: [] := by decide +kernel
  exact ⟨hnext, hsegments, by decide +kernel,
    ((erased_balanced {} #[]).2 #[] _ _ _ _ _ hnext hsegments).2.2⟩

end TypeErasure
