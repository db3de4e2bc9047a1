import TypeErasure.Proofs.Path
import TypeErasure.Sources.Walk

/-!
# Walks in pre-order

What is relied on of a `Walker`, and no more than that: it comes to a directory before its entries,
to these in the order of their names, and neither comes to an entry that it is told to leave out nor
enters it. These are the rules of `Walks`, and a walker for which they hold is one with
`Walker.Laws`.

Main statement: the walk in the order of names obeys the laws (`Walker.laws_byName`).
-/

namespace TypeErasure

/-- What a walk goes through: a tree with its path, its name and its depth, or the entries of the
directory at a path, with the depth that they have. -/
inductive WalkPart where
  | tree (path name : String) (depth : Nat) (t : FileTree)
  | entries (path : String) (depth : Nat) (entries : List (String × FileTree))

/-- **The entries that a walk comes to**, in the order in which it does. -/
inductive Walks (keep : Entry → Bool) : WalkPart → List Entry → Prop where
  /-- What the test refuses is left out, with all that is below it. -/
  | refused {path name : String} {depth : Nat} {t : FileTree}
      (h : keep ⟨path, name, depth, t.kind⟩ = false) : Walks keep (.tree path name depth t) []
  | file {path name : String} {depth : Nat} {content : Bytes}
      (h : keep ⟨path, name, depth, .file⟩ = true) :
      Walks keep (.tree path name depth (.file content)) [⟨path, name, depth, .file⟩]
  /-- A directory comes first, and its entries follow in the order of the bytes of their names. -/
  | dir {path name : String} {depth : Nat} {entries sorted : List (String × FileTree)}
      {below : List Entry} (h : keep ⟨path, name, depth, .dir⟩ = true)
      (perm : sorted.Perm entries)
      (order : sorted.Pairwise fun a b => (Bytes.ofString a.1).toList ≤ (Bytes.ofString b.1).toList)
      (walks : Walks keep (.entries path (depth + 1) sorted) below) :
      Walks keep (.tree path name depth (.dir entries)) (⟨path, name, depth, .dir⟩ :: below)
  | nil {path : String} {depth : Nat} : Walks keep (.entries path depth []) []
  /-- The path of an entry is that of its directory with its name appended. -/
  | cons {path name : String} {depth : Nat} {t : FileTree} {rest : List (String × FileTree)}
      {visited more : List Entry}
      (first : Walks keep (.tree (FileSystem.push path name) name depth t) visited)
      (others : Walks keep (.entries path depth rest) more) :
      Walks keep (.entries path depth ((name, t) :: rest)) (visited ++ more)

/-- **What is relied on of a walker.** -/
structure Walker.Laws (walk : Walker) : Prop where
  /-- A directory in which everything can be accessed is walked in pre-order from depth zero on, and
  no fault is met. -/
  preorder : ∀ (fs : FileSystem) (path : String) (keep : Entry → Bool)
    (entries : List (String × FileTree)), fs.find path = .ok (.dir entries) →
    ∃ visited, Walks keep (.tree path (FileSystem.lastName path) 0 (.dir entries)) visited ∧
      walk fs path keep = visited.map .ok

/-! ### The walk in the order of names -/

/-- Names that are sorted as texts are sorted by their bytes. -/
private theorem Bytes.ofString_le {s t : String} (h : s ≤ t) :
    (ofString s).toList ≤ (ofString t).toList := by
  intro hlt
  by_cases heq : s = t
  · subst heq
    exact List.lt_irrefl _ hlt
  · -- different texts are strictly ordered, and so are their bytes
    have hst : s < t := by
      apply Decidable.byContradiction
      intro hnot
      exact heq (String.le_antisymm h (String.not_lt.mp hnot))
    exact List.lt_asymm hlt (ofString_lt hst)

namespace Walker

variable {keep : Entry → Bool}

/-- The branches of a directory are its entries, each with the walk through it. -/
private theorem branches_eq_map (path : String) (depth : Nat) (entries : List (String × FileTree)) :
    branches keep path depth entries = entries.map fun entry =>
      (entry.1, visits keep (FileSystem.push path entry.1) entry.1 depth entry.2) := by
  induction entries with
  | nil => rw [branches, List.map_nil]
  | cons entry rest ih =>
    obtain ⟨name, t⟩ := entry
    rw [branches, ih, List.map_cons]

/-- Entries are walked one after the other, if each of them is. By induction on the entries, by the
rules for them. -/
private theorem walks_flatMap {path : String} {depth : Nat} {entries : List (String × FileTree)}
    (h : ∀ entry ∈ entries, Walks keep (.tree (FileSystem.push path entry.1) entry.1 depth entry.2)
      (visits keep (FileSystem.push path entry.1) entry.1 depth entry.2)) :
    Walks keep (.entries path depth entries) (entries.flatMap fun entry =>
      visits keep (FileSystem.push path entry.1) entry.1 depth entry.2) := by
  induction entries with
  | nil => exact .nil
  | cons entry rest ih =>
    rw [List.flatMap_cons]
    exact .cons (h entry List.mem_cons_self) (ih fun e he => h e (List.mem_cons_of_mem _ he))

/-- Sorting the branches of a directory is sorting its entries, since both go by the names. -/
private theorem flatMap_mergeSort_branches (path : String) (depth : Nat)
    (entries : List (String × FileTree)) :
    ((branches keep path depth entries).mergeSort fun a b => a.1 ≤ b.1).flatMap (·.2) =
      (entries.mergeSort fun a b => a.1 ≤ b.1).flatMap fun entry =>
        visits keep (FileSystem.push path entry.1) entry.1 depth entry.2 := by
  rw [branches_eq_map,
    ← List.map_mergeSort (r := fun a b => decide (a.1 ≤ b.1)) (fun _ _ _ _ => rfl),
    List.flatMap_map]

/-- The entries of a directory, sorted by their names, are in the order of their bytes. -/
private theorem pairwise_mergeSort (entries : List (String × FileTree)) :
    (entries.mergeSort fun a b => a.1 ≤ b.1).Pairwise fun a b =>
      (Bytes.ofString a.1).toList ≤ (Bytes.ofString b.1).toList := by
  have hsorted := @List.pairwise_mergeSort (String × FileTree) (fun a b => a.1 ≤ b.1)
    (fun a b c hab hbc => by simpa using String.le_trans (by simpa using hab) (by simpa using hbc))
    (fun a b => by simpa using String.le_total a.1 b.1) entries
  exact hsorted.imp fun hab => Bytes.ofString_le (by simpa using hab)

mutual

/-- The walk in the order of names goes by the rules. The recursion is that of `visits`: a directory
is walked as its entries are. -/
private theorem walks_visits (keep : Entry → Bool) (path name : String) (depth : Nat) :
    ∀ t, Walks keep (.tree path name depth t) (visits keep path name depth t)
  | .file content => by
    rw [visits]
    split
    · rename_i hkeep
      -- a file is come to if the test does not refuse it
      exact .file hkeep
    · rename_i hkeep
      exact .refused (Bool.eq_false_iff.mpr hkeep)
  | .dir entries => by
    rw [visits]
    split
    · -- the entries are walked in their order, each as its own recursion says
      rename_i hkeep
      rw [flatMap_mergeSort_branches]
      refine .dir hkeep (List.mergeSort_perm _ _) (pairwise_mergeSort entries)
        (walks_flatMap fun entry hentry => ?_)
      exact walks_entries keep entries entry (List.mem_mergeSort.mp hentry) path (depth + 1)
    · rename_i hkeep
      exact .refused (Bool.eq_false_iff.mpr hkeep)

/-- Each entry of a directory is walked by the rules. The recursion goes through the entries. -/
private theorem walks_entries (keep : Entry → Bool) :
    ∀ (entries : List (String × FileTree)), ∀ entry ∈ entries, ∀ (path : String) (depth : Nat),
      Walks keep (.tree (FileSystem.push path entry.1) entry.1 depth entry.2)
        (visits keep (FileSystem.push path entry.1) entry.1 depth entry.2)
  | [], _, hmem, _, _ => absurd hmem List.not_mem_nil
  | (name, t) :: rest, entry, hmem, path, depth => by
    rcases List.mem_cons.mp hmem with rfl | hmem
    · exact walks_visits keep _ name depth t
    · exact walks_entries keep rest entry hmem path depth

end

/-- **The walk in the order of names obeys the laws of a walker.** A directory that is found is
walked from depth zero, by `walks_visits`. -/
theorem laws_byName : Laws byName where
  preorder fs path keep entries h :=
    ⟨_, walks_visits keep path (FileSystem.lastName path) 0 (.dir entries), by rw [byName, h]⟩

end Walker

end TypeErasure
