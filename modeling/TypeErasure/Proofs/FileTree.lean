import TypeErasure.FileSystem

/-!
# Writing one file

What can be seen of a tree at a place is its `FileTree.label`: the content of a file, or that there
is a directory. Writing a file into an existing directory changes the label of one place and of no
other (`FileTree.label_get?_put`): no file is lost, no directory made, and nothing appears or
disappears above or below.

A file is opened first, which empties it, and then written to. Both steps set the content of one
place, so the first leaves no trace once the second is made (`FileSystem.setFile_setFile`).

Main statement: `FileSystem.overwritten_setFile`, which says of the access that a command makes what
it changes.
-/

namespace TypeErasure

namespace FileTree

/-- What stands at the root of a tree: the content of a file, or no content but that of a
directory. -/
def label : FileTree → Option Bytes
  | file content => some content
  | dir _ => none

/-- The first entry is the one under its name. -/
theorem lookup_cons_ite (key name : String) (t : FileTree) (rest : List (String × FileTree)) :
    ((name, t) :: rest).lookup key = if key = name then some t else rest.lookup key := by
  rw [List.lookup_cons]
  by_cases hkey : key = name
  · simp [hkey]
  · rw [if_neg hkey, beq_false_of_ne hkey]

/-- Setting an entry changes that entry and no other. The induction follows the search for the
name. -/
private theorem lookup_setEntry (name key : String) (t : FileTree)
    (entries : List (String × FileTree)) :
    (setEntry name t entries).lookup key = if key = name then some t else entries.lookup key := by
  induction entries with
  | nil => rw [setEntry, lookup_cons_ite]
  | cons entry rest ih =>
    obtain ⟨other, u⟩ := entry
    rw [setEntry, lookup_cons_ite]
    by_cases hother : other = name
    · -- the entry is replaced where it stands
      rw [if_pos hother, lookup_cons_ite, hother]
      split <;> rfl
    · -- the entry stays, and the name is searched further on
      rw [if_neg hother, lookup_cons_ite, ih]
      by_cases hkey : key = other
      · rw [if_pos hkey, if_pos hkey, if_neg (hkey ▸ hother)]
      · rw [if_neg hkey, if_neg hkey]

/-- The first name of a place selects an entry, and the others a place below that. -/
theorem get?_cons (name : String) (rest : List String) (entries : List (String × FileTree)) :
    (dir entries).get? (name :: rest) = (entries.lookup name).bind (·.get? rest) := by
  rw [get?]
  cases entries.lookup name <;> rfl

/-- The way to a place goes through directories. -/
theorem get?_cons_eq_some {t u : FileTree} {name : String} {rest : List String}
    (h : t.get? (name :: rest) = some u) :
    ∃ entries child, t = dir entries ∧ entries.lookup name = some child ∧
      child.get? rest = some u := by
  cases t with
  | file content => simp [get?] at h
  | dir entries =>
    rw [get?_cons, Option.bind_eq_some_iff] at h
    obtain ⟨child, hlookup, hchild⟩ := h
    exact ⟨entries, child, rfl, hlookup, hchild⟩

/-- A file that is put into a directory stands there. By induction on the way to the directory: the
entry that is set on each level is the one that is looked up. -/
private theorem get?_put (content : Bytes) {dirs : List String} {name : String} {t : FileTree}
    {entries : List (String × FileTree)} (h : t.get? dirs = some (dir entries)) :
    (put content (dirs ++ [name]) t).get? (dirs ++ [name]) = some (file content) := by
  induction dirs generalizing t with
  | nil =>
    rw [get?, Option.some.injEq] at h
    subst h
    rw [List.nil_append, put, put, get?_cons, lookup_setEntry, if_pos rfl]
    rfl
  | cons d ds ih =>
    obtain ⟨es, child, rfl, hlookup, hchild⟩ := get?_cons_eq_some h
    rw [List.cons_append, put, hlookup, Option.getD_some, get?_cons, lookup_setEntry, if_pos rfl]
    exact ih hchild

/-- An entry that is set twice is as if it had been set once. The second search ends where the first
one did. -/
private theorem setEntry_setEntry (name : String) (t u : FileTree)
    (entries : List (String × FileTree)) :
    setEntry name t (setEntry name u entries) = setEntry name t entries := by
  induction entries with
  | nil => simp [setEntry]
  | cons entry rest ih =>
    obtain ⟨key, old⟩ := entry
    by_cases hkey : key = name
    · rw [setEntry, if_pos hkey, setEntry, if_pos rfl, setEntry, if_pos hkey]
    · rw [setEntry, if_neg hkey, setEntry, if_neg hkey, ih, setEntry, if_neg hkey]

/-- The content that is put last counts. The induction goes down to the entry that both put their
file in, which the second one sets anew. -/
private theorem put_put (first content : Bytes) (place : List String) (t : FileTree) :
    put content place (put first place t) = put content place t := by
  induction place generalizing t with
  | nil => cases t <;> rfl
  | cons name rest ih =>
    cases t with
    | file old => rfl
    | dir entries =>
      rw [put, put, lookup_setEntry, if_pos rfl, Option.getD_some, ih, setEntry_setEntry, put]

/-- **Every other place keeps its label**, if no directory is overwritten. The induction is on the
way to the directory that the file is put into: a place through another entry is not touched, and
one through the same entry is a place of a smaller tree. -/
theorem label_get?_put (content : Bytes) {dirs : List String} {name : String} {t : FileTree}
    {entries : List (String × FileTree)} (h : t.get? dirs = some (dir entries))
    (hname : ∀ es, entries.lookup name ≠ some (dir es)) {place : List String}
    (hplace : place ≠ dirs ++ [name]) :
    ((put content (dirs ++ [name]) t).get? place).map label = (t.get? place).map label := by
  induction dirs generalizing t place with
  | nil =>
    rw [get?, Option.some.injEq] at h
    subst h
    cases place with
    | nil => rfl
    | cons first rest =>
      rw [List.nil_append, put, put, get?_cons, get?_cons, lookup_setEntry]
      by_cases hfirst : first = name
      · -- nothing stands below a file, neither below the new one nor below the old one
        obtain ⟨next, more, rfl⟩ : ∃ next more, rest = next :: more := by
          cases rest with
          | nil => exact absurd (by rw [hfirst]; rfl) hplace
          | cons next more => exact ⟨next, more, rfl⟩
        rw [if_pos hfirst, hfirst]
        cases hold : entries.lookup name with
        | none => rfl
        | some old =>
          cases old with
          | file _ => rfl
          | dir es => exact absurd hold (hname es)
      · rw [if_neg hfirst]
  | cons d ds ih =>
    obtain ⟨es, child, rfl, hlookup, hchild⟩ := get?_cons_eq_some h
    rw [List.cons_append, put, hlookup, Option.getD_some]
    cases place with
    | nil => rfl
    | cons first rest =>
      rw [get?_cons, get?_cons, lookup_setEntry]
      by_cases hfirst : first = d
      · -- the place lies below the same entry
        subst hfirst
        rw [if_pos rfl, hlookup]
        exact ih hchild fun hrest => hplace (by rw [hrest]; rfl)
      · rw [if_neg hfirst]

end FileTree

namespace FileSystem

/-- A file can be written where there is a directory for it, and no directory in its place. These
are the tests that finding the place makes. -/
private theorem writePlace_spec {fs : FileSystem} {path : String} {place : List String}
    (h : fs.writePlace path = .ok place) :
    ∃ dirs name entries, place = dirs ++ [name] ∧ fs.root.get? dirs = some (.dir entries) ∧
      ∀ es, entries.lookup name ≠ some (.dir es) := by
  unfold writePlace at h
  dsimp only at h
  -- of the ways through the function one ends without a fault
  split at h
  · simp at h
  · split at h
    · simp at h
    · rename_i dirs _
      split at h
      · rename_i entries name hdir hlast
        split at h
        · simp at h
        · split at h
          · simp at h
          · rename_i hentry
            obtain rfl := Except.ok.inj h
            exact ⟨dirs, name, entries, rfl, hdir, hentry⟩
      · simp at h
      · simp at h

/-- **One file differs**: the file at `place` has the given content in `new`, and every other place
holds what it holds in `old`. -/
structure Overwritten (old new : FileSystem) (place : List String) (content : Bytes) : Prop where
  cwd : new.cwd = old.cwd
  content : new.root.get? place = some (.file content)
  others : ∀ q, q ≠ place →
    (new.root.get? q).map FileTree.label = (old.root.get? q).map FileTree.label

/-- **Setting the file that a path leads to changes this file and nothing else**, whether it was
there before or not. The path leads to a place in an existing directory (`writePlace_spec`). -/
theorem overwritten_setFile {fs : FileSystem} {path : String} {place : List String}
    (h : fs.writePlace path = .ok place) (content : Bytes) :
    fs.Overwritten (fs.setFile place content) place content := by
  obtain ⟨dirs, name, entries, rfl, hdir, hentry⟩ := writePlace_spec h
  exact ⟨rfl, FileTree.get?_put content hdir,
    fun q hq => FileTree.label_get?_put content hdir hentry hq⟩

/-- The content that is set last counts. -/
theorem setFile_setFile (fs : FileSystem) (place : List String) (first content : Bytes) :
    (fs.setFile place first).setFile place content = fs.setFile place content := by
  rw [setFile, setFile, FileTree.put_put]
  rfl

end FileSystem

end TypeErasure
