import TypeErasure.FileSystem

/-!
# Source files

An input is a file that is taken as it is given, or a directory that stands for the source files
below it. A directory is left to a `Walker`, which comes from entry to entry. It is told which
entries to leave out (`Entry.isWanted`), and of those that it comes to the source files are taken
(`sourceOf?`). A place that it cannot access is passed over.
-/

namespace TypeErasure

/-! ### Walks -/

/-- What stands at an entry of a walk. -/
inductive EntryKind where
  | file
  | dir
  | other
  deriving DecidableEq, Repr

/-- An entry that a walk comes to. -/
structure Entry where
  /-- The path of the directory that the walk started from, with the names that lead here. -/
  path : String
  /-- The last of these names. -/
  name : String
  /-- How many there are: none for the directory itself. -/
  depth : Nat
  kind : EntryKind
  deriving DecidableEq, Repr

/-- A walk through the directory at a path. It leaves out the entries that the given test refuses,
and comes to the others or to the fault with which it could not access one. -/
abbrev Walker := FileSystem → String → (Entry → Bool) → List (Except String Entry)

/-! ### Inputs -/

/-- The names of the directories that are left out. -/
def skippedDirs : List String :=
  ["out", "node_modules"]

namespace Entry

/-- The entry is a directory of a name that is left out. -/
def isSkippedDir (e : Entry) : Bool :=
  e.kind == .dir && skippedDirs.contains e.name

/-- The entry is not left out. The directory that a walk starts from never is. -/
def isWanted (e : Entry) : Bool :=
  e.depth == 0 || !e.isSkippedDir

end Entry

/-- The path is that of a source file: the extension of its last name is `ts`. -/
def isSourcePath (path : String) : Bool :=
  (FileSystem.fileName? path).bind FileSystem.extension? == some "ts"

/-- The source file that a step of a walk has come to. -/
def sourceOf? : Except String Entry → Option String
  | .error _ => none
  | .ok e => if e.kind == .file && isSourcePath e.path then some e.path else none

end TypeErasure
