import TypeErasure.Program

/-!
# The command line

The outer layer of the program. It looks at the files that the arguments name, computes the outcome,
prints it, and writes the files that it changed. All decisions are made by `outcome`.

No parser of erased texts is at hand here, so `check` reports no place that does not parse.
-/

namespace TypeErasure.Shell

/-- The path of a place. -/
def pathOf (place : List String) : String :=
  "/" ++ "/".intercalate place

/-- The place of a path without dots. -/
def placeOf (path : String) : List String :=
  (FileSystem.parts path).filter (· != "")

/-- A place as an entry of the root directory, which is how the system is asked about it. -/
def entryOf (place : List String) : IO.FS.DirEntry :=
  { root := "/", fileName := "/".intercalate place }

/-- The source files below the directory at a place, as entries of that directory. Directories are
entered to the given depth, and links within them are not followed. -/
def load : Nat → List String → IO (List (String × FileTree))
  | 0, _ => return []
  | depth + 1, place => do
    let mut entries := []
    for entry in ← (entryOf place).path.readDir do
      match (← entry.path.symlinkMetadata).type with
      | .dir =>
        if !skippedDirs.contains entry.fileName then
          entries := (entry.fileName, .dir (← load depth (place ++ [entry.fileName]))) :: entries
      | .file =>
        if isSourcePath entry.fileName then
          entries := (entry.fileName, .file (← IO.FS.readBinFile entry.path).data) :: entries
      | _ => pure ()
    return entries

/-- Adds what the parts of a path lead to from a directory on, as far as they lead to something. -/
def survey (depth : Nat) (tree : FileTree) (place : List String) : List String → IO FileTree
  | [] => do
    let found := FileTree.entryFiles place (← load depth place)
    return found.foldl (fun tree (place, content) => FileTree.put content place tree) tree
  | part :: rest => do
    if part = "" ∨ part = "." then survey depth tree place rest
    else if part = ".." then survey depth tree place.dropLast rest
    else
      let next := place ++ [part]
      if !(← (entryOf next).path.pathExists) then return tree
      else if ← (entryOf next).path.isDir then survey depth (FileTree.mkdir next tree) next rest
      else return FileTree.put (← IO.FS.readBinFile (pathOf next)).data next tree

/-- The paths that a command names: its inputs, which are read with all that is below them, and its
other files. -/
def pathsOf : Command → List String × List String
  | .strip inputs output config _ => (inputs, output.toList ++ config.toList)
  | .check input config => ([], input :: config.toList)
  | .tokens input => ([], [input])

/-- The tools of the program. -/
def tools : Tools :=
  .standard fun _ _ => none

/-- The files that the arguments name. -/
def look (args : List String) : IO FileSystem := do
  let cwd := placeOf (← IO.currentDir).toString
  let fs : FileSystem := { root := FileTree.mkdir cwd (.dir []), cwd }
  let (deep, flat) := match tools.parse args with
    | .command c => pathsOf c
    | _ => ([], [])
  let mut root := fs.root
  for (path, depth) in deep.map (·, 2048) ++ flat.map (·, 0) do
    if let .ok place := fs.start path then
      root ← survey depth root place (FileSystem.parts path)
  return { fs with root }

/-- Runs the program. -/
def run (args : List String) : IO UInt32 := do
  let fs ← look args
  let result := outcome tools fs args
  for (place, content) in fs.root.changes result.files.root do
    IO.FS.writeBinFile (pathOf place) ⟨content⟩
  (← IO.getStdout).write ⟨result.stdout⟩
  result.stderr.forM IO.eprintln
  return result.status.toUInt32

end TypeErasure.Shell

/-- The program's entry point. -/
def main (args : List String) : IO UInt32 :=
  TypeErasure.Shell.run args
