import TypeErasure.Bytes

/-!
# Trees of files

A `FileTree` is a file, or a directory of named trees. A place in a tree is the list of names that
leads to it from the root. `FileTree.changes` lists the files by which one tree differs from
another.
-/

namespace TypeErasure

/-- A file with its content, or a directory with its entries. -/
inductive FileTree where
  | file (content : Bytes)
  | dir (entries : List (String × FileTree))

namespace FileTree

/-! ### Places -/

/-- The tree at a place. -/
def get? : FileTree → List String → Option FileTree
  | t, [] => some t
  | file _, _ :: _ => none
  | dir entries, name :: rest =>
    match entries.lookup name with
    | none => none
    | some t => t.get? rest

/-- The entries of a directory with one entry set anew. -/
def setEntry (name : String) (t : FileTree) : List (String × FileTree) → List (String × FileTree)
  | [] => [(name, t)]
  | (key, u) :: rest => if key = name then (name, t) :: rest else (key, u) :: setEntry name t rest

/-- The tree with a file put at a place. Directories that are missing on the way are made. -/
def put (content : Bytes) : List String → FileTree → FileTree
  | [], _ => file content
  | name :: rest, dir entries =>
    dir (setEntry name (put content rest ((entries.lookup name).getD (dir []))) entries)
  | _ :: _, file old => file old

/-- The tree with a directory made at a place, unless something is there. -/
def mkdir : List String → FileTree → FileTree
  | [], t => t
  | name :: rest, dir entries =>
    dir (setEntry name (mkdir rest ((entries.lookup name).getD (dir []))) entries)
  | _ :: _, file old => file old

/-! ### Differences -/

mutual

/-- All files of a tree at `place`, with their places. -/
def files (place : List String) : FileTree → List (List String × Bytes)
  | file content => [(place, content)]
  | dir entries => entryFiles place entries

/-- All files of the entries of a directory at `place`. -/
def entryFiles (place : List String) : List (String × FileTree) → List (List String × Bytes)
  | [] => []
  | (name, t) :: rest => files (place ++ [name]) t ++ entryFiles place rest

end

/-- The files of `new` that are not the same in `old`. -/
def changes (old new : FileTree) : List (List String × Bytes) :=
  (new.files []).filter fun (place, content) =>
    match old.get? place with
    | some (file before) => before != content
    | _ => true

end FileTree

end TypeErasure
