import TypeErasure.FileTree

/-!
# Paths and access to files

Paths are texts as they are given on a command line. Their parts are divided by `/`; an empty part
and `.` stay where they are, `..` goes up, and every part but the last has to lead to a directory.
A path that starts with `/` starts at the root, any other in the working directory.

A file is read as a whole. It is written in two steps: `FileSystem.create` makes the file, or
empties the one that is there, and `FileSystem.writeAll` then writes to it. Each step can fail, and
a write that fails has changed the file already.
-/

namespace TypeErasure

/-- Why a file cannot be read or written. -/
inductive AccessFault where
  | notFound
  | notDirectory
  | isDirectory
  | notText
  /-- Any other fault, in the words of the system. -/
  | other (message : String)
  deriving DecidableEq, Repr

/-- The wording of the fault. -/
def AccessFault.message : AccessFault → String
  | notFound => "No such file or directory (os error 2)"
  | notDirectory => "Not a directory (os error 20)"
  | isDirectory => "Is a directory (os error 21)"
  | notText => "stream did not contain valid UTF-8"
  | other message => message

/-- What a system refuses for reasons that cannot be seen from the files, such as a permission that
is missing or a disk that is full. -/
structure Faults where
  /-- Why the file at a place cannot be read. -/
  reading : List String → Option AccessFault := fun _ => none
  /-- Why the file at a place cannot be opened for writing. -/
  opening : List String → Option AccessFault := fun _ => none
  /-- Why a content cannot be written to the open file at a place, and how many of its bytes are
  written before that. -/
  writing : List String → Bytes → Option (Nat × AccessFault) := fun _ _ => none

/-- All files, the place of the working directory, and what the system refuses. -/
structure FileSystem where
  root : FileTree
  cwd : List String := []
  faults : Faults := {}

namespace FileSystem

/-! ### Paths -/

/-- The parts of a path. -/
def parts (path : String) : List String :=
  (path.toList.splitOn '/').map String.ofList

/-- A path with a name appended. -/
def push (path name : String) : String :=
  match path.toList.getLast? with
  | none => name
  | some '/' => path ++ name
  | some _ => path ++ "/" ++ name

/-- The last name of a path. A path that ends with `..` has none. -/
def fileName? (path : String) : Option String :=
  (((parts path).filter fun part => part != "" && part != ".").getLast?).filter (· != "..")

/-- The last name of a path, or the path itself if it ends with no name. -/
def lastName (path : String) : String :=
  (fileName? path).getD path

/-- The extension of a name: what follows its last dot, unless nothing stands before that dot. -/
def extension? (name : String) : Option String :=
  match name.toList.reverse.dropWhile (· != '.') with
  | [] | [_] => none
  | _ :: _ :: _ => some (String.ofList (name.toList.reverse.takeWhile (· != '.')).reverse)

/-- The place where a path starts. The empty path leads nowhere. -/
def start (fs : FileSystem) (path : String) : Except AccessFault (List String) :=
  match path.toList with
  | [] => .error .notFound
  | '/' :: _ => .ok []
  | _ :: _ => .ok fs.cwd

/-- Follows the parts of a path from a place. -/
def follow (fs : FileSystem) (place : List String) : List String →
    Except AccessFault (List String)
  | [] => .ok place
  | part :: rest =>
    match fs.root.get? place with
    | some (.dir entries) =>
      if part = "" ∨ part = "." then fs.follow place rest
      else if part = ".." then fs.follow place.dropLast rest
      else if (entries.lookup part).isSome then fs.follow (place ++ [part]) rest
      else .error .notFound
    | _ => .error .notDirectory

/-- The place that a path leads to, with what stands there. -/
def locate (fs : FileSystem) (path : String) : Except AccessFault (List String × FileTree) :=
  match fs.start path with
  | .error e => .error e
  | .ok place =>
    match fs.follow place (parts path) with
    | .error e => .error e
    | .ok place =>
      match fs.root.get? place with
      | some t => .ok (place, t)
      | none => .error .notFound

/-- The file or directory that a path leads to. -/
def find (fs : FileSystem) (path : String) : Except AccessFault FileTree :=
  (fs.locate path).map (·.2)

/-- The path leads to a directory. -/
def isDir (fs : FileSystem) (path : String) : Bool :=
  match fs.find path with
  | .ok (.dir _) => true
  | _ => false

/-! ### Reading -/

/-- The content of the file that a path leads to. -/
def read (fs : FileSystem) (path : String) : Except AccessFault Bytes :=
  match fs.locate path with
  | .error e => .error e
  | .ok (_, .dir _) => .error .isDirectory
  | .ok (place, .file content) =>
    match fs.faults.reading place with
    | some e => .error e
    | none => .ok content

/-- The content of a file that has to be valid UTF-8. -/
def readText (fs : FileSystem) (path : String) : Except AccessFault Bytes :=
  match fs.read path with
  | .error e => .error e
  | .ok content => if content.decode?.isSome then .ok content else .error .notText

/-! ### Writing -/

/-- The place at which a file can be written under the given path. Its directory has to exist, and
the path must neither end with a slash nor lead to a directory. -/
def writePlace (fs : FileSystem) (path : String) : Except AccessFault (List String) :=
  let named := ((parts path).reverse.dropWhile (· == "")).reverse
  match fs.start path with
  | .error e => .error e
  | .ok place =>
    match fs.follow place named.dropLast with
    | .error e => .error e
    | .ok place =>
      match fs.root.get? place, named.getLast? with
      | some (.dir entries), some name =>
        if named ≠ parts path ∨ name = "." ∨ name = ".." then .error .isDirectory
        else match entries.lookup name with
          | some (.dir _) => .error .isDirectory
          | _ => .ok (place ++ [name])
      | some (.dir _), none => .error .isDirectory
      | _, _ => .error .notDirectory

/-- All files, with a content set for the file at a place. -/
def setFile (fs : FileSystem) (place : List String) (content : Bytes) : FileSystem :=
  { fs with root := FileTree.put content place fs.root }

/-- Opens a file for writing: a file that is missing is made, and one that is there is emptied. -/
def create (fs : FileSystem) (path : String) : Except AccessFault (List String × FileSystem) :=
  match fs.writePlace path with
  | .error e => .error e
  | .ok place =>
    match fs.faults.opening place with
    | some e => .error e
    | none => .ok (place, fs.setFile place #[])

/-- Writes a content to the open file at a place. If that fails, the bytes up to there have been
written. -/
def writeAll (fs : FileSystem) (place : List String) (content : Bytes) :
    Except AccessFault Unit × FileSystem :=
  match fs.faults.writing place content with
  | none => (.ok (), fs.setFile place content)
  | some (written, e) => (.error e, fs.setFile place (content.slice 0 written))

end FileSystem

end TypeErasure
