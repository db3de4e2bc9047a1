import TypeErasure.Sources

/-!
# Actions

A command accesses files and prints in some order, and whatever it has done when it fails stays
done. An `Action` is a function from the `World` before it to the world after it that gives a value
or an error along with it. The world keeps a log of all accesses, so that it can be said what came
before what.
-/

namespace TypeErasure

/-- An access to the files or to the standard output. -/
inductive Access where
  | read (path : String)
  /-- A look whether a path leads to a directory. -/
  | test (path : String)
  | walk (path : String)
  | create (path : String)
  | write (place : List String) (content : Bytes)
  | print (text : Bytes)
  deriving DecidableEq, Repr

/-- The files, what has been printed, and all accesses so far. -/
structure World where
  files : FileSystem
  stdout : Bytes := #[]
  /-- The lines of the standard error. -/
  stderr : List String := []
  log : List Access := []

/-- The world with one more access on record. -/
def World.note (w : World) (access : Access) : World :=
  { w with log := w.log ++ [access] }

/-- What is done to the world, and the value or error that it ends with. -/
def Action (ε α : Type) : Type :=
  World → Except ε α × World

namespace Action

variable {ε α β : Type}

/-- One action after another. An error ends both. -/
protected def bind (x : Action ε α) (f : α → Action ε β) : Action ε β := fun w =>
  match x w with
  | (.error e, w) => (.error e, w)
  | (.ok a, w) => f a w

instance : Monad (Action ε) where
  pure a := fun w => (.ok a, w)
  bind := Action.bind

/-- Ends with an error. -/
def fail (e : ε) : Action ε α := fun w =>
  (.error e, w)

/-! ### Accesses -/

/-- Takes note of an access that changes nothing, and gives what it shows. -/
def look (access : Access) (view : FileSystem → α) : Action ε α := fun w =>
  (.ok (view w.files), w.note access)

/-- Reads a text. -/
def readText (path : String) : Action ε (Except AccessFault Bytes) :=
  look (.read path) (·.readText path)

/-- Opens a file for writing. -/
def create (path : String) : Action ε (Except AccessFault (List String)) := fun w =>
  match w.files.create path with
  | .error e => (.ok (.error e), w.note (.create path))
  | .ok (place, files) => (.ok (.ok place), { w with files }.note (.create path))

/-- Writes to an open file. -/
def writeAll (place : List String) (content : Bytes) : Action ε (Except AccessFault Unit) :=
  fun w =>
    (.ok (w.files.writeAll place content).1,
      { w with files := (w.files.writeAll place content).2 }.note (.write place content))

/-- Writes a file: opens it, and writes to it if that has not failed. -/
def writeFile (path : String) (content : Bytes) : Action ε (Except AccessFault Unit) := do
  match ← create path with
  | .error e => pure (.error e)
  | .ok place => writeAll place content

/-- Prints a text. -/
def print (text : Bytes) : Action ε Unit := fun w =>
  (.ok (), { w with stdout := w.stdout ++ text }.note (.print text))

/-- Prints a line to the standard error. -/
def report (line : String) : Action ε Unit := fun w =>
  (.ok (), { w with stderr := w.stderr ++ [line] })

/-! ### Inputs -/

/-- **The files that an input stands for**: the source files below a directory, or else the input
itself. -/
def expand (walk : Walker) (input : String) : Action ε (List String) := do
  if ← look (.test input) (·.isDir input) then
    look (.walk input) fun files => (walk files input Entry.isWanted).filterMap sourceOf?
  else pure [input]

/-- Looks up the files that several inputs stand for, one input after the other. -/
def collect (walk : Walker) : List String → Action ε (List String)
  | [] => pure []
  | input :: rest => do
    let files ← expand walk input
    let more ← collect walk rest
    pure (files ++ more)

end Action

end TypeErasure
