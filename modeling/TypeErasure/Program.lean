import TypeErasure.Command.Arguments
import TypeErasure.Rules.Reader
import TypeErasure.Sources.Walk

/-!
# The program

The program as a function from arguments and files to what is printed, the exit status and the files
afterwards. A failure of any kind ends with status two.
-/

namespace TypeErasure

/-- The world as the program leaves it, and its status. -/
structure Outcome extends World where
  status : Nat

/-- **The outcome of the given arguments** on the given files. -/
def outcome (tools : Tools) (fs : FileSystem) (args : List String) : Outcome :=
  match tools.parse args with
  | .invalid message => { files := fs, stderr := [message], status := 2 }
  | .help text => { files := fs, stdout := text, log := [.print text], status := 0 }
  | .command c =>
    match c.run tools { files := fs } with
    | (.error e, w) => { w with stderr := w.stderr ++ [e.message], status := 2 }
    | (.ok status, w) => { w with status }

/-- The tools that the program comes with, but for a validator. -/
def Tools.standard (validate : Validator) : Tools where
  parse := Request.parse
  readRules := Rules.read
  walk := Walker.byName
  validate := validate

end TypeErasure
