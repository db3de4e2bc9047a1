import TypeErasure.Action
import TypeErasure.Erasure
import TypeErasure.Json.Reader
import TypeErasure.Token.Listing

/-!
# Commands

What the commands of the command line do, access by access.

`strip` links its inputs into one text and erases the types of that; `check` erases the types of one
file and has the result validated; `tokens` lists the tokens of one file. A failure of any kind ends
a command, and what it has done up to there stays done.

How arguments and configurations are read, directories walked and erased texts validated is not said
here: a command is given the `Tools` for that.
-/

namespace TypeErasure

/-- A command with its arguments. -/
inductive Command where
  | strip (inputs : List String) (output config : Option String) (header : Bool)
  | check (input : String) (config : Option String)
  | tokens (input : String)
  deriving DecidableEq, Repr

/-- Why a command fails. -/
inductive CommandError where
  | unreadable (path : String) (cause : AccessFault)
  | unreadableConfig (path : String) (cause : AccessFault)
  | invalidConfig (path : String) (cause : ReadFault)
  | stalled (cause : Stall)
  | unwritable (path : String) (cause : AccessFault)
  deriving DecidableEq, Repr

/-- The wording of the error. What is wrong with a configuration is not said. -/
def CommandError.message : CommandError → String
  | unreadable path cause => s!"error: failed to read {path}: {cause.message}"
  | unreadableConfig path cause => s!"error: failed to read config {path}: {cause.message}"
  | invalidConfig path _ => s!"error: invalid config {path}"
  | stalled cause => s!"error: type erasure failed: {cause.message}"
  | unwritable path cause => s!"error: failed to write {path}: {cause.message}"

/-- A place of an erased text that does not parse. -/
structure InvalidOutput where
  file : String
  line : Nat
  column : Nat
  message : String
  deriving DecidableEq, Repr

/-- The wording of the report. -/
def InvalidOutput.report (e : InvalidOutput) : String :=
  s!"{e.file}:{e.line}:{e.column}: {e.message}"

/-! ### Tools -/

/-- What arguments ask for. -/
inductive Request where
  | command (c : Command)
  /-- Help, which is to be printed. -/
  | help (text : Bytes)
  /-- Nothing, as the arguments are wrong. -/
  | invalid (message : String)
  deriving DecidableEq, Repr

/-- A reader of configurations. -/
abbrev RulesReader := Bytes → Except ReadFault Rules

/-- A test of erased texts, given the name of the file. It finds the first place that does not
parse. -/
abbrev Validator := String → Bytes → Option InvalidOutput

/-- What the commands are given to work with. -/
structure Tools where
  parse : List String → Request
  readRules : RulesReader
  walk : Walker
  validate : Validator

/-! ### Inputs -/

/-- The rules of a configuration file, or the default rules if there is none. -/
def loadRules (read : RulesReader) : Option String → Action CommandError Rules
  | none => pure {}
  | some path => do
    match ← Action.readText path with
    | .error e => .fail (.unreadableConfig path e)
    | .ok text =>
      match read text with
      | .error e => .fail (.invalidConfig path e)
      | .ok rules => pure rules

/-- The text of an input file. -/
def loadText (path : String) : Action CommandError Bytes := do
  match ← Action.readText path with
  | .error e => .fail (.unreadable path e)
  | .ok text => pure text

/-- The line that stands before a linked file. -/
def headerLine (path : String) : Bytes :=
  Bytes.ofString s!"/* {FileSystem.lastName path} */\n"

/-- The texts of the given files in one text, each behind its header line if headers are asked
for. -/
def link (header : Bool) : List String → Action CommandError Bytes
  | [] => pure #[]
  | path :: rest => do
    let text ← loadText path
    let linked ← link header rest
    pure ((if header then headerLine path else #[]) ++ text ++ linked)

/-- The output of the erasure of a text. -/
def eraseText (rules : Rules) (text : Bytes) : Action CommandError Bytes :=
  match erase rules text with
  | .error s => .fail (.stalled s)
  | .ok e => pure e.output

/-! ### Execution -/

/-- Writes an erased text to a file, or prints it. -/
def deliver (erased : Bytes) : Option String → Action CommandError Unit
  | none => Action.print erased
  | some path => do
    match ← Action.writeFile path erased with
    | .error e => .fail (.unwritable path e)
    | .ok _ => pure ()

/-- Erases the linked inputs, and writes the result to a file or prints it. -/
def runStrip (tools : Tools) (inputs : List String) (output config : Option String)
    (header : Bool) : Action CommandError Nat := do
  let rules ← loadRules tools.readRules config
  let files ← Action.collect tools.walk inputs
  let linked ← link header files
  let erased ← eraseText rules linked
  deliver erased output
  pure 0

/-- Reports whether an erased text is valid. The status is zero if it is. -/
def reportValidity (validate : Validator) (input : String) (erased : Bytes) :
    Action CommandError Nat := do
  match validate input erased with
  | some invalid =>
    Action.report invalid.report
    pure 1
  | none =>
    Action.report s!"OK: {input}"
    pure 0

/-- Erases a file and has the result validated. -/
def runCheck (tools : Tools) (input : String) (config : Option String) :
    Action CommandError Nat := do
  let rules ← loadRules tools.readRules config
  let text ← loadText input
  let erased ← eraseText rules text
  reportValidity tools.validate input erased

/-- Lists the tokens of a file. -/
def runTokens (input : String) : Action CommandError Nat := do
  let text ← loadText input
  Action.print ((listing text).render ++ Bytes.ofString "\n")
  pure 0

/-- **What a command does.** It ends with the status of the program, or with an error. -/
def Command.run (tools : Tools) : Command → Action CommandError Nat
  | strip inputs output config header => runStrip tools inputs output config header
  | check input config => runCheck tools input config
  | tokens input => runTokens input

end TypeErasure
