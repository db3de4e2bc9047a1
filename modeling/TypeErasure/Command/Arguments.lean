import TypeErasure.Command

/-!
# Command line arguments

The first argument that is not about verbosity names the command; what follows are its inputs and
options, in any order. An option takes its value from the same argument (`--opt=value`, `-ovalue`)
or from the next one, which must not look like an option. Letters of short options can stand
together in one argument. Behind `--` everything is an input. Each option can be given once, except
`-v`, and no path is empty.

Arguments are read from left to right, and the first that is wrong or asks for help decides. There
is nothing to say about wrong arguments but that they are wrong.
-/

namespace TypeErasure

/-- Why arguments name no command. -/
inductive Refusal where
  | wrong
  | help
  deriving DecidableEq, Repr

/-- The arguments of a command so far. -/
structure Arguments where
  inputs : List String := []
  output : Option String := none
  config : Option String := none
  noHeader : Bool := false
  deriving DecidableEq, Repr

/-- The options that a command knows besides verbosity and help, and whether it takes more than one
input. -/
structure Options where
  output : Bool := false
  config : Bool := false
  noHeader : Bool := false
  inputs : Bool := false
  deriving DecidableEq, Repr

/-- An option that takes a path. -/
inductive PathOption where
  | output
  | config
  deriving DecidableEq, Repr

/-- What an argument turns out to be. -/
inductive Argument where
  /-- All later arguments are inputs. -/
  | separator
  /-- An input. -/
  | input (path : String)
  /-- An option that changes nothing. -/
  | verbosity
  /-- The option that asks for help. -/
  | help
  /-- The option that drops the header lines. -/
  | noHeader
  /-- An option with its path, or without one if the next argument is to give it. -/
  | path (option : PathOption) (value : Option String)
  deriving DecidableEq, Repr

namespace Arguments

/-! ### Single arguments -/

/-- A long option behind its dashes. -/
def longOption (opts : Options) (text : List Char) : Option Argument :=
  let name := String.ofList (text.takeWhile (· != '='))
  let value := match text.dropWhile (· != '=') with
    | [] => none
    | _ :: value => some (String.ofList value)
  if name = "verbose" ∧ value = none then some .verbosity
  else if name = "help" ∧ value = none then some .help
  else if name = "no-header" ∧ value = none ∧ opts.noHeader then some .noHeader
  else if name = "output" ∧ opts.output then some (.path .output value)
  else if name = "config" ∧ opts.config then some (.path .config value)
  else none

/-- The short options behind a dash. -/
def shortOptions (opts : Options) : List Char → Option Argument
  | [] => some .verbosity
  | 'v' :: rest => shortOptions opts rest
  | 'h' :: _ => some .help
  | 'o' :: rest =>
    if opts.output then
      some <| .path .output <| match rest with
        | [] => none
        | '=' :: value => some (String.ofList value)
        | value => some (String.ofList value)
    else none
  | _ :: _ => none

/-- What an argument in front of `--` is. -/
def classify (opts : Options) (arg : String) : Option Argument :=
  match arg.toList with
  | ['-', '-'] => some .separator
  | '-' :: '-' :: text => longOption opts text
  | '-' :: c :: text => shortOptions opts (c :: text)
  | _ => some (.input arg)

/-- The argument can be the value of the option before it. -/
def isValue (arg : String) : Bool :=
  match arg.toList with
  | '-' :: _ :: _ => false
  | _ => true

/-! ### All arguments -/

/-- Adds an input. -/
def addInput (opts : Options) (a : Arguments) (path : String) : Except Refusal Arguments :=
  if path = "" ∨ (a.inputs ≠ [] ∧ !opts.inputs) then .error .wrong
  else .ok { a with inputs := a.inputs ++ [path] }

/-- Adds several inputs. -/
def addInputs (opts : Options) (a : Arguments) : List String → Except Refusal Arguments
  | [] => .ok a
  | path :: rest => (a.addInput opts path).bind fun a => a.addInputs opts rest

/-- Sets an option that takes a path, if it was not set before. -/
def setPath (a : Arguments) (option : PathOption) (path : String) : Except Refusal Arguments :=
  if path = "" then .error .wrong
  else match option with
    | .output => if a.output.isSome then .error .wrong else .ok { a with output := some path }
    | .config => if a.config.isSome then .error .wrong else .ok { a with config := some path }

/-- Drops the header lines, if that was not asked for before. -/
def setNoHeader (a : Arguments) : Except Refusal Arguments :=
  if a.noHeader then .error .wrong else .ok { a with noHeader := true }

/-- Reads the arguments of a command. -/
def parse (opts : Options) (a : Arguments) : List String → Except Refusal Arguments
  | [] => .ok a
  | arg :: rest =>
    match classify opts arg with
    | none => .error .wrong
    | some .separator => a.addInputs opts rest
    | some (.input path) => (a.addInput opts path).bind fun a => parse opts a rest
    | some .verbosity => parse opts a rest
    | some .help => .error .help
    | some .noHeader => a.setNoHeader.bind fun a => parse opts a rest
    | some (.path option (some value)) => (a.setPath option value).bind fun a => parse opts a rest
    | some (.path option none) =>
      match rest with
      | [] => .error .wrong
      | value :: rest =>
        if isValue value then (a.setPath option value).bind fun a => parse opts a rest
        else .error .wrong

end Arguments

/-! ### Help -/

/-- The help on all commands. -/
def helpText : String :=
  "Erase TypeScript types, keep the JavaScript\n" ++
  "\n" ++
  "Usage: tstrip [OPTIONS] <COMMAND>\n" ++
  "\n" ++
  "Commands:\n" ++
  "  strip   Link .ts files and directories into one script and erase its types\n" ++
  "  check   Erase types and check that the result parses as JavaScript\n" ++
  "  tokens  Dump the tokens of a file as JSON\n" ++
  "  help    Print this message or the help of the given subcommand(s)\n" ++
  "\n" ++
  "Options:\n" ++
  "  -v, --verbose...  More logging (-v debug, -vv trace). `TSTRIP_LOG` overrides\n" ++
  "  -h, --help        Print help\n"

/-- The help on `strip`. -/
def stripHelp : String :=
  "Link .ts files and directories into one script and erase its types\n" ++
  "\n" ++
  "Usage: tstrip strip [OPTIONS] <INPUTS>...\n" ++
  "\n" ++
  "Arguments:\n" ++
  "  <INPUTS>...  Input files or directories\n" ++
  "\n" ++
  "Options:\n" ++
  "  -o, --output <OUTPUT>  Output file (stdout if omitted)\n" ++
  "  -v, --verbose...       More logging (-v debug, -vv trace). `TSTRIP_LOG` overrides\n" ++
  "      --config <CONFIG>  JSON file selecting which constructs to erase\n" ++
  "      --no-header        Do not put a `/* <file name> */` line before each file\n" ++
  "  -h, --help             Print help\n"

/-- The help on `check`. -/
def checkHelp : String :=
  "Erase types and check that the result parses as JavaScript\n" ++
  "\n" ++
  "Usage: tstrip check [OPTIONS] <INPUT>\n" ++
  "\n" ++
  "Arguments:\n" ++
  "  <INPUT>  \n" ++
  "\n" ++
  "Options:\n" ++
  "      --config <CONFIG>  \n" ++
  "  -v, --verbose...       More logging (-v debug, -vv trace). `TSTRIP_LOG` overrides\n" ++
  "  -h, --help             Print help\n"

/-- The help on `tokens`. -/
def tokensHelp : String :=
  "Dump the tokens of a file as JSON\n" ++
  "\n" ++
  "Usage: tstrip tokens [OPTIONS] <INPUT>\n" ++
  "\n" ++
  "Arguments:\n" ++
  "  <INPUT>  \n" ++
  "\n" ++
  "Options:\n" ++
  "  -v, --verbose...  More logging (-v debug, -vv trace). `TSTRIP_LOG` overrides\n" ++
  "  -h, --help        Print help\n"

/-- The help on the command with the given name. -/
def helpOf? (name : String) : Option String :=
  [("strip", stripHelp), ("check", checkHelp), ("tokens", tokensHelp)].lookup name

/-! ### Requests -/

namespace Request

/-- The request of arguments that name no command, if `text` is the help that they can ask for. -/
def ofRefusal (text : String) : Refusal → Request
  | .wrong => .invalid "usage"
  | .help => .help (Bytes.ofString text)

/-- The request for help with the given arguments. -/
def ofHelp : List String → Request
  | [] => .help (Bytes.ofString helpText)
  | [name] => ((helpOf? name).map fun text => .help (Bytes.ofString text)).getD (.invalid "usage")
  | _ => .invalid "usage"

/-- The request for the command with the given name and arguments. -/
def ofName (name : String) (args : List String) : Request :=
  if name = "strip" then
    match Arguments.parse { output := true, config := true, noHeader := true, inputs := true } {}
        args with
    | .error e => ofRefusal stripHelp e
    | .ok a =>
      if a.inputs = [] then .invalid "usage"
      else .command (.strip a.inputs a.output a.config !a.noHeader)
  else if name = "check" then
    match Arguments.parse { config := true } {} args with
    | .error e => ofRefusal checkHelp e
    | .ok { inputs := [input], config, .. } => .command (.check input config)
    | .ok _ => .invalid "usage"
  else if name = "tokens" then
    match Arguments.parse {} {} args with
    | .error e => ofRefusal tokensHelp e
    | .ok { inputs := [input], .. } => .command (.tokens input)
    | .ok _ => .invalid "usage"
  else if name = "help" then ofHelp args
  else .invalid "usage"

/-- **What the arguments ask for.** -/
def parse : List String → Request
  | [] => .invalid "usage"
  | arg :: rest =>
    match Arguments.classify {} arg with
    | some .verbosity => parse rest
    | some .help => .help (Bytes.ofString helpText)
    | some (.input name) => ofName name rest
    | _ => .invalid "usage"

end Request

end TypeErasure
