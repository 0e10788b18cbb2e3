/-
# The command line

Reading arguments as a request, and what the program ends with.

This is what `main` makes of its arguments, with `run` choosing the command.

* `CommandLine.parse`: the request that arguments make.
* `CommandLine.run`: exit code and output.
-/
import LocalVcs.Request

namespace LocalVcs

/-- What arguments ask for. -/
inductive Invocation
  /-- A request to be carried out. -/
  | request (request : Request)
  /-- The program's version. -/
  | version
  /-- The program's help. -/
  | help
  deriving DecidableEq

namespace CommandLine

/-- The operands of a command: those before `--`, and those behind it if it stands there. -/
structure Operands where
  before : List String
  behind : Option (List String)

/-- Whether an argument before `--` is an option. -/
def isOption (argument : String) : Bool := argument.toList.head? = some '-' ∧ argument ≠ "-"

/-- Whether an argument before `--` asks for help. -/
def asksHelp (argument : String) : Bool :=
  argument = "--help" || ['-', 'h'].isPrefixOf argument.toList

/-- Splits arguments at `--`. -/
def operands (arguments : List String) : Operands :=
  let before := arguments.takeWhile (· ≠ "--")
  ⟨before, (arguments.dropWhile (· ≠ "--")).tail?⟩

/-- All operands of a command that does not tell apart where they stand. -/
def Operands.all (o : Operands) : List String := o.before ++ o.behind.getD []

/-- The request for a command with operands; `none` when the command does not take them. -/
def requestOf? (command : String) (o : Operands) : Option Request :=
  match command, o.all with
  | "init", [] => some .init
  | "add", [file] => some (.add file)
  | "commit", [] => some (.commit "")
  | "commit", [message] => some (.commit message)
  | "rm", [file] => some (.rm file)
  | "log", [] => some .log
  | "global-log", [] => some .globalLog
  | "find", [message] => some (.find message)
  | "status", [] => some .status
  | "branch", [name] => some (.branch name)
  | "rm-branch", [name] => some (.rmBranch name)
  | "reset", [commit] => some (.reset commit)
  | "merge", [branch] => some (.merge branch)
  | "checkout", _ =>
    if o.before.length ≤ 1 ∧ (o.behind.getD []).length ≤ 1 then
      some (.checkout o.before.head? (o.behind.getD []).head?)
    else none
  | _, _ => none

/-- The names of the commands. -/
def commandNames : List String :=
  ["init", "add", "commit", "rm", "log", "global-log", "find", "status", "checkout", "branch",
    "rm-branch", "reset", "merge"]

/-- The most operands that a command takes before `--`. -/
def mostOperands (command : String) : Nat :=
  if command ∈ ["init", "log", "global-log", "status"] then 0 else 1

/-- What the arguments of a command ask for.  The first option decides, unless there are too many
operands before it: it asks for help, or for nothing that can be done. -/
def parseCommand (command : String) (arguments : List String) : Option Invocation :=
  let o := operands arguments
  if command ∈ commandNames then
    match o.before.find? isOption with
    | some option =>
      let first := o.before.takeWhile fun argument => !isOption argument
      if first.length ≤ mostOperands command ∧ asksHelp option then some .help else none
    | none => (requestOf? command o).map .request
  else none

/-- What arguments ask for; `none` when they ask for nothing that can be done. -/
def parse : List String → Option Invocation
  | [] => none
  | first :: rest =>
    if first = "--version" ∨ ['-', 'V'].isPrefixOf first.toList then some .version
    else if asksHelp first then some .help
    else if first = "help" then
      if rest.all (· ∈ "help" :: commandNames) ∧ rest.length ≤ 1 then some .help else none
    else parseCommand first rest

/-- How the program ends. -/
structure Ending where
  code : Nat
  output : String
  deriving DecidableEq

/-- The name and the version of the program. -/
def versionText : String := "gitlet 0.1.0\n"

/-- The commands, one on a line. -/
def helpText : String :=
  "USAGE:\n    gitlet <COMMAND>\n\nCommands:\n" ++
    String.join (commandNames.map fun name => "  " ++ name ++ "\n")

/-- Runs the program.  A user error is printed and ends well; any other fault ends with code 1, and
arguments that ask for nothing with code 2.  A fault that is no user error comes back as well. -/
def run (settings : Settings) (arguments : List String) (t : FileTree) :
    Ending × FileTree × Option Fault :=
  match parse arguments with
  | none => (⟨2, ""⟩, t, none)
  | some .version => (⟨0, versionText⟩, t, none)
  | some .help => (⟨0, helpText⟩, t, none)
  | some (.request request) =>
    match request.perform settings true ⟨t, ""⟩ with
    | (.ok (), w) => (⟨0, w.printed⟩, w.tree, none)
    | (.error (.user error), w) => (⟨0, w.printed ++ error.message ++ "\n"⟩, w.tree, none)
    | (.error fault, w) => (⟨1, w.printed⟩, w.tree, some fault)

end CommandLine

end LocalVcs
