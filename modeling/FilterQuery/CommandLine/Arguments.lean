import FilterQuery.Command
/-!
# Arguments

A command takes flags, each at most once, and at most one query, in any order. Behind `--` every
argument is a query. `argumentParser` reads them one after another.
-/
namespace FilterQuery

/-- What every command takes. -/
structure QueryArguments where
  query : Option String
  strict : Bool
deriving DecidableEq, Repr

/-- What the commands that show something take as well. -/
structure OutputArguments where
  json : Bool := false
  pretty : Bool := false
deriving DecidableEq, Repr

inductive CommandArguments
  | check (query : QueryArguments)
  | tokens (query : QueryArguments) (output : OutputArguments)
  | tree (query : QueryArguments) (output : OutputArguments)
deriving DecidableEq, Repr

inductive Invocation
  /-- The arguments are refused. -/
  | usage
  /-- A text is shown in place of a run, such as the version. -/
  | shown (text : String)
  | run (arguments : CommandArguments)
deriving DecidableEq, Repr

structure ArgumentParser where
  read : List String → Invocation
  /-- What is said on the error stream about arguments that are refused. -/
  complaint : List String → String

def Command.argument : Command → String
  | .check => "check"
  | .tokens => "tokens"
  | .tree => "tree"

def Command.ofArgument? : String → Option Command
  | "check" => some .check
  | "tokens" => some .tokens
  | "tree" => some .tree
  | _ => none

inductive Flag
  | strict
  | json
  | pretty
deriving DecidableEq, Repr

def Flag.argument : Flag → String
  | .strict => "--strict"
  | .json => "--json"
  | .pretty => "--pretty"

/-- The flag that an argument gives to a command. -/
def Flag.ofArgument? (command : Command) (argument : String) : Option Flag :=
  if argument = "--strict" then some .strict
  else if command = .check then none
  else if argument = "--json" then some .json
  else if argument = "--pretty" ∨ argument = "-p" then some .pretty
  else none

/-- Whether an argument asks for a flag. A lone dash does not. -/
def isOption (argument : String) : Bool :=
  match argument.toList with
  | '-' :: _ :: _ => true
  | _ => false

/-- Whether an argument is this group of short options, or more of them behind it. -/
def startsGroup (group argument : String) : Bool := group.toList.isPrefixOf argument.toList

/-- Whether an argument asks a command for its help. `-h` may stand in a group of short options. -/
def Command.asksForHelp (command : Command) (argument : String) : Bool :=
  argument = "--help" || startsGroup "-h" argument ||
    (command ≠ .check && startsGroup "-ph" argument)

/-- What the arguments of a command have asked for so far. -/
structure Collected where
  query : Option String := none
  strict : Bool := false
  json : Bool := false
  pretty : Bool := false
  /-- Whether `--` has been read. -/
  onlyQueries : Bool := false
deriving DecidableEq, Repr

inductive ArgumentFault
  | noCommand
  | unknownCommand (argument : String)
  | unknownOption (argument : String)
  | secondQuery (argument : String)
  | repeated (flag : Flag)
deriving DecidableEq, Repr

def ArgumentFault.message : ArgumentFault → String
  | .noCommand => "a subcommand is required but was not provided"
  | .unknownCommand argument => s!"unrecognized subcommand '{argument}'"
  | .unknownOption argument => s!"unexpected argument '{argument}' found\n\n" ++
      s!"  tip: to pass '{argument}' as a value, use '-- {argument}'"
  | .secondQuery argument => s!"unexpected argument '{argument}' found"
  | .repeated flag => s!"the argument '{flag.argument}' cannot be used multiple times"

/-- Why arguments are not read to their end. -/
inductive ArgumentStop
  | help
  | fault (fault : ArgumentFault)
deriving DecidableEq, Repr

namespace Collected

def isQuery (s : Collected) (argument : String) : Bool := s.onlyQueries || !isOption argument

def has (s : Collected) : Flag → Bool
  | .strict => s.strict
  | .json => s.json
  | .pretty => s.pretty

def set (s : Collected) : Flag → Collected
  | .strict => { s with strict := true }
  | .json => { s with json := true }
  | .pretty => { s with pretty := true }

/-- Reads one more argument. -/
def take (command : Command) (s : Collected) (argument : String) : Except ArgumentStop Collected :=
  if s.isQuery argument then
    match s.query with
    | none => .ok { s with query := some argument }
    | some _ => .error (.fault (.secondQuery argument))
  else if argument = "--" then .ok { s with onlyQueries := true }
  else if command.asksForHelp argument then .error .help
  else match Flag.ofArgument? command argument with
    | none => .error (.fault (.unknownOption argument))
    | some flag => if s.has flag then .error (.fault (.repeated flag)) else .ok (s.set flag)

def arguments (s : Collected) : Command → CommandArguments
  | .check => .check ⟨s.query, s.strict⟩
  | .tokens => .tokens ⟨s.query, s.strict⟩ ⟨s.json, s.pretty⟩
  | .tree => .tree ⟨s.query, s.strict⟩ ⟨s.json, s.pretty⟩

end Collected

def versionText : String := "uql 0.1.0\n"

def usageText : Option Command → String
  | none => "Usage: uql <COMMAND>\n"
  | some command => s!"Usage: uql {command.argument} [OPTIONS] [QUERY]\n"

/-- What names behind `help` lead to: they name at most one command, or `help` itself. -/
def readHelp : List String → ArgumentStop
  | [] => .help
  | name :: names =>
    if name = "help" ∨ (Command.ofArgument? name).isSome then
      names.head?.elim .help fun other => .fault (.unknownCommand other)
    else .fault (.unknownCommand name)

def readArguments : List String → Except ArgumentStop Invocation
  | [] => .error (.fault .noCommand)
  | first :: arguments =>
    if first = "--version" ∨ startsGroup "-V" first then .ok (.shown versionText)
    else if first = "--help" ∨ startsGroup "-h" first then .error .help
    else if first = "help" then .error (readHelp arguments)
    else match Command.ofArgument? first with
      | none => .error (.fault (.unknownCommand first))
      | some command =>
        (arguments.foldlM (Collected.take command) {}).map fun s => .run (s.arguments command)

/-- Reads arguments one after another, up to the first that is at fault. -/
def argumentParser : ArgumentParser where
  read arguments :=
    match readArguments arguments with
    | .ok invocation => invocation
    | .error .help => .shown (usageText (arguments.head?.bind Command.ofArgument?))
    | .error (.fault _) => .usage
  complaint arguments :=
    match readArguments arguments with
    | .error (.fault fault) => s!"error: {fault.message}\n\n" ++
        usageText (arguments.head?.bind Command.ofArgument?) ++
        "\nFor more information, try '--help'.\n"
    | _ => ""

end FilterQuery
