import FilterQuery.CommandLine.Arguments
/-!
# The command line

Without a query argument the query is the whole of the standard input. What a run leaves behind is
its exit code, its output, and on the error stream the log and the error.
-/
namespace FilterQuery

/-- The standard input. -/
inductive Input
  | terminal
  | piped (bytes : ByteArray)
  /-- It cannot be read to its end, for this reason. -/
  | broken (reason : String)

/-- The text of the standard input, unchanged. -/
def Input.text : Input → Except CommandError String
  | .terminal => .error .noQuery
  | .piped bytes =>
    match String.fromUTF8? bytes with
    | some text => .ok text
    | none => .error (.input "stream did not contain valid UTF-8")
  | .broken reason => .error (.input reason)

namespace CommandArguments

def command : CommandArguments → Command
  | .check _ => .check
  | .tokens .. => .tokens
  | .tree .. => .tree

def query : CommandArguments → QueryArguments
  | .check query => query
  | .tokens query _ => query
  | .tree query _ => query

def output : CommandArguments → OutputArguments
  | .check _ => {}
  | .tokens _ output => output
  | .tree _ output => output

def request (a : CommandArguments) : Request where
  command := a.command
  json := a.output.json
  pretty := a.output.pretty
  mode := if a.query.strict then .strict else .lenient

def run (a : CommandArguments) (input : Input) : Logged QueryEvent CommandError Report := do
  let text ← Logged.ofExcept <| match a.query.query with
    | some text => .ok text
    | none => input.text
  a.request.run text

end CommandArguments

def Report.text : Report → String
  | .valid => "Syntax is valid"
  | .rendered text => text

/-- How a run ends. -/
inductive Ending
  | usage
  | success (stdout : String)
  | failure (stderr : String)
deriving DecidableEq, Repr

def Ending.exitCode : Ending → Nat
  | .usage => 2
  | .success _ => 0
  | .failure _ => 1

namespace Invocation

/-- Whether the standard input is needed. -/
def readsInput : Invocation → Bool
  | .run arguments => arguments.query.query.isNone
  | _ => false

def ending (input : Input) : Invocation → Ending
  | .usage => .usage
  | .shown text => .success text
  | .run arguments =>
    match (arguments.run input).result with
    | .ok report => .success (report.text ++ "\n")
    | .error e => .failure (e.message ++ "\n")

def log (input : Input) : Invocation → List QueryEvent
  | .run arguments => (arguments.run input).log
  | _ => []

end Invocation

/-- How a run on these arguments ends. -/
def runCommandLine (arguments : List String) (input : Input)
    (parser : ArgumentParser := argumentParser) : Ending :=
  (parser.read arguments).ending input

/-- What is written to the error stream for a record with this number in the log: a line, in which
the time may stand, or nothing if the record is not to be shown. -/
abbrev Logger := Nat → QueryEvent → String

namespace Logger

def text (logger : Logger) (records : List QueryEvent) : String :=
  String.join (records.mapIdx logger)

/-- Shows warnings only, with the time that the clock has at the record. -/
def warnings (clock : Nat → String) : Logger := fun number r =>
  if r.severity = .warn then s!"[{clock number} WARN  {r.target}] {r.message}\n" else ""

end Logger

/-- What a run leaves behind. -/
structure Outcome where
  exitCode : Nat
  stdout : String
  stderr : String
deriving DecidableEq, Repr

/-- Runs the program on arguments as the parser reads them. Errors follow the log. -/
def ArgumentParser.outcome (parser : ArgumentParser) (logger : Logger) (arguments : List String)
    (input : Input) : Outcome :=
  let ending := runCommandLine arguments input parser
  let log := logger.text ((parser.read arguments).log input)
  match ending with
  | .usage => ⟨ending.exitCode, "", parser.complaint arguments⟩
  | .success text => ⟨ending.exitCode, text, log⟩
  | .failure text => ⟨ending.exitCode, "", log ++ text⟩

end FilterQuery
