import FilterQuery.Json.Export
import FilterQuery.Node.Outline
import FilterQuery.Query
/-!
# Commands

What can be asked of a query text: whether it is valid, its tokens, or its tree.
-/
namespace FilterQuery

inductive Command
  | check
  | tokens
  | tree
deriving DecidableEq, Repr

/-- A command and its settings. `pretty` matters only together with `json`. -/
structure Request where
  command : Command := .check
  json : Bool := false
  pretty : Bool := false
  mode : Mode := .lenient
deriving DecidableEq, Repr

inductive Report
  | valid
  | rendered (text : String)
deriving DecidableEq, Repr

inductive CommandError
  | query (e : QueryError)
  /-- JSON could not be written, for this reason. -/
  | json (reason : String)
  /-- The query could not be read, for this reason. -/
  | input (reason : String)
  | noQuery
deriving DecidableEq, Repr

namespace CommandError

def message : CommandError → String
  | .query e => e.message
  | .json reason => "JSON output failed: " ++ reason
  | .input reason => "IO error: " ++ reason
  | .noQuery => "No query provided. Pass it as an argument or pipe it to stdin."

/-- The messages of what led to the error, the nearest first. -/
def sources : CommandError → List String
  | .query e => [e.message, e.cause]
  | .json reason => [reason]
  | .input reason => [reason]
  | .noQuery => []

end CommandError

namespace Request

def layout (r : Request) : Json.Layout := if r.pretty then .indented else .compact

/-- The tokens one on a line, or their JSON text. -/
def renderTokens (r : Request) (ts : List Token) : String :=
  if r.json then (tokensToJson ts).render r.layout
  else "\n".intercalate (ts.map Token.render)

/-- The outline of a tree, or its JSON text. -/
def renderTree (r : Request) (n : Node) : String :=
  if r.json then n.toJson.render r.layout else n.outline

/-- Carries out a request. The tokens of a query are shown whether or not they parse. -/
def run (r : Request) (query : String) : Logged QueryEvent CommandError Report := do
  let ts ← (scan r.mode query).lift QueryEvent.scan fun e => CommandError.query (.scan e)
  match r.command with
  | .tokens => return .rendered (r.renderTokens ts)
  | .check =>
    let _ ← (parse r.mode ts).lift QueryEvent.parse fun e => CommandError.query (.parse e)
    return .valid
  | .tree =>
    let e ← (parse r.mode ts).lift QueryEvent.parse fun e => CommandError.query (.parse e)
    return .rendered (r.renderTree e.toNode)

/-- What a request reports. -/
def execute (r : Request) (query : String) : Except CommandError Report := (r.run query).result

theorem execute_eq (r : Request) (query : String) :
    r.execute query = do
      let ts ← (tokenize r.mode query).mapError fun e => .query (.scan e)
      match r.command with
      | .tokens => return .rendered (r.renderTokens ts)
      | .check =>
        let _ ← (tokensTree r.mode ts).mapError fun e => .query (.parse e)
        return .valid
      | .tree =>
        let tree ← (tokensTree r.mode ts).mapError fun e => .query (.parse e)
        return .rendered (r.renderTree tree) := by
  obtain ⟨command, json, pretty, mode⟩ := r
  rw [execute, run, Logged.result_bind, Logged.result_lift, ← tokenize]
  cases tokenize mode query with
  | error e => rfl
  | ok ts =>
    cases command with
    | tokens => rfl
    | check | tree =>
      change Logged.result (_ >>= _) = _
      rw [Logged.result_bind, Logged.result_lift]
      change _ = ((tokensTree mode ts).mapError _).bind _
      rw [tokensTree]
      cases (parse mode ts).result <;> rfl

end Request

end FilterQuery
