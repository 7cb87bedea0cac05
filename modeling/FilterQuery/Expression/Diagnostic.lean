import FilterQuery.Logged
/-!
# Errors and records of the parser
-/
namespace FilterQuery

/-- Something that the grammar can require, known by the words that messages use for it. -/
structure Construct where
  description : String
deriving DecidableEq, Repr

namespace Construct

def identifier : Construct := ⟨"identifier"⟩

def comparisonOperator : Construct := ⟨"comparison operator"⟩

def literal : Construct := ⟨"literal"⟩

def listOpening : Construct := ⟨"["⟩

def listClosing : Construct := ⟨"]"⟩

def listSeparator : Construct := ⟨"',' separator"⟩

end Construct

/-- A side of a pair of parentheses. -/
inductive Paren
  | opening
  | closing
deriving DecidableEq, Repr

inductive ParseError
  /-- There is no token at all. -/
  | emptyInput
  /-- The token with the text `found` stands where `expected` is due. -/
  | unexpectedToken (expected : Construct) (found : String)
  /-- The number of parentheses is odd. -/
  | unbalancedParens (missing : Paren)
  /-- The input ends where `expected` is due. -/
  | unexpectedEnd (expected : Construct)
  /-- A token stands behind the expression. -/
  | trailingInput (found : String)
deriving DecidableEq, Repr

def ParseError.message : ParseError → String
  | .emptyInput => "You must provide a list of tokens"
  | .unexpectedToken ⟨expected⟩ found => s!"Expect {expected}, got '{found}'"
  | .unbalancedParens .opening => "Expected '(' at the beginning of the expression"
  | .unbalancedParens .closing => "Expected ')' at the end of the expression"
  | .unexpectedEnd ⟨expected⟩ => s!"Expect {expected}, got end of input"
  | .trailingInput found => s!"Unexpected '{found}' after the end of the expression"

/-- A record of the parser. Positions count tokens from zero. -/
inductive ParseEvent
  /-- A segment starts at this position. -/
  | filters (position : Nat)
  /-- The input ran out where the construct was due. -/
  | exhausted (expected : Construct)
  /-- Tokens stand behind the expression; `first` is the text of the first. -/
  | ignored (count : Nat) (first : String)
  | finished (tokens : Nat)
deriving DecidableEq, Repr

namespace ParseEvent

def severity : ParseEvent → Severity
  | .filters _ => .trace
  | .exhausted _ => .trace
  | .ignored .. => .warn
  | .finished _ => .debug

def message : ParseEvent → String
  | .filters position => s!"FILTERS at token {position}"
  | .exhausted ⟨expected⟩ => s!"input exhausted while expecting {expected}"
  | .ignored count first =>
    s!"ignoring {count} token(s) after the expression, starting at '{first}'"
  | .finished count => s!"parsed {count} tokens"

end ParseEvent

/-- What a parser makes of a place in a token list. -/
abbrev Parsed := Logged ParseEvent ParseError

end FilterQuery
