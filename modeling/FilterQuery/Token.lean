/-!
# Tokens

A token is a kind and the text that it was read from. The scanner produces fitting pairs only,
but a token list may be written by hand, so any text may come with any kind.
-/
namespace FilterQuery

inductive TokenKind
  /-- A filter key: ASCII letters, digits, `-`, `.` and `_`, the first no digit. -/
  | identifier
  /-- A run of digits, or a quoted string with its quotes. -/
  | literal
  | comparisonOperator
  /-- `&&` or `||`. -/
  | logicalOperator
  /-- A parenthesis, a bracket or a comma. -/
  | separator
  /-- `:=`, which is scanned but has no place in an expression. -/
  | assignOperator
  /-- The end of the input. -/
  | eof
deriving DecidableEq, Repr

/-- The name of a kind in every output. -/
def TokenKind.name : TokenKind → String
  | .identifier => "IDENTIFIER"
  | .literal => "LITERAL"
  | .comparisonOperator => "COMPARISON_OPERATOR"
  | .logicalOperator => "LOGICAL_OPERATOR"
  | .separator => "SEPARATOR"
  | .assignOperator => "ASSIGN_OPERATOR"
  | .eof => "EOF"

structure Token where
  kind : TokenKind
  text : String
deriving DecidableEq, Repr

/-- The text of the token and of the node that stand for missing input. -/
def eofText : String := "NULL"

namespace Token

def identifier (text : String) : Token := ⟨.identifier, text⟩

def literal (text : String) : Token := ⟨.literal, text⟩

def comparison (text : String) : Token := ⟨.comparisonOperator, text⟩

def logical (text : String) : Token := ⟨.logicalOperator, text⟩

def separator (text : String) : Token := ⟨.separator, text⟩

def assign : Token := ⟨.assignOperator, ":="⟩

/-- The token that is current once the input has run out. -/
def eof : Token := ⟨.eof, eofText⟩

def openingParen : Token := separator "("

def closingParen : Token := separator ")"

def inOperator : Token := comparison "IN:"

def isEof (t : Token) : Bool := t.kind = .eof

def isOpeningParen (t : Token) : Bool := t = openingParen

def isClosingParen (t : Token) : Bool := t = closingParen

/-- The kind and, in quotes, the text. The text is not escaped. -/
def render (t : Token) : String := t.kind.name ++ "(\"" ++ t.text ++ "\")"

end Token

/-- An operator that compares a key with one literal. -/
inductive Comparator
  | gte
  | lte
  | not
  | eq
  | gt
  | lt
deriving DecidableEq, Repr

namespace Comparator

def text : Comparator → String
  | .gte => "gte:"
  | .lte => "lte:"
  | .not => "not:"
  | .eq => "eq:"
  | .gt => "gt:"
  | .lt => "lt:"

def all : List Comparator := [.gte, .lte, .not, .eq, .gt, .lt]

/-- The comparator that is written as `text`. -/
def ofText? (text : String) : Option Comparator := all.find? (·.text = text)

def token (c : Comparator) : Token := .comparison c.text

theorem ofText?_eq_some_iff {text : String} {c : Comparator} :
    ofText? text = some c ↔ text = c.text := by
  constructor
  · intro h
    have := List.find?_some h
    simpa [eq_comm] using this
  · rintro rfl
    cases c <;> rfl

end Comparator

/-- The comparator that a token stands for. -/
def Token.comparator? (t : Token) : Option Comparator :=
  if t.kind = .comparisonOperator then Comparator.ofText? t.text else none

end FilterQuery
