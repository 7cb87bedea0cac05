import FilterQuery.Token
/-!
# Lexical rules

A rule measures how many characters at the front of a text it takes for one token; a rule
that takes none does not apply. The rules are tried in a fixed order and the first that
applies wins, so `IN:` and `eq:` are operators even where a key could start.
-/
namespace FilterQuery

/-- The characters that may stand between tokens. -/
def isBlank (c : Char) : Bool := c = ' ' || c = '\r' || c = '\n'

/-- The characters of keys: ASCII letters and digits, `-`, `.` and `_`. -/
def isKeyChar (c : Char) : Bool := c.isAlphanum || c = '-' || c = '.' || c = '_'

def isSeparatorChar (c : Char) : Bool := ['(', ')', '[', ']', ','].contains c

inductive Rule
  | logicalOperator
  | assignOperator
  | inOperator
  | comparisonOperator
  | identifier
  | literal
  | separator
deriving DecidableEq, Repr

namespace Rule

/-- The rules in the order in which they are tried. -/
def all : List Rule :=
  [.logicalOperator, .assignOperator, .inOperator, .comparisonOperator, .identifier, .literal,
    .separator]

/-- The name of a rule in log records. -/
def name : Rule → String
  | .logicalOperator => "logical operator"
  | .assignOperator => "assign operator"
  | .inOperator => "IN: operator"
  | .comparisonOperator => "comparison operator"
  | .identifier => "identifier"
  | .literal => "literal"
  | .separator => "separator"

/-- The kind of the tokens that a rule makes. -/
def kind : Rule → TokenKind
  | .logicalOperator => .logicalOperator
  | .assignOperator => .assignOperator
  | .inOperator => .comparisonOperator
  | .comparisonOperator => .comparisonOperator
  | .identifier => .identifier
  | .literal => .literal
  | .separator => .separator

/-- The length of the first of `texts` that `cs` starts with, or zero. -/
def fixedWidth (texts : List String) (cs : List Char) : Nat :=
  match texts.find? (·.toList.isPrefixOf cs) with
  | some text => text.length
  | none => 0

/-- The length of a key at the front of `cs`. A key does not start with a digit. -/
def keyWidth : List Char → Nat
  | [] => 0
  | c :: cs => if isKeyChar c && !c.isDigit then (cs.takeWhile isKeyChar).length + 1 else 0

/-- The length of a quoted text whose opening quote stands before `cs`, both quotes counted,
or zero if no quote closes it. -/
def quotedWidth (cs : List Char) : Nat :=
  match cs.dropWhile (· ≠ '"') with
  | [] => 0
  | _ :: _ => (cs.takeWhile (· ≠ '"')).length + 2

/-- The length of a run of digits or of a quoted text at the front of `cs`. -/
def literalWidth : List Char → Nat
  | [] => 0
  | c :: cs =>
    if c.isDigit then (cs.takeWhile Char.isDigit).length + 1
    else if c = '"' then quotedWidth cs
    else 0

def separatorWidth : List Char → Nat
  | [] => 0
  | c :: _ => if isSeparatorChar c then 1 else 0

/-- How many characters at the front of a text the rule takes. -/
def width : Rule → List Char → Nat
  | .logicalOperator => fixedWidth ["&&", "||"]
  | .assignOperator => fixedWidth [":="]
  | .inOperator => fixedWidth ["IN:"]
  | .comparisonOperator => fixedWidth (Comparator.all.map Comparator.text)
  | .identifier => keyWidth
  | .literal => literalWidth
  | .separator => separatorWidth

/-- The first rule that applies to a text. -/
def first? (cs : List Char) : Option Rule := all.find? fun rule => 0 < rule.width cs

theorem width_pos_of_first? {cs : List Char} {rule : Rule} (h : first? cs = some rule) :
    0 < rule.width cs := by
  simpa using List.find?_some h

end Rule

end FilterQuery
