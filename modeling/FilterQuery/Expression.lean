import FilterQuery.Node
/-!
# Filter expressions

An expression is a chain of segments joined by logical operators. A segment is one filter, which
a parenthesis may open and one may close, and further parentheses may wrap the whole chain.
Parts that are `none` were due when the input ran out. An expression gives back the tokens that
it was read from and the labelled tree that stands for it.
-/
namespace FilterQuery

/-- The part of a filter behind its key. -/
inductive Comparison
  | scalar (comparator : Option Comparator) (operand : Option String)
  /-- `IN:` and the tokens of its list, brackets included. -/
  | membership (list : Option (List Token))
deriving DecidableEq, Repr

structure Filter where
  key : Option String
  comparison : Comparison
deriving DecidableEq, Repr

/-- A filter, and whether a parenthesis stands before and behind it. -/
structure Segment where
  opening : Bool
  filter : Filter
  closing : Bool
deriving DecidableEq, Repr

/-- Segments in order, each but the last with the text of the operator behind it. -/
structure Chain where
  links : List (Segment × String)
  last : Segment
deriving DecidableEq, Repr

/-- A chain behind some opening parentheses, and whether a closing one stands behind it. -/
structure Expression where
  wrappers : Nat
  chain : Chain
  closing : Bool
deriving DecidableEq, Repr

/-- The leaf of a token, or the leaf for missing input. -/
def Node.ofToken? (t : Option Token) : Node := (t.map Token.toNode).getD .eof

namespace Comparison

def tokens : Comparison → List Token
  | .scalar comparator operand =>
    (comparator.map Comparator.token).toList ++ (operand.map Token.literal).toList
  | .membership list => Token.inOperator :: list.getD []

def toNode : Comparison → Node
  | .scalar comparator operand =>
    .branch .comparison
      [.ofToken? (comparator.map Comparator.token), .ofToken? (operand.map Token.literal)]
  | .membership list =>
    .branch .comparison [Token.inOperator.toNode,
      (list.map fun ts => Node.branch .list (ts.map Token.toNode)).getD Node.eof]

end Comparison

namespace Filter

def tokens (f : Filter) : List Token :=
  (f.key.map Token.identifier).toList ++ f.comparison.tokens

def toNode (f : Filter) : Node :=
  .branch .filter [.ofToken? (f.key.map Token.identifier), f.comparison.toNode]

end Filter

namespace Segment

def openings (s : Segment) : List Token := if s.opening then [Token.openingParen] else []

def closings (s : Segment) : List Token := if s.closing then [Token.closingParen] else []

def tokens (s : Segment) : List Token := s.openings ++ s.filter.tokens ++ s.closings

/-- The children of a segment's node, before an operator and the rest of a chain join them. -/
def nodes (s : Segment) : List Node :=
  s.openings.map Token.toNode ++ s.filter.toNode :: s.closings.map Token.toNode

/-- How many parentheses a segment has. -/
def parens (s : Segment) : Nat := s.opening.toNat + s.closing.toNat

end Segment

namespace Chain

/-- A chain with one more segment in front. -/
def cons (s : Segment) (operator : String) (c : Chain) : Chain :=
  { c with links := (s, operator) :: c.links }

def segments (c : Chain) : List Segment := c.links.map Prod.fst ++ [c.last]

def tokens (c : Chain) : List Token :=
  c.links.flatMap (fun l => l.1.tokens ++ [Token.logical l.2]) ++ c.last.tokens

/-- Chains nest to the right: the rest of a chain is the last child of its first segment. -/
def toNode (c : Chain) : Node :=
  c.links.foldr
    (fun l rest => .branch .filters (l.1.nodes ++ [(Token.logical l.2).toNode, rest]))
    (.branch .filters c.last.nodes)

/-- How many parentheses the segments of a chain have together. -/
def parens (c : Chain) : Nat := c.links.foldr (fun l rest => l.1.parens + rest) c.last.parens

@[simp] theorem tokens_cons (s : Segment) (operator : String) (c : Chain) :
    (cons s operator c).tokens = s.tokens ++ Token.logical operator :: c.tokens := by
  simp [cons, tokens]

@[simp] theorem toNode_cons (s : Segment) (operator : String) (c : Chain) :
    (cons s operator c).toNode =
      .branch .filters (s.nodes ++ [(Token.logical operator).toNode, c.toNode]) := by
  simp [cons, toNode]

@[simp] theorem parens_cons (s : Segment) (operator : String) (c : Chain) :
    (cons s operator c).parens = s.parens + c.parens := by
  simp [cons, parens]

end Chain

namespace Expression

def openings (e : Expression) : List Token := List.replicate e.wrappers Token.openingParen

def closings (e : Expression) : List Token := if e.closing then [Token.closingParen] else []

/-- The tokens of an expression in order. -/
def tokens (e : Expression) : List Token := e.openings ++ e.chain.tokens ++ e.closings

/-- The labelled tree of an expression. -/
def toNode (e : Expression) : Node :=
  .branch .expression
    (e.openings.map Token.toNode ++ e.chain.toNode :: e.closings.map Token.toNode)

end Expression

end FilterQuery
