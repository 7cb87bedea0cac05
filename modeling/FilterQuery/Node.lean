import FilterQuery.Token
/-!
# Labelled trees

The tree of an expression, with grammar symbols and tokens as labels. Trees can be built by
hand as well, so nothing is promised about which labels stand below which.
-/
namespace FilterQuery

/-- A grammar symbol or a token kind. -/
inductive NodeKind
  | expression
  | filters
  | filter
  | comparison
  | comparisonOperator
  | literal
  | identifier
  | logicalOperator
  | separator
  | list
  | assignOperator
  | eof
deriving DecidableEq, Repr

/-- The name of a label in every output. -/
def NodeKind.name : NodeKind → String
  | .expression => "UQL_EXPR"
  | .filters => "FILTERS_NODE"
  | .filter => "FILTER_NODE"
  | .comparison => "COMPARISON_EXP"
  | .comparisonOperator => "COMPARISON_OPERATOR"
  | .literal => "LITERAL"
  | .identifier => "IDENTIFIER"
  | .logicalOperator => "LOGICAL_OPERATOR"
  | .separator => "SEPARATOR"
  | .list => "OPERAND_IN"
  | .assignOperator => "ASSIGN_OPERATOR"
  | .eof => "EOF"

def TokenKind.toNodeKind : TokenKind → NodeKind
  | .identifier => .identifier
  | .literal => .literal
  | .comparisonOperator => .comparisonOperator
  | .logicalOperator => .logicalOperator
  | .separator => .separator
  | .assignOperator => .assignOperator
  | .eof => .eof

/-- A label, an optional value, and subtrees in order. -/
structure Node where
  kind : NodeKind
  value : Option String
  children : List Node
deriving Repr

/-- A token as a leaf with the label of its kind and its text as value. -/
def Token.toNode (t : Token) : Node := ⟨t.kind.toNodeKind, some t.text, []⟩

namespace Node

/-- A node without value. -/
def branch (kind : NodeKind) (children : List Node) : Node := ⟨kind, none, children⟩

def leaf (kind : NodeKind) (value : String) : Node := ⟨kind, some value, []⟩

/-- The leaf that stands for missing input. -/
def eof : Node := leaf .eof eofText

def pushBack (n child : Node) : Node := { n with children := n.children ++ [child] }

def pushFront (n child : Node) : Node := { n with children := child :: n.children }

def child? (n : Node) (index : Nat) : Option Node := n.children[index]?

def isEof (n : Node) : Bool := n.kind = .eof

/-- Whether two nodes have equal labels and values, whatever their children. -/
def sameSymbol (a b : Node) : Bool := a.kind = b.kind && a.value = b.value

mutual

/-- The number of nodes of a tree. -/
def size : Node → Nat
  | ⟨_, _, children⟩ => sizeAll children + 1

/-- The number of nodes of some trees together. -/
def sizeAll : List Node → Nat
  | [] => 0
  | n :: ns => size n + sizeAll ns

end

@[simp] theorem size_mk (kind : NodeKind) (value : Option String) (children : List Node) :
    size ⟨kind, value, children⟩ = sizeAll children + 1 := by rw [size]

theorem size_eq (n : Node) : n.size = sizeAll n.children + 1 := by
  cases n
  simp

@[simp] theorem sizeAll_nil : sizeAll [] = 0 := by rw [sizeAll]

@[simp] theorem sizeAll_cons (n : Node) (ns : List Node) :
    sizeAll (n :: ns) = n.size + sizeAll ns := by rw [sizeAll]

@[simp] theorem sizeAll_append (ms ns : List Node) :
    sizeAll (ms ++ ns) = sizeAll ms + sizeAll ns := by
  induction ms with
  | nil => simp
  | cons m ms ih => simp [ih, Nat.add_assoc]

/-- What holds of a tree whenever it holds of its subtrees holds of every tree. -/
theorem induct {P : Node → Prop}
    (step : ∀ kind value children, (∀ c ∈ children, P c) → P ⟨kind, value, children⟩) (n : Node) :
    P n :=
  @Node.rec P (fun ns => ∀ c ∈ ns, P c) step (fun _ h => nomatch h)
    (fun _ _ hm hms _ h => (List.mem_cons.mp h).elim (fun e => e ▸ hm) (hms _)) n

end Node

end FilterQuery
