import FilterQuery.Node.Preorder
/-!
# Outlines

The text form of a tree: one line for each node, children below their parent and indented by
three columns more. Values are written as they are, line breaks included.
-/
namespace FilterQuery

/-- What stands before a node of the given depth: nothing before the root, else a line break,
the indentation and a branch. -/
def outlineIndent : Nat → String
  | 0 => ""
  | depth + 1 => "\n" ++ String.ofList (List.replicate (3 * depth) ' ') ++ "└─ "

/-- The label and the value in quotes, `null` if there is none. -/
def outlineHeader (kind : NodeKind) (value : Option String) : String :=
  "Node[" ++ kind.name ++ " = '" ++ value.getD "null" ++ "']"

def Entry.outline (e : Entry) : String := outlineIndent e.depth ++ outlineHeader e.kind e.value

namespace Node

/-- The outline of a tree. -/
def outline (n : Node) : String := String.join (n.preorder.map Entry.outline)

mutual

/-- The outline of a tree whose root has the given depth. -/
def outlineFrom (depth : Nat) : Node → String
  | ⟨kind, value, children⟩ =>
    outlineIndent depth ++ outlineHeader kind value ++ outlineFromAll (depth + 1) children

/-- The outlines of neighbouring trees whose roots have the given depth. -/
def outlineFromAll (depth : Nat) : List Node → String
  | [] => ""
  | n :: ns => outlineFrom depth n ++ outlineFromAll depth ns

end

end Node

end FilterQuery
