import FilterQuery.Node
/-!
# Trees in preorder

A tree is walked with an explicit stack of pending subtrees, so a chain of any length is walked
in constant call depth. Each node gives one entry, before those of its children.
-/
namespace FilterQuery

/-- A node of a tree without its children; the root has depth zero. -/
structure Entry where
  depth : Nat
  kind : NodeKind
  value : Option String
deriving DecidableEq, Repr

namespace Node

/-- The children of a node, each with the given depth. -/
def childrenAt (depth : Nat) (n : Node) : List (Node × Nat) := n.children.map (·, depth)

theorem map_fst_childrenAt (depth : Nat) (n : Node) :
    (n.childrenAt depth).map Prod.fst = n.children := by
  simp [childrenAt, Function.comp_def]

/-- The entries of pending subtrees with their depths, put behind those in `done`. -/
def preorderOnto (done : Array Entry) : List (Node × Nat) → Array Entry
  | [] => done
  | (n, depth) :: pending =>
    preorderOnto (done.push ⟨depth, n.kind, n.value⟩) (n.childrenAt (depth + 1) ++ pending)
termination_by pending => sizeAll (pending.map Prod.fst)
decreasing_by
  simp only [List.map_append, sizeAll_append, map_fst_childrenAt, List.map_cons, sizeAll_cons,
    size_eq n]
  omega

/-- The entries of a tree, each node before its children and these in order. -/
def preorder (n : Node) : List Entry := (preorderOnto #[] [(n, 0)]).toList

mutual

/-- The entries of a tree whose root has the given depth. -/
def entriesFrom (depth : Nat) : Node → List Entry
  | ⟨kind, value, children⟩ => ⟨depth, kind, value⟩ :: entriesFromAll (depth + 1) children

/-- The entries of neighbouring trees whose roots have the given depth. -/
def entriesFromAll (depth : Nat) : List Node → List Entry
  | [] => []
  | n :: ns => entriesFrom depth n ++ entriesFromAll depth ns

end

end Node

end FilterQuery
