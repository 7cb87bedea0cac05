import FilterQuery.Json
import FilterQuery.Node
/-!
# JSON exports

Tokens and trees as JSON values, with the keys of every object in alphabetical order. A tree is
converted with a stack of pending visits and a stack of finished values: a node is visited once
to put its children before it and a second time to collect their values.
-/
namespace FilterQuery

def Token.toJson (t : Token) : Json :=
  .object [("kind", .string t.kind.name), ("text", .string t.text)]

def tokensToJson (ts : List Token) : Json := .array (ts.map Token.toJson)

/-- The object of a node whose children have the given values. A leaf has no `children`. -/
def Node.object (n : Node) (children : List Json) : Json :=
  .object ((if children.isEmpty then [] else [("children", .array children)]) ++
    [("type", .string n.kind.name), ("value", (n.value.map Json.string).getD .null)])

namespace Node

/-- A visit that is still to be made to a node. -/
inductive Visit
  | enter (n : Node)
  | leave (n : Node)

/-- The visits to come, and the finished values, the latest first. -/
structure ExportState where
  pending : List Visit
  built : List Json

namespace ExportState

def start (n : Node) : ExportState := ⟨[.enter n], []⟩

/-- Makes the next visit, if one is left. -/
def next? : ExportState → Option ExportState
  | ⟨[], _⟩ => none
  | ⟨.enter n :: pending, built⟩ => some ⟨n.children.map .enter ++ .leave n :: pending, built⟩
  | ⟨.leave n :: pending, built⟩ =>
    let count := n.children.length
    some ⟨pending, n.object (built.take count).reverse :: built.drop count⟩

/-- A bound on the number of visits that become of these. -/
def visitsWork : List Visit → Nat
  | [] => 0
  | .enter n :: pending => 2 * n.size + visitsWork pending
  | .leave _ :: pending => 1 + visitsWork pending

/-- A bound on the number of visits that are still to be made. -/
def work (s : ExportState) : Nat := visitsWork s.pending

theorem visitsWork_enter (ns : List Node) (pending : List Visit) :
    visitsWork (ns.map .enter ++ pending) = 2 * sizeAll ns + visitsWork pending := by
  induction ns with
  | nil => simp
  | cons n ns ih =>
    simp only [List.map_cons, List.cons_append, visitsWork, sizeAll_cons, ih]
    omega

theorem work_next?_lt {s t : ExportState} (h : s.next? = some t) : t.work < s.work := by
  unfold next? at h
  split at h
  · cases h
  · rename_i n pending built
    cases h
    simp only [work, visitsWork_enter, visitsWork, size_eq n]
    omega
  · cases h
    simp [work, visitsWork]

/-- Makes all visits that are left. -/
def run (s : ExportState) : ExportState :=
  match _h : s.next? with
  | some t => run t
  | none => s
termination_by s.work
decreasing_by exact work_next?_lt _h

end ExportState

/-- The JSON value of a tree. -/
def toJson (n : Node) : Json := (ExportState.start n).run.built.headD .null

mutual

/-- The JSON value of a tree from those of its children. -/
def nestedJson : Node → Json
  | ⟨kind, value, children⟩ => object ⟨kind, value, children⟩ (nestedJsonAll children)

/-- The JSON values of some trees in order. -/
def nestedJsonAll : List Node → List Json
  | [] => []
  | n :: ns => nestedJson n :: nestedJsonAll ns

end

end Node

end FilterQuery
