import FilterQuery.Proofs.JsonReading
import FilterQuery.Proofs.TreeExport
import FilterQuery.Proofs.TreeWalks
/-!
# Reading exports

Trees and token lists of any form are read back from the text of their JSON exports in either
layout, so exports tell apart whatever differs.
-/
namespace FilterQuery

def TokenKind.all : List TokenKind :=
  [.identifier, .literal, .comparisonOperator, .logicalOperator, .separator, .assignOperator, .eof]

def TokenKind.ofName? (name : String) : Option TokenKind := all.find? (·.name = name)

@[simp] theorem TokenKind.ofName?_name (kind : TokenKind) : ofName? kind.name = some kind := by
  cases kind <;> rfl

def NodeKind.all : List NodeKind :=
  [.expression, .filters, .filter, .comparison, .comparisonOperator, .literal, .identifier,
    .logicalOperator, .separator, .list, .assignOperator, .eof]

def NodeKind.ofName? (name : String) : Option NodeKind := all.find? (·.name = name)

@[simp] theorem NodeKind.ofName?_name (kind : NodeKind) : ofName? kind.name = some kind := by
  cases kind <;> rfl

def Token.ofJson? : Json → Option Token
  | .object [("kind", .string name), ("text", .string text)] =>
    (TokenKind.ofName? name).map (⟨·, text⟩)
  | _ => none

def tokensOfJson? : Json → Option (List Token)
  | .array items => items.mapM Token.ofJson?
  | _ => none

/-- A value that may be missing. -/
def valueOfJson? : Json → Option (Option String)
  | .null => some none
  | .string s => some (some s)
  | _ => none

namespace Node

mutual

def ofJson? : Json → Option Node
  | .object [("children", .array items), ("type", .string name), ("value", value)] => do
    let children ← ofJsonAll? items
    let kind ← NodeKind.ofName? name
    let value ← valueOfJson? value
    return ⟨kind, value, children⟩
  | .object [("type", .string name), ("value", value)] => do
    let kind ← NodeKind.ofName? name
    let value ← valueOfJson? value
    return ⟨kind, value, []⟩
  | _ => none

def ofJsonAll? : List Json → Option (List Node)
  | [] => some []
  | item :: items => do
    let n ← ofJson? item
    let ns ← ofJsonAll? items
    return n :: ns

end

end Node

@[simp] theorem valueOfJson?_value (value : Option String) :
    valueOfJson? ((value.map Json.string).getD .null) = some value := by
  cases value <;> rfl

theorem Token.ofJson?_toJson (t : Token) : ofJson? t.toJson = some t := by
  simp [toJson, ofJson?]

theorem tokensOfJson?_tokensToJson (ts : List Token) :
    tokensOfJson? (tokensToJson ts) = some ts := by
  rw [tokensToJson, tokensOfJson?]
  induction ts with
  | nil => rfl
  | cons t ts ih =>
    rw [List.map_cons, List.mapM_cons, Token.ofJson?_toJson, ih]
    rfl

namespace Node

mutual

theorem ofJson?_nestedJson : (n : Node) → ofJson? n.nestedJson = some n
  | ⟨kind, value, []⟩ => by
    rw [nestedJson, nestedJsonAll]
    simp [object, ofJson?]
  | ⟨kind, value, n :: ns⟩ => by
    have hchildren := ofJsonAll?_nestedJsonAll (n :: ns)
    have hne : (nestedJsonAll (n :: ns)).isEmpty = false := by
      rw [nestedJsonAll]
      rfl
    rw [nestedJson]
    simp [object, ofJson?, hne, hchildren]

theorem ofJsonAll?_nestedJsonAll : (ns : List Node) → ofJsonAll? (nestedJsonAll ns) = some ns
  | [] => by
    rw [nestedJsonAll, ofJsonAll?]
  | n :: ns => by
    rw [nestedJsonAll, ofJsonAll?, ofJson?_nestedJson n, ofJsonAll?_nestedJsonAll ns]
    rfl

end

/-- The tree in the text of a JSON export. -/
def ofExport? (text : String) : Option Node := (Json.read? text).bind ofJson?

end Node

/-- The tokens in the text of a JSON export. -/
def tokensOfExport? (text : String) : Option (List Token) :=
  (Json.read? text).bind tokensOfJson?

/-- Exports of trees and of token lists are read back, whatever these hold and in either layout.
So two trees have the same export exactly if they are structurally equal. -/
theorem exports_read_back (layout : Json.Layout) :
    (∀ n : Node, Node.ofExport? (n.toJson.render layout) = some n) ∧
    (∀ ts, tokensOfExport? ((tokensToJson ts).render layout) = some ts) ∧
    ∀ a b : Node, a.toJson.render layout = b.toJson.render layout ↔ a.structurallyEq b := by
  have htree (n : Node) : Node.ofExport? (n.toJson.render layout) = some n := by
    rw [Node.ofExport?, Json.read?_render, Node.toJson_eq]
    exact Node.ofJson?_nestedJson n
  refine ⟨htree, fun ts => ?_, fun a b => ?_⟩
  · rw [tokensOfExport?, Json.read?_render]
    exact tokensOfJson?_tokensToJson ts
  · rw [Node.structurallyEq_iff]
    constructor
    · intro htext
      have hread := htree a
      rw [htext, htree b] at hread
      exact (Option.some.inj hread).symm
    · rintro rfl
      rfl

end FilterQuery
