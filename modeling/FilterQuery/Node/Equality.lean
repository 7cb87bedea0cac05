import FilterQuery.Node
/-!
# Equality of trees

Two trees are compared with a stack of pairs of subtrees that are still to agree.
-/
namespace FilterQuery.Node

theorem sizeAll_reverse (ns : List Node) : sizeAll ns.reverse = sizeAll ns := by
  induction ns with
  | nil => rfl
  | cons n ns ih => simp [ih, Nat.add_comm]

theorem sizeAll_zip_le (ms ns : List Node) :
    sizeAll ((ms.zip ns).map Prod.fst) ≤ sizeAll ms := by
  induction ms generalizing ns with
  | nil => simp
  | cons m ms ih =>
    cases ns with
    | nil => simp
    | cons n ns => simpa using ih ns

/-- Whether the two trees of every pair agree position by position. The last children come first. -/
def agreeAll : List (Node × Node) → Bool
  | [] => true
  | (a, b) :: pending =>
    if a.sameSymbol b && a.children.length == b.children.length then
      agreeAll ((a.children.zip b.children).reverse ++ pending)
    else false
termination_by pending => sizeAll (pending.map Prod.fst)
decreasing_by
  have := sizeAll_zip_le a.children b.children
  simp only [List.map_append, List.map_reverse, sizeAll_append, sizeAll_reverse, List.map_cons,
    sizeAll_cons, size_eq a]
  omega

/-- Whether two trees have the same symbols in the same places. -/
def structurallyEq (a b : Node) : Bool := agreeAll [(a, b)]

instance : BEq Node := ⟨structurallyEq⟩

end FilterQuery.Node
