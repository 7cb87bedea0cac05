import FilterQuery.Proofs.ExpressionReading
/-!
# Chains put together

A chain goes on with the segments of another one behind an operator.
-/
namespace FilterQuery.Chain

/-- The segments of `x`, an operator, and the segments of `y`. -/
def append (x : Chain) (operator : String) (y : Chain) : Chain :=
  ⟨x.links ++ (x.last, operator) :: y.links, y.last⟩

section
variable (x : Chain) (operator : String) (y : Chain)

@[simp] theorem segments_append : (x.append operator y).segments = x.segments ++ y.segments := by
  simp [append, segments]

@[simp] theorem tokens_append :
    (x.append operator y).tokens = x.tokens ++ Token.logical operator :: y.tokens := by
  simp [append, tokens]

@[simp] theorem first_append : (x.append operator y).first = x.first := by
  obtain ⟨links, last⟩ := x
  cases links <;> rfl

@[simp] theorem parenWord_append :
    (x.append operator y).parenWord = x.parenWord ++ y.parenWord := by
  simp [parenWord]

@[simp] theorem parens_append : (x.append operator y).parens = x.parens + y.parens := by
  rw [← length_parenWord, ← length_parenWord, ← length_parenWord, parenWord_append,
    List.length_append]

end

end FilterQuery.Chain
