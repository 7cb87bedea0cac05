/-!
# Reading modes

Every stage that reads a query takes the mode as its first argument.
-/
namespace FilterQuery

/-- How an input that is not quite a query is treated: `lenient` skips unknown characters,
drops an unclosed literal, fills in for missing input and ignores what follows the expression;
`strict` makes an error of each of these. -/
inductive Mode
  | lenient
  | strict
deriving DecidableEq, Repr, Inhabited

end FilterQuery
