import FilterQuery.Expression.Parse.Chain
/-!
# Parsing an expression

    EXPRESSION := '('* CHAIN ')'?

A parenthesis wraps the whole expression only if another one follows it. An end-of-input token in
the list is never stepped over, so what follows it counts as standing behind the expression.
-/
namespace FilterQuery

namespace Parse

/-- Takes opening parentheses as long as another one follows. -/
def wrappers (b : Balance) (c : Cursor) : Balance × Cursor :=
  if _h : c.current = Token.openingParen ∧ c.nextIsOpeningParen then
    wrappers (b.record .opening) c.advance
  else (b, c)
termination_by c.rest.length
decreasing_by exact Cursor.length_advance_lt (by rw [_h.1]; rfl)

def expression (mode : Mode) (c : Cursor) : Parsed (Expression × Cursor) := do
  let (b, c) := wrappers .empty c
  let count := b.count
  let (chain, c) ← chain mode c
  let (closing, b, c) := paren .closing b c
  Logged.ofExcept b.check
  return (⟨count, chain, closing⟩, c)

/-- What stands behind the expression fails a strict parser and is ignored by a lenient one. -/
def trailing (mode : Mode) (c : Cursor) : Parsed Unit :=
  if c.rest = [] then pure ()
  else match mode with
    | .strict => Logged.fail (.trailingInput c.current.text)
    | .lenient => Logged.write (.ignored c.rest.length c.current.text)

end Parse

/-- The expression at the front of a token list. -/
def parse (mode : Mode) (ts : List Token) : Parsed Expression :=
  if ts = [] then Logged.fail .emptyInput
  else do
    let (e, c) ← Parse.expression mode (.start ts)
    Parse.trailing mode c
    Logged.write (.finished c.position)
    return e

end FilterQuery
