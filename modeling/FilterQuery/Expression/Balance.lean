import FilterQuery.Expression.Diagnostic
import FilterQuery.Token
/-!
# Counting parentheses

Parentheses are counted and not matched: a group of them passes if their number is even.
-/
namespace FilterQuery

def Paren.token : Paren → Token
  | .opening => Token.openingParen
  | .closing => Token.closingParen

/-- The parentheses met so far: their number, and whether the last one closed. -/
structure Balance where
  count : Nat
  lastClosing : Bool
deriving DecidableEq, Repr

namespace Balance

def empty : Balance := ⟨0, false⟩

def record (b : Balance) (p : Paren) : Balance := ⟨b.count + 1, p.token.isClosingParen⟩

/-- Fails if the number is odd. The side opposite to the last parenthesis is named as missing. -/
def check (b : Balance) : Except ParseError Unit :=
  if b.count % 2 = 0 then .ok ()
  else .error (.unbalancedParens (if b.lastClosing then .opening else .closing))

end Balance

end FilterQuery
