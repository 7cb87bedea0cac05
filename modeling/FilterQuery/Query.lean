import FilterQuery.Expression.Parse
import FilterQuery.Token.Scan
/-!
# Queries

A query text is scanned and its tokens are parsed, both in one mode. The log holds the records
of the scan and then those of the parser.
-/
namespace FilterQuery

inductive QueryError
  | scan (e : ScanError)
  | parse (e : ParseError)
deriving DecidableEq, Repr

namespace QueryError

/-- The message of the stage that failed. -/
def cause : QueryError → String
  | .scan e => e.message
  | .parse e => e.message

def message : QueryError → String
  | .scan e => "Lexical error: " ++ e.message
  | .parse e => "Parse error: " ++ e.message

end QueryError

inductive QueryEvent
  | scan (e : ScanEvent)
  | parse (e : ParseEvent)
deriving DecidableEq, Repr

namespace QueryEvent

def severity : QueryEvent → Severity
  | .scan e => e.severity
  | .parse e => e.severity

def message : QueryEvent → String
  | .scan e => e.message
  | .parse e => e.message

/-- The part of the program that writes the record. -/
def target : QueryEvent → String
  | .scan _ => "uql::lexer"
  | .parse _ => "uql::parser"

end QueryEvent

/-- The expression that a query text stands for, with the log of both stages. -/
def readQuery (mode : Mode) (query : String) : Logged QueryEvent QueryError Expression := do
  let tokens ← (scan mode query).lift QueryEvent.scan QueryError.scan
  (parse mode tokens).lift QueryEvent.parse QueryError.parse

/-- The labelled tree of a query text. -/
def queryTree (mode : Mode) (query : String) : Except QueryError Node :=
  (readQuery mode query).result.map Expression.toNode

/-- The labelled tree of a token list. -/
def tokensTree (mode : Mode) (tokens : List Token) : Except ParseError Node :=
  (parse mode tokens).result.map Expression.toNode

/-- A query has the tree of its tokens, and fails with the error of the stage that fails. -/
theorem queryTree_eq (mode : Mode) (query : String) :
    queryTree mode query =
      ((tokenize mode query).mapError QueryError.scan).bind
        fun tokens => (tokensTree mode tokens).mapError QueryError.parse := by
  rw [queryTree, readQuery, Logged.result_bind, Logged.result_lift, ← tokenize]
  cases tokenize mode query with
  | error e => rfl
  | ok tokens =>
    change ((parse mode tokens).result.mapError _).map _ = (tokensTree mode tokens).mapError _
    rw [tokensTree]
    cases (parse mode tokens).result <;> rfl

theorem queryTree_of_tokenize {mode : Mode} {query : String} {ts : List Token}
    (h : tokenize mode query = .ok ts) :
    queryTree mode query = (tokensTree mode ts).mapError QueryError.parse := by
  rw [queryTree_eq, h]
  rfl

theorem tokensTree_ok_iff {mode : Mode} {ts : List Token} {t : Node} :
    tokensTree mode ts = .ok t ↔ ∃ e, (parse mode ts).result = .ok e ∧ e.toNode = t := by
  unfold tokensTree
  cases (parse mode ts).result with
  | error e => simp [Except.map]
  | ok e => simp [Except.map]

theorem queryTree_ok_iff {mode : Mode} {query : String} {t : Node} :
    queryTree mode query = .ok t ↔ ∃ ts e, tokenize mode query = .ok ts ∧
      (parse mode ts).result = .ok e ∧ e.toNode = t := by
  rw [queryTree_eq]
  cases hscan : tokenize mode query with
  | error e =>
    constructor
    · intro h
      cases h
    · rintro ⟨ts, e', h, -⟩
      cases h
  | ok ts =>
    change ((parse mode ts).result.map Expression.toNode).mapError QueryError.parse = .ok t ↔ _
    constructor
    · intro h
      cases hparse : (parse mode ts).result with
      | error e =>
        rw [hparse] at h
        cases h
      | ok e =>
        rw [hparse] at h
        cases h
        exact ⟨ts, e, rfl, hparse, rfl⟩
    · rintro ⟨ts', e, h, hparse, rfl⟩
      cases h
      rw [hparse]
      rfl

end FilterQuery
