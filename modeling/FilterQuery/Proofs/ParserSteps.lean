import FilterQuery.Expression.Parse
import FilterQuery.Proofs.Runs
/-!
# Parsing in steps

A parser can be run with a position in the token list, the token that is current there, and the
nodes that are being built. It takes at most one token at a time, and each of its three loops takes
one before it is at its head again. What it checks twice on the way to a list is right the second
time.
-/
namespace FilterQuery

/-- The operator in front of a list. -/
def Construct.inOperator : Construct := ⟨"IN: operator"⟩

/-- The operators that compare with one literal. -/
def parsedComparators : List String := ["eq:", "gt:", "lt:", "gte:", "lte:", "not:"]

theorem Token.comparator?_eq_some_iff {t : Token} {op : Comparator} :
    t.comparator? = some op ↔ op.token = t := by
  obtain ⟨kind, text⟩ := t
  by_cases hkind : kind = .comparisonOperator
  · rw [Token.comparator?, if_pos hkind, Comparator.ofText?_eq_some_iff]
    simp [Comparator.token, Token.comparison, hkind, eq_comm]
  · simp [Token.comparator?, Comparator.token, Token.comparison, hkind, eq_comm]

theorem mem_parsedComparators_iff {text : String} :
    text ∈ parsedComparators ↔ ∃ op : Comparator, text = op.text := by
  constructor
  · intro h
    simp only [parsedComparators, List.mem_cons, List.not_mem_nil, or_false] at h
    rcases h with rfl | rfl | rfl | rfl | rfl | rfl
    exacts [⟨.eq, rfl⟩, ⟨.gt, rfl⟩, ⟨.lt, rfl⟩, ⟨.gte, rfl⟩, ⟨.lte, rfl⟩, ⟨.not, rfl⟩]
  · rintro ⟨op, rfl⟩
    cases op <;> decide

theorem Token.isSome_comparator? (t : Token) : t.comparator?.isSome =
    (t.kind = .comparisonOperator && parsedComparators.contains t.text) := by
  rw [Bool.eq_iff_iff, Option.isSome_iff_exists, Bool.and_eq_true, decide_eq_true_iff,
    List.contains_iff_mem, mem_parsedComparators_iff]
  constructor
  · rintro ⟨op, hop⟩
    obtain rfl := comparator?_eq_some_iff.mp hop
    exact ⟨rfl, op, rfl⟩
  · rintro ⟨hkind, op, htext⟩
    have htoken : op.token = t := by rw [Comparator.token, Token.comparison, ← hkind, ← htext]
    exact ⟨op, comparator?_eq_some_iff.mpr htoken⟩

/-- What a parser does next. -/
inductive ParserPlace
  /-- It is at the head of the loop that takes wrapping parentheses. -/
  | wrappers
  /-- It is at the head of the loop that reads segments. -/
  | segment
  | key
  /-- It chooses between a list and a single operand. -/
  | comparison
  | inOperator
  /-- It is at the head of the loop that buffers the tokens of a list. -/
  | item
  /-- It checks the tokens of a list. -/
  | list
  | comparator
  | operand
  /-- It looks for the closing parenthesis of a segment. -/
  | closing
  /-- It looks for a logical operator behind a segment. -/
  | operator
  /-- It looks for the closing parenthesis behind the chain. -/
  | ending
  /-- It checks the parentheses around the chain and looks for tokens behind the expression. -/
  | trailing
  | finished
  | failed (e : ParseError)
  /-- A number was to become less than zero, or an index is out of range. -/
  | crashed
deriving DecidableEq, Repr

/-- How many of the places lie ahead in one passage through the grammar. -/
@[simp] def ParserPlace.ahead : ParserPlace → Nat
  | .wrappers => 11
  | .segment => 10
  | .key => 9
  | .comparison => 8
  | .inOperator | .comparator => 7
  | .item | .operand => 6
  | .list => 5
  | .closing => 4
  | .operator => 3
  | .ending => 2
  | .trailing => 1
  | .finished | .failed _ | .crashed => 0

structure ParserState where
  place : ParserPlace
  position : Nat
  current : Token
  root : Node
  /-- The parentheses around the chain. -/
  outer : Balance
  /-- The segments behind which an operator stands, each with its operator. -/
  heads : List Node
  /-- The parentheses of the segments. -/
  inner : Balance
  segment : Node
  key : Node
  operator : Node
  buffered : List Token
  log : List ParseEvent

namespace ParserState

def start (ts : List Token) : ParserState where
  place := .wrappers
  position := 0
  current := ts.headD Token.eof
  root := .branch .expression []
  outer := .empty
  heads := []
  inner := .empty
  segment := .branch .filters []
  key := .eof
  operator := .eof
  buffered := []
  log := []

def fail (e : ParseError) (s : ParserState) : ParserState := { s with place := .failed e }

def write (r : ParseEvent) (s : ParserState) : ParserState := { s with log := s.log ++ [r] }

section
variable (mode : Mode) (ts : List Token)

def advance (s : ParserState) : ParserState :=
  { s with position := s.position + 1, current := ts[s.position + 1]?.getD Token.eof }

def nextIsOpeningParen (s : ParserState) : Bool := ts[s.position + 1]?.any Token.isOpeningParen

/-- The input ran out where `expected` was due. -/
def exhausted (expected : Construct) (put : ParserState → Node → ParserState) (s : ParserState) :
    ParserState :=
  match mode with
  | .strict => s.fail (.unexpectedEnd expected)
  | .lenient => put (s.write (.exhausted expected)) .eof

/-- Takes the current token as a leaf if it is what is due. -/
def require (expected : Construct) (accepts : Token → Bool)
    (put : ParserState → Node → ParserState) (s : ParserState) : ParserState :=
  if s.current.isEof then s.exhausted mode expected put
  else if accepts s.current then put (s.advance ts) s.current.toNode
  else s.fail (.unexpectedToken expected s.current.text)

/-- Takes the current token as a leaf if it is the parenthesis `p`. -/
def takeParen (p : Paren) (put : ParserState → Node → ParserState) (s : ParserState) :
    ParserState :=
  if s.current = p.token then put (s.advance ts) s.current.toNode else s

/-! ### The places of a parser -/

def takeWrapper (s : ParserState) : ParserState :=
  if s.current.isOpeningParen && s.nextIsOpeningParen ts then
    { s.advance ts with
      place := .wrappers
      root := s.root.pushFront s.current.toNode
      outer := s.outer.record .opening }
  else { s with place := .segment }

def putOpening (s : ParserState) (leaf : Node) : ParserState :=
  { s with place := .key, segment := s.segment.pushFront leaf, inner := s.inner.record .opening }

def openSegment (s : ParserState) : ParserState :=
  { s.write (.filters s.position) with place := .key, segment := .branch .filters [] }.takeParen ts
    .opening putOpening

def putKey (s : ParserState) (leaf : Node) : ParserState :=
  { s with place := .comparison, key := leaf }

def takeKey (s : ParserState) : ParserState :=
  s.require mode ts .identifier (·.kind = .identifier) putKey

def choose (s : ParserState) : ParserState :=
  { s with place := if s.current = Token.inOperator then .inOperator else .comparator }

def putInOperator (s : ParserState) (leaf : Node) : ParserState :=
  { s with place := .item, operator := leaf, buffered := [] }

def takeInOperator (s : ParserState) : ParserState :=
  s.require mode ts .inOperator (· = Token.inOperator) putInOperator

def putComparator (s : ParserState) (leaf : Node) : ParserState :=
  { s with place := .operand, operator := leaf }

def takeComparator (s : ParserState) : ParserState :=
  s.require mode ts .comparisonOperator
    (fun t => t.kind = .comparisonOperator && parsedComparators.contains t.text) putComparator

/-- The operand completes the filter. -/
def putOperand (s : ParserState) (operand : Node) : ParserState :=
  let comparison := Node.branch .comparison [s.operator, operand]
  { s with
    place := .closing
    segment := s.segment.pushBack (.branch .filter [s.key, comparison]) }

def takeOperand (s : ParserState) : ParserState :=
  s.require mode ts .literal (·.kind = .literal) putOperand

def bufferItem (s : ParserState) : ParserState :=
  if s.current.isEof then s.exhausted mode .listClosing putOperand
  else
    let s := { s with buffered := s.buffered ++ [s.current] }
    if s.current.text = "]" then { s with place := .list }
    else { s.advance ts with place := .item }

/-- The first token of a list that is not what its index asks for, when the last one has the index
`last`. -/
def fault? (last : Nat) (buffered : List Token) : Option ParseError :=
  buffered.zipIdx.findSome? fun (t, index) =>
    (Parse.expectedAt last index t).map fun expected => .unexpectedToken expected t.text

def checkList (s : ParserState) : ParserState :=
  match Nat.psub s.buffered.length 1 with
  | none => { s with place := .crashed }
  | some last =>
    match fault? last s.buffered with
    | some e => s.fail e
    | none =>
      if mode = .strict ∧ s.buffered.length % 2 = 0 then
        match s.buffered[last]? with
        | none => { s with place := .crashed }
        | some t => s.fail (.unexpectedToken .literal t.text)
      else putOperand (s.advance ts) (.branch .list (s.buffered.map Token.toNode))

def putClosing (s : ParserState) (leaf : Node) : ParserState :=
  { s with
    place := .operator
    segment := s.segment.pushBack leaf
    inner := s.inner.record .closing }

def closeSegment (s : ParserState) : ParserState :=
  { s with place := .operator }.takeParen ts .closing putClosing

/-- A logical operator goes before a further segment. Without one the parentheses of the chain are
checked and its segments are put into one another, the last one first. -/
def joinSegment (s : ParserState) : ParserState :=
  if s.current.kind = .logicalOperator then
    { s.advance ts with
      place := .segment, heads := s.heads ++ [s.segment.pushBack s.current.toNode] }
  else
    match s.inner.check with
    | .error e => s.fail e
    | .ok () =>
      { s with place := .ending, root := s.root.pushBack (s.heads.foldr Node.pushBack s.segment) }

def putRootClosing (s : ParserState) (leaf : Node) : ParserState :=
  { s with place := .trailing, root := s.root.pushBack leaf, outer := s.outer.record .closing }

def closeRoot (s : ParserState) : ParserState :=
  { s with place := .trailing }.takeParen ts .closing putRootClosing

def conclude (s : ParserState) : ParserState :=
  { s.write (.finished (min s.position ts.length)) with place := .finished }

def finish (s : ParserState) : ParserState :=
  match s.outer.check with
  | .error e => s.fail e
  | .ok () =>
    if s.position < ts.length then
      match mode with
      | .strict => s.fail (.trailingInput s.current.text)
      | .lenient =>
        match Nat.psub ts.length s.position with
        | none => { s with place := .crashed }
        | some count => (s.write (.ignored count s.current.text)).conclude ts
    else s.conclude ts

/-- One step of a parser, unless it has ended. -/
def step (s : ParserState) : Option ParserState :=
  match s.place with
  | .wrappers => some (s.takeWrapper ts)
  | .segment => some (s.openSegment ts)
  | .key => some (s.takeKey mode ts)
  | .comparison => some s.choose
  | .inOperator => some (s.takeInOperator mode ts)
  | .item => some (s.bufferItem mode ts)
  | .list => some (s.checkList mode ts)
  | .comparator => some (s.takeComparator mode ts)
  | .operand => some (s.takeOperand mode ts)
  | .closing => some (s.closeSegment ts)
  | .operator => some (s.joinSegment ts)
  | .ending => some (s.closeRoot ts)
  | .trailing => some (s.finish mode ts)
  | .finished | .failed _ | .crashed => none

end

/-- The log and the tree or the error of a parser that has ended. -/
def outcome? (s : ParserState) : Option (Parsed Node) :=
  match s.place with
  | .finished => some ⟨s.log, .ok s.root⟩
  | .failed e => some ⟨s.log, .error e⟩
  | _ => none

end ParserState

end FilterQuery
