import FilterQuery.Proofs.ListGrammar
import FilterQuery.Proofs.NestedChain
import FilterQuery.Proofs.ParserSteps
/-!
# What is left to read

At each of its places a parser still has to read the rest of the grammar from where it stands, and
to put that around the nodes it has built. Each of these readings is a step away from that of the
place behind it, and the reading at the start is the whole parse.
-/
namespace FilterQuery

namespace Parse

/-- The check of the tokens of a list, made at its last one. -/
def checked (mode : Mode) (ts : List Token) (c : Cursor) : Parsed (Option (List Token) × Cursor) :=
  match listFault? ts with
  | some e => Logged.fail e
  | none =>
    if mode = .strict ∧ ts.length % 2 = 0 then unexpected .literal c.current
    else return (some ts, c.advance)

/-- A list of which some tokens have been taken. -/
def listBehind (mode : Mode) (taken : List Token) (c : Cursor) :
    Parsed (Option (List Token) × Cursor) :=
  let inside := c.rest.takeWhile isInsideList
  let stop := c.skip inside.length
  if stop.current.isEof then do
    missing mode .listClosing
    return (none, stop)
  else checked mode (taken ++ inside ++ [stop.current]) stop

theorem expectedAt_mem {last i : Nat} {t : Token} {x : Construct}
    (h : expectedAt last i t = some x) :
    x ∈ [.listOpening, .listClosing, .literal, .listSeparator] ∧
      (x = .listClosing → i = last ∧ t.text ≠ "]") := by
  unfold expectedAt at h
  split_ifs at h with hfirst hopening hlast hclosing hodd hliteral hcomma <;> cases h
  · exact ⟨by decide, fun h => absurd h (by decide)⟩
  · exact ⟨by decide, fun _ => ⟨hlast, hclosing⟩⟩
  · exact ⟨by decide, fun h => absurd h (by decide)⟩
  · exact ⟨by decide, fun h => absurd h (by decide)⟩

theorem list_eq_listBehind (mode : Mode) (c : Cursor) : list mode c = listBehind mode [] c := rfl

section
variable {mode : Mode} {taken : List Token} {c : Cursor}

theorem listBehind_of_inside (h : isInsideList c.current) :
    listBehind mode taken c = listBehind mode (taken ++ [c.current]) c.advance := by
  have hrest := Cursor.rest_of_current_ne_eof (isInsideList_iff.mp h).1
  have hadvance : c.advance.rest = c.rest.tail := by simp [Cursor.advance, Cursor.skip]
  have hinside : c.rest.takeWhile isInsideList =
      c.current :: c.advance.rest.takeWhile isInsideList := by
    rw [hrest, List.takeWhile_cons_of_pos h, hadvance]
  have hskip (n : Nat) : c.skip (n + 1) = c.advance.skip n := by
    simp [Cursor.advance, Cursor.skip, Nat.add_comm, Nat.add_left_comm]
  simp only [listBehind, hinside, List.length_cons, hskip, List.append_assoc,
    List.cons_append, List.nil_append]

theorem takeWhile_eq_nil (h : isInsideList c.current = false) :
    c.rest.takeWhile isInsideList = [] := by
  cases hrest : c.rest with
  | nil => rfl
  | cons t ts =>
    rw [Cursor.current_of_rest hrest] at h
    rw [List.takeWhile_cons_of_neg (by rw [h]; exact Bool.false_ne_true)]

theorem listBehind_of_isEof (h : c.current.isEof) : listBehind mode taken c = do
    missing mode .listClosing
    return (none, c) := by
  have hinside : isInsideList c.current = false := by simp [isInsideList, h]
  rw [listBehind, takeWhile_eq_nil hinside]
  exact if_pos h

theorem listBehind_of_closing (heof : c.current.isEof = false) (htext : c.current.text = "]") :
    listBehind mode taken c = checked mode (taken ++ [c.current]) c := by
  have hinside : isInsideList c.current = false := by simp [isInsideList, htext]
  rw [listBehind, takeWhile_eq_nil hinside, List.append_nil]
  have hmore : ¬ c.current.isEof := by simp [heof]
  exact if_neg hmore

end

end Parse

namespace ParserState

/-! ### The readings of the places -/

section
variable (mode : Mode)

def readTrailing (s : ParserState) (c : Cursor) : Parsed Node := do
  Logged.ofExcept s.outer.check
  Parse.trailing mode c
  Logged.write (.finished c.position)
  return s.root

def readEnding (s : ParserState) (c : Cursor) : Parsed Node :=
  let (closing, b, d) := Parse.paren .closing s.outer c
  let root := if closing then s.root.pushBack Token.closingParen.toNode else s.root
  readTrailing mode { s with root, outer := b } d

/-- A chain with the last segments `tail` has been read. -/
def readBehindChain (s : ParserState) (b : Balance) (tail : Node) (c : Cursor) : Parsed Node :=
  Logged.ofExcept b.check >>= fun _ =>
    readEnding mode { s with root := s.root.pushBack (s.heads.foldr Node.pushBack tail) } c

def readChain (s : ParserState) (c : Cursor) : Parsed Node := do
  let (tail, b, d) ← Parse.segments mode s.inner c
  readBehindChain mode s b tail.toNode d

def readOperator (s : ParserState) (c : Cursor) : Parsed Node :=
  if c.current.kind = .logicalOperator then
    readChain mode { s with heads := s.heads ++ [s.segment.pushBack c.current.toNode] } c.advance
  else readBehindChain mode s s.inner s.segment c

def readClosing (s : ParserState) (c : Cursor) : Parsed Node :=
  let (closing, b, d) := Parse.paren .closing s.inner c
  let segment := if closing then s.segment.pushBack Token.closingParen.toNode else s.segment
  readOperator mode { s with segment, inner := b } d

def readOperand (s : ParserState) (c : Cursor) : Parsed Node := do
  let (x, d) ← Parse.terminal mode .literal .literal c
  readClosing mode (s.putOperand (.ofToken? (x.map Token.literal))) d

def readComparator (s : ParserState) (c : Cursor) : Parsed Node := do
  let (x, d) ← Parse.comparator mode c
  readOperand mode (s.putComparator (.ofToken? (x.map Comparator.token))) d

def readList (s : ParserState) (c : Cursor) : Parsed Node := do
  let (x, d) ← Parse.checked mode s.buffered c
  readClosing mode (s.putOperand (.ofList? x)) d

def readItem (s : ParserState) (c : Cursor) : Parsed Node := do
  let (x, d) ← Parse.listBehind mode s.buffered c
  readClosing mode (s.putOperand (.ofList? x)) d

def readInOperator (s : ParserState) (c : Cursor) : Parsed Node :=
  readItem mode (s.putInOperator Token.inOperator.toNode) c.advance

def readComparison (s : ParserState) (c : Cursor) : Parsed Node :=
  if c.current = Token.inOperator then readInOperator mode s c else readComparator mode s c

def readKey (s : ParserState) (c : Cursor) : Parsed Node := do
  let (x, d) ← Parse.terminal mode .identifier .identifier c
  readComparison mode (s.putKey (.ofToken? (x.map Token.identifier))) d

def readSegment (s : ParserState) (c : Cursor) : Parsed Node := do
  Logged.write (.filters c.position)
  let (opening, b, d) := Parse.paren .opening s.inner c
  let openings : List Node := if opening then [Token.openingParen.toNode] else []
  readKey mode { s with segment := .branch .filters openings, inner := b } d

def readWrappers (s : ParserState) (c : Cursor) : Parsed Node :=
  let (b, d) := Parse.wrappers s.outer c
  readChain mode
    { s with
      root := .branch .expression (List.replicate b.count Token.openingParen.toNode)
      outer := b } d

/-- What a parser still reads when `c` is ahead of it. -/
def remaining (s : ParserState) (c : Cursor) : Parsed Node :=
  match s.place with
  | .wrappers => readWrappers mode s c
  | .segment => readChain mode s c
  | .key => readKey mode s c
  | .comparison => readComparison mode s c
  | .inOperator => readInOperator mode s c
  | .item => readItem mode s c
  | .list => readList mode s c
  | .comparator => readComparator mode s c
  | .operand => readOperand mode s c
  | .closing => readClosing mode s c
  | .operator => readOperator mode s c
  | .ending => readEnding mode s c
  | .trailing => readTrailing mode s c
  | .finished => pure s.root
  | .failed e => Logged.fail e
  | .crashed => Logged.fail .emptyInput

end

section
variable {mode : Mode} {s : ParserState} {c : Cursor}

theorem readComparison_eq : readComparison mode s c =
    Parse.comparison mode c >>= fun (x, d) => readClosing mode
      { s with segment := s.segment.pushBack (.branch .filter [s.key, x.toNode]) } d := by
  by_cases hc : c.current = Token.inOperator
  · rw [readComparison, if_pos hc, Parse.comparison, if_pos hc, Logged.bind_bind,
      Parse.list_eq_listBehind]
    rfl
  · rw [readComparison, if_neg hc, Parse.comparison, if_neg hc, Logged.bind_bind]
    rw [readComparator]
    congr 1
    funext ⟨op, d⟩
    rw [Logged.bind_bind]
    rfl

theorem readKey_eq : readKey mode s c =
    Parse.filter mode c >>= fun (x, d) =>
      readClosing mode { s with segment := s.segment.pushBack x.toNode } d := by
  rw [readKey, Parse.filter, Logged.bind_bind]
  congr 1
  funext ⟨key, d⟩
  dsimp only
  rw [Logged.bind_bind, readComparison_eq]
  rfl

theorem readSegment_eq : readSegment mode s c =
    Parse.segment mode s.inner c >>= fun (x, b, d) =>
      readOperator mode { s with segment := .branch .filters x.nodes, inner := b } d := by
  rw [readSegment, Parse.segment, Logged.bind_bind]
  congr 1
  funext _
  obtain ⟨opening, b, d⟩ := Parse.paren .opening s.inner c
  dsimp only
  rw [Logged.bind_bind, readKey_eq]
  congr 1
  funext ⟨x, d⟩
  dsimp only [readClosing]
  obtain ⟨closing, b', d'⟩ := Parse.paren .closing b d
  cases opening <;> cases closing <;> rfl

theorem readBehindChain_cons (x : Segment) (operator : Token) (tail : Chain) (b : Balance)
    (d : Cursor) (hoperator : operator.kind = .logicalOperator) :
    readBehindChain mode s b (tail.cons x operator.text).toNode d =
      readBehindChain mode
        { s with heads := s.heads ++ [(Node.branch .filters x.nodes).pushBack operator.toNode] }
        b tail.toNode d := by
  have htoken : Token.logical operator.text = operator := by rw [Token.logical, ← hoperator]
  have hnode : (Chain.cons x operator.text tail).toNode =
      ((Node.branch .filters x.nodes).pushBack operator.toNode).pushBack tail.toNode := by
    rw [Chain.toNode_cons, htoken]
    simp [Node.branch, Node.pushBack]
  simp only [readBehindChain, hnode, List.foldr_append]
  rfl

theorem readChain_eq : readChain mode s c = readSegment mode s c := by
  rw [readSegment_eq, readChain, Parse.segments_eq, Logged.bind_bind]
  congr 1
  funext ⟨x, b, d⟩
  dsimp only
  by_cases hd : d.current.kind = .logicalOperator
  · rw [if_pos hd, readOperator, if_pos hd, readChain, Logged.bind_bind]
    congr 1
    funext ⟨tail, b', e⟩
    exact readBehindChain_cons x d.current tail b' e hd
  · rw [if_neg hd, readOperator, if_neg hd]
    rfl

theorem toNode_expression (n : Nat) (x : Chain) (closing : Bool) :
    (Expression.mk n x closing).toNode =
      let root : Node :=
        (Node.branch .expression (List.replicate n Token.openingParen.toNode)).pushBack x.toNode
      if closing then root.pushBack Token.closingParen.toNode else root := by
  cases closing <;>
    simp [Expression.toNode, Expression.openings, Expression.closings, Node.branch, Node.pushBack]

/-- The reading at the start of the tokens is their parse. -/
theorem readWrappers_start {ts : List Token} (hts : ts ≠ []) :
    readWrappers mode (start ts) (.start ts) = parse mode ts >>= fun e => pure e.toNode := by
  rw [parse, if_neg hts, Parse.expression, readWrappers]
  have houter : (start ts).outer = .empty := rfl
  rw [houter]
  obtain ⟨b, c⟩ := Parse.wrappers .empty (.start ts)
  simp only [readChain, Parse.chain_eq, Logged.bind_bind, Logged.pure_bind]
  congr 1
  funext ⟨x, b', d⟩
  dsimp only [readBehindChain, readEnding]
  congr 1
  funext _
  simp only [toNode_expression]
  rfl

end

end ParserState

end FilterQuery
