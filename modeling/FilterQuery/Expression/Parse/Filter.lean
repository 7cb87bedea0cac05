import FilterQuery.Expression
import FilterQuery.Expression.Cursor
import FilterQuery.Expression.Diagnostic
import FilterQuery.Mode
/-!
# Parsing a filter

    FILTER := KEY (IN LIST | COMPARATOR LITERAL)
    LIST   := '[' LITERAL (',' LITERAL)* ']'

When the input runs out, a lenient parser leaves out what is still due and a strict one fails.
The brackets and commas of a list are known by their text alone, whatever the kind of the token.
-/
namespace FilterQuery

namespace Parse

/-- The input ran out where `expected` was due. -/
def missing (mode : Mode) (expected : Construct) : Parsed Unit :=
  match mode with
  | .strict => Logged.fail (.unexpectedEnd expected)
  | .lenient => Logged.write (.exhausted expected)

def unexpected {α : Type} (expected : Construct) (found : Token) : Parsed α :=
  Logged.fail (.unexpectedToken expected found.text)

/-- The text of a token of the given kind. -/
def terminal (mode : Mode) (kind : TokenKind) (expected : Construct) (c : Cursor) :
    Parsed (Option String × Cursor) :=
  if c.current.isEof then do
    missing mode expected
    return (none, c)
  else if c.current.kind = kind then return (some c.current.text, c.advance)
  else unexpected expected c.current

def comparator (mode : Mode) (c : Cursor) : Parsed (Option Comparator × Cursor) :=
  if c.current.isEof then do
    missing mode .comparisonOperator
    return (none, c)
  else match c.current.comparator? with
    | some op => return (some op, c.advance)
    | none => unexpected .comparisonOperator c.current

/-- Whether a token neither ends a list nor the input. -/
def isInsideList (t : Token) : Bool := !t.isEof && t.text != "]"

/-- What should have stood in place of the token with this index in a list whose last token has
the index `last`; nothing if the token is right. -/
def expectedAt (last index : Nat) (t : Token) : Option Construct :=
  if index = 0 then if t.text = "[" then none else some .listOpening
  else if index = last then if t.text = "]" then none else some .listClosing
  else if index % 2 = 1 then if t.kind = .literal then none else some .literal
  else if t.text = "," then none else some .listSeparator

/-- The first token of a list that is not what its index asks for. -/
def listFault? (ts : List Token) : Option ParseError :=
  let last := ts.length - 1
  ts.zipIdx.findSome? fun (t, index) =>
    (expectedAt last index t).map fun expected => .unexpectedToken expected t.text

/-- The tokens of a list up to the first closing bracket, which are then checked by index.
A strict parser also refuses an even number, which leaves a literal out before the bracket. -/
def list (mode : Mode) (c : Cursor) : Parsed (Option (List Token) × Cursor) :=
  let inside := c.rest.takeWhile isInsideList
  let stop := c.skip inside.length
  if stop.current.isEof then do
    missing mode .listClosing
    return (none, stop)
  else
    let ts := inside ++ [stop.current]
    match listFault? ts with
    | some e => Logged.fail e
    | none =>
      if mode = .strict ∧ ts.length % 2 = 0 then unexpected .literal stop.current
      else return (some ts, stop.advance)

def comparison (mode : Mode) (c : Cursor) : Parsed (Comparison × Cursor) :=
  if c.current = Token.inOperator then do
    let (ts, c) ← list mode c.advance
    return (.membership ts, c)
  else do
    let (op, c) ← comparator mode c
    let (operand, c) ← terminal mode .literal .literal c
    return (.scalar op operand, c)

def filter (mode : Mode) (c : Cursor) : Parsed (Filter × Cursor) := do
  let (key, c) ← terminal mode .identifier .identifier c
  let (comparison, c) ← comparison mode c
  return (⟨key, comparison⟩, c)

theorem reaches_terminal {mode : Mode} {kind : TokenKind} {expected : Construct} {c d : Cursor}
    {x : Option String} (h : (terminal mode kind expected c).result = .ok (x, d)) :
    c.Reaches d := by
  unfold terminal at h
  split at h
  · obtain ⟨_, _, h⟩ := Logged.result_bind_eq_ok.mp h
    cases h
    exact .refl c
  · split at h
    · cases h
      exact Cursor.reaches_advance (by simp_all)
    · cases h

theorem reaches_comparator {mode : Mode} {c d : Cursor} {x : Option Comparator}
    (h : (comparator mode c).result = .ok (x, d)) : c.Reaches d := by
  unfold comparator at h
  split at h
  · obtain ⟨_, _, h⟩ := Logged.result_bind_eq_ok.mp h
    cases h
    exact .refl c
  · split at h
    · cases h
      exact Cursor.reaches_advance (by simp_all)
    · cases h

theorem drop_length_takeWhile (p : Token → Bool) (ts : List Token) :
    ts.drop (ts.takeWhile p).length = ts.dropWhile p := by
  induction ts with
  | nil => rfl
  | cons t ts ih =>
    cases h : p t <;> simp [h, ih]

theorem reaches_inside (c : Cursor) :
    c.Reaches (c.skip (c.rest.takeWhile isInsideList).length) := by
  refine ⟨c.rest.takeWhile isInsideList, ?_, rfl, ?_⟩
  · simp only [Cursor.skip, drop_length_takeWhile, List.takeWhile_append_dropWhile]
  · intro t ht
    have := List.all_takeWhile (p := isInsideList) (l := c.rest)
    have := List.all_eq_true.mp this t ht
    simp_all [isInsideList]

theorem reaches_list {mode : Mode} {c d : Cursor} {x : Option (List Token)}
    (h : (list mode c).result = .ok (x, d)) : c.Reaches d := by
  unfold list at h
  dsimp only at h
  split at h
  · obtain ⟨_, _, h⟩ := Logged.result_bind_eq_ok.mp h
    cases h
    exact reaches_inside c
  · split at h
    · cases h
    · split at h
      · cases h
      · cases h
        exact (reaches_inside c).trans (Cursor.reaches_advance (by simp_all))

theorem reaches_comparison {mode : Mode} {c d : Cursor} {x : Comparison}
    (h : (comparison mode c).result = .ok (x, d)) : c.Reaches d := by
  unfold comparison at h
  split at h
  · rename_i hc
    obtain ⟨⟨ts, e⟩, hl, h⟩ := Logged.result_bind_eq_ok.mp h
    cases h
    exact (Cursor.reaches_advance (by rw [hc]; rfl)).trans (reaches_list hl)
  · obtain ⟨⟨op, e⟩, ho, h⟩ := Logged.result_bind_eq_ok.mp h
    obtain ⟨⟨x, e'⟩, hx, h⟩ := Logged.result_bind_eq_ok.mp h
    cases h
    exact (reaches_comparator ho).trans (reaches_terminal hx)

theorem reaches_filter {mode : Mode} {c d : Cursor} {x : Filter}
    (h : (filter mode c).result = .ok (x, d)) : c.Reaches d := by
  unfold filter at h
  obtain ⟨⟨key, e⟩, hk, h⟩ := Logged.result_bind_eq_ok.mp h
  obtain ⟨⟨x, e'⟩, hx, h⟩ := Logged.result_bind_eq_ok.mp h
  cases h
  exact (reaches_terminal hk).trans (reaches_comparison hx)

end Parse

end FilterQuery
