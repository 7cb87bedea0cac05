import FilterQuery.Expression.Balance
import FilterQuery.Expression.Parse.Filter
/-!
# Parsing a chain

    CHAIN   := SEGMENT (LOGICAL CHAIN)?
    SEGMENT := '('? FILTER ')'?

A chain of any length is read by a loop. `segments` reads the same by recursion on the grammar,
and `chainOnto_eq` says that the two agree in value, place, error and log.
-/
namespace FilterQuery.Parse

/-- Takes the current token if it is the parenthesis `p`, and says whether it did. -/
def paren (p : Paren) (b : Balance) (c : Cursor) : Bool × Balance × Cursor :=
  if c.current = p.token then (true, b.record p, c.advance) else (false, b, c)

def segment (mode : Mode) (b : Balance) (c : Cursor) : Parsed (Segment × Balance × Cursor) := do
  Logged.write (.filters c.position)
  let (opening, b, c) := paren .opening b c
  let (filter, c) ← filter mode c
  let (closing, b, c) := paren .closing b c
  return (⟨opening, filter, closing⟩, b, c)

theorem reaches_paren (p : Paren) (b : Balance) (c : Cursor) : c.Reaches (paren p b c).2.2 := by
  unfold paren
  split
  · rename_i h
    exact Cursor.reaches_advance (by rw [h]; cases p <;> rfl)
  · exact .refl c

theorem reaches_segment {mode : Mode} {b b' : Balance} {c d : Cursor} {x : Segment}
    (h : (segment mode b c).result = .ok (x, b', d)) : c.Reaches d := by
  unfold segment at h
  obtain ⟨_, _, h⟩ := Logged.result_bind_eq_ok.mp h
  obtain ⟨⟨f, e⟩, hf, h⟩ := Logged.result_bind_eq_ok.mp h
  cases h
  exact ((reaches_paren _ b c).trans (reaches_filter hf)).trans (reaches_paren _ _ e)

private theorem length_next_segment_lt {mode : Mode} {b b' : Balance} {c d : Cursor} {x : Segment}
    (h : (segment mode b c).result = .ok (x, b', d)) (hd : d.current.kind = .logicalOperator) :
    d.advance.rest.length < c.rest.length :=
  Nat.lt_of_lt_of_le (Cursor.length_advance_lt (by simp [Token.isEof, hd]))
    (reaches_segment h).length_le

/-- Reads segments as long as a logical operator follows, behind those in `links`. -/
def chainOnto (mode : Mode) (log : Array ParseEvent) (links : Array (Segment × String))
    (b : Balance) (c : Cursor) : Parsed (Chain × Balance × Cursor) :=
  let step := segment mode b c
  match _h : step.result with
  | .error e => ⟨log.toList ++ step.log, .error e⟩
  | .ok (s, b', d) =>
    if _hd : d.current.kind = .logicalOperator then
      chainOnto mode (log ++ step.log) (links.push (s, d.current.text)) b' d.advance
    else ⟨log.toList ++ step.log, .ok (⟨links.toList, s⟩, b', d)⟩
termination_by c.rest.length
decreasing_by exact length_next_segment_lt _h _hd

/-- Reads a segment and, behind a logical operator, the rest of the chain. -/
def segments (mode : Mode) (b : Balance) (c : Cursor) : Parsed (Chain × Balance × Cursor) :=
  let step := segment mode b c
  match _h : step.result with
  | .error e => ⟨step.log, .error e⟩
  | .ok (s, b', d) =>
    if _hd : d.current.kind = .logicalOperator then
      let tail := segments mode b' d.advance
      ⟨step.log ++ tail.log,
        tail.result.map fun (chain, b, e) => (chain.cons s d.current.text, b, e)⟩
    else ⟨step.log, .ok (⟨[], s⟩, b', d)⟩
termination_by c.rest.length
decreasing_by exact length_next_segment_lt _h _hd

theorem segments_of_error {mode : Mode} {b : Balance} {c : Cursor} {e : ParseError}
    (h : (segment mode b c).result = .error e) :
    segments mode b c = ⟨(segment mode b c).log, .error e⟩ := by
  rw [segments]
  dsimp only
  split <;> simp_all

theorem segments_of_link {mode : Mode} {b b' : Balance} {c d : Cursor} {s : Segment}
    (h : (segment mode b c).result = .ok (s, b', d)) (hd : d.current.kind = .logicalOperator) :
    segments mode b c =
      ⟨(segment mode b c).log ++ (segments mode b' d.advance).log,
        (segments mode b' d.advance).result.map
          fun (chain, b, e) => (chain.cons s d.current.text, b, e)⟩ := by
  rw [segments]
  dsimp only
  split <;> simp_all

theorem segments_of_last {mode : Mode} {b b' : Balance} {c d : Cursor} {s : Segment}
    (h : (segment mode b c).result = .ok (s, b', d)) (hd : d.current.kind ≠ .logicalOperator) :
    segments mode b c = ⟨(segment mode b c).log, .ok (⟨[], s⟩, b', d)⟩ := by
  rw [segments]
  dsimp only
  split <;> simp_all

/-- The loop reads what the recursion reads. -/
theorem chainOnto_eq (mode : Mode) (log : Array ParseEvent) (links : Array (Segment × String))
    (b : Balance) (c : Cursor) :
    chainOnto mode log links b c =
      ⟨log.toList ++ (segments mode b c).log, (segments mode b c).result.map
        fun (chain, b, e) => (⟨links.toList ++ chain.links, chain.last⟩, b, e)⟩ := by
  fun_induction chainOnto mode log links b c with
  | case1 log links b c step e h => simp [segments_of_error h, step, Except.map]
  | case2 log links b c step s b' d h hd ih =>
    rw [ih, segments_of_link h hd]
    cases (segments mode b' d.advance).result <;> simp [step, Except.map, Chain.cons]
  | case3 log links b c step s b' d h hd => simp [segments_of_last h hd, step, Except.map]

/-- Reads a chain and checks its parentheses once, behind its last segment. -/
def chain (mode : Mode) (c : Cursor) : Parsed (Chain × Cursor) := do
  let (chain, b, c) ← chainOnto mode #[] #[] .empty c
  Logged.ofExcept b.check
  return (chain, c)

theorem chain_eq (mode : Mode) (c : Cursor) :
    chain mode c = do
      let (chain, b, c) ← segments mode .empty c
      Logged.ofExcept b.check
      return (chain, c) := by
  have h : chainOnto mode #[] #[] .empty c = segments mode .empty c := by
    rw [chainOnto_eq]
    ext1
    · simp
    · cases (segments mode .empty c).result <;> simp [Except.map]
  rw [chain, h]

end FilterQuery.Parse
