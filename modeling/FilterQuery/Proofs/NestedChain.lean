import FilterQuery.Expression.Parse.Chain
/-!
# Chains level by level

    FILTERS := '('? FILTER ')'? (LOGICAL FILTERS)?

Read by this rule a chain nests as its tree does, and each level checks the parentheses when the
levels inside it are done. By then every parenthesis of the chain has been met, so all levels check
the same balance, and a single check before the tree is folded decides for them all.
-/
namespace FilterQuery.Parse

/-- Reads a chain level by level. The levels share one balance, and each checks it before it returns
its node. -/
def nestedChain (mode : Mode) (b : Balance) (c : Cursor) : Parsed (Node × Balance × Cursor) := do
  let ⟨(s, b, d), _h⟩ ← (segment mode b c).attach
  if _hd : d.current.kind = .logicalOperator then
    let (rest, b, e) ← nestedChain mode b d.advance
    Logged.ofExcept b.check
    return (.branch .filters (s.nodes ++ [d.current.toNode, rest]), b, e)
  else
    Logged.ofExcept b.check
    return (.branch .filters s.nodes, b, d)
termination_by c.rest.length
decreasing_by
  have hlt := Cursor.length_advance_lt (c := d) (by simp [Token.isEof, _hd])
  have hle := (reaches_segment _h).length_le
  omega

section
variable {mode : Mode} {b : Balance} {c : Cursor}

theorem nestedChain_eq : nestedChain mode b c = do
    let (s, b, d) ← segment mode b c
    if d.current.kind = .logicalOperator then
      let (rest, b, e) ← nestedChain mode b d.advance
      Logged.ofExcept b.check
      return (.branch .filters (s.nodes ++ [d.current.toNode, rest]), b, e)
    else
      Logged.ofExcept b.check
      return (.branch .filters s.nodes, b, d) := by
  rw [nestedChain]
  refine Eq.trans ?_ (Logged.attach_bind _ _)
  rfl

theorem segments_eq : segments mode b c = do
    let (s, b, d) ← segment mode b c
    if d.current.kind = .logicalOperator then
      let (x, b, e) ← segments mode b d.advance
      return (x.cons s d.current.text, b, e)
    else
      return (⟨[], s⟩, b, d) := by
  cases h : (segment mode b c).result with
  | error e => rw [segments_of_error h, Logged.bind_eq_of_error h]
  | ok r =>
    obtain ⟨s, b', d⟩ := r
    rw [Logged.bind_eq_of_ok h]
    dsimp only
    by_cases hd : d.current.kind = .logicalOperator
    · rw [segments_of_link h hd, if_pos hd, Logged.log_bind_pure, Logged.result_bind]
      cases (segments mode b' d.advance).result <;> rfl
    · rw [segments_of_last h hd, if_neg hd, Logged.log_pure, List.append_nil]
      rfl

theorem check_level (s : Segment) (operator : Token) (x : Chain) (b : Balance) (e : Cursor)
    (hoperator : Token.logical operator.text = operator) :
    ((do
      Logged.ofExcept b.check
      return (x.toNode, b, e) : Parsed (Node × Balance × Cursor)) >>= fun (rest, b, e) => do
        Logged.ofExcept b.check
        return (Node.branch .filters (s.nodes ++ [operator.toNode, rest]), b, e)) = (do
      Logged.ofExcept b.check
      return ((x.cons s operator.text).toNode, b, e)) := by
  rw [Logged.bind_bind, Chain.toNode_cons, hoperator]
  exact Logged.ofExcept_twice b.check _

/-- The levels together read what the segments are, and fail as one check behind them does. -/
theorem nestedChain_eq_segments : nestedChain mode b c = do
    let (x, b, d) ← segments mode b c
    Logged.ofExcept b.check
    return (x.toNode, b, d) := by
  induction b, c using segments.induct mode with
  | case1 b c step e h =>
    rw [nestedChain_eq, segments_eq, Logged.bind_eq_of_error h, Logged.bind_eq_of_error h]
    rfl
  | case2 b c step s b' d h hd ih =>
    have hoperator : Token.logical d.current.text = d.current := by rw [Token.logical, ← hd]
    have hnested : nestedChain mode b c = segment mode b c >>= fun _ => do
        let (rest, b, e) ← nestedChain mode b' d.advance
        Logged.ofExcept b.check
        return (.branch .filters (s.nodes ++ [d.current.toNode, rest]), b, e) := by
      rw [nestedChain_eq, Logged.bind_of_ok h]
      exact congrArg _ (funext fun _ => if_pos hd)
    have hsegments : segments mode b c = segment mode b c >>= fun _ => do
        let (x, b, e) ← segments mode b' d.advance
        return (x.cons s d.current.text, b, e) := by
      rw [segments_eq, Logged.bind_of_ok h]
      exact congrArg _ (funext fun _ => if_pos hd)
    rw [hnested, hsegments, ih, Logged.bind_bind, Logged.bind_bind]
    congr 1
    funext _
    rw [Logged.bind_bind]
    congr 1
    funext ⟨x, b, e⟩
    exact check_level s d.current x b e hoperator
  | case3 b c step s b' d h hd =>
    have hnested : nestedChain mode b c = segment mode b c >>= fun _ => do
        Logged.ofExcept b'.check
        return (.branch .filters s.nodes, b', d) := by
      rw [nestedChain_eq, Logged.bind_of_ok h]
      exact congrArg _ (funext fun _ => if_neg hd)
    have hsegments : segments mode b c = segment mode b c >>= fun _ =>
        return (⟨[], s⟩, b', d) := by
      rw [segments_eq, Logged.bind_of_ok h]
      exact congrArg _ (funext fun _ => if_neg hd)
    rw [hnested, hsegments, Logged.bind_bind]
    rfl

/-- The loop with one check and the recursion with a check on each level return the same tree or the
same error, stop at the same place and write the same records. -/
theorem chain_eq_nestedChain (mode : Mode) (c : Cursor) :
    (do let (x, d) ← chain mode c
        return (x.toNode, d) : Parsed (Node × Cursor)) = do
      let (t, _, d) ← nestedChain mode .empty c
      return (t, d) := by
  rw [chain_eq, nestedChain_eq_segments, Logged.bind_bind, Logged.bind_bind]
  congr 1
  funext ⟨x, b, d⟩
  dsimp only
  cases b.check <;> rfl

end

end FilterQuery.Parse
