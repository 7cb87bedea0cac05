import FilterQuery.Proofs.Failing
import FilterQuery.Proofs.NestedChain
import FilterQuery.Proofs.Records
import FilterQuery.Proofs.TreeShape
/-!
# What the log of a parser says of its tree

While a parser reads it records where each segment starts and then what is missing from the last
one. The tree tells the same: of its filters nodes by the tokens before them, of what is missing by
its leaves. Behind these records stands what became of the rest of the input.
-/
namespace FilterQuery

namespace Logged

variable {ρ ε α β : Type} {before : List ρ}

/-- If the computation succeeds with `a`, its records behind those in `before` are `told a`. -/
def Tells (before : List ρ) (x : Logged ρ ε α) (told : α → List ρ) : Prop :=
  ∀ a, x.result = .ok a → before ++ x.log = told a

theorem tells_pure {a : α} {told : α → List ρ} :
    Tells before (pure a : Logged ρ ε α) told ↔ before = told a := by
  simp [Tells]

theorem tells_fail (e : ε) (told : α → List ρ) : Tells before (fail e : Logged ρ ε α) told := by
  intro a h
  cases h

theorem tells_write (r : ρ) :
    Tells before (write r : Logged ρ ε Unit) fun _ => before ++ [r] := by
  intro a h
  rfl

theorem tells_ofExcept (x : Except ε α) :
    Tells before (ofExcept x : Logged ρ ε α) fun _ => before := by
  intro a h
  exact List.append_nil before

theorem Tells.bind {x : Logged ρ ε α} {f : α → Logged ρ ε β} {told : α → List ρ}
    {told' : β → List ρ} (hx : Tells before x told)
    (hf : ∀ a, x.result = .ok a → Tells (told a) (f a) told') : Tells before (x >>= f) told' := by
  intro b hb
  obtain ⟨a, ha, hb⟩ := result_bind_eq_ok.mp hb
  rw [log_bind_ok ha, ← List.append_assoc, hx a ha]
  exact hf a ha b hb

end Logged

/-! ### Records of what is missing -/

/-- What is missing if the part `x` is. -/
def Construct.unless {α : Type} (expected : Construct) : Option α → List Construct
  | some _ => []
  | none => [expected]

def Comparison.missing : Comparison → List Construct
  | .scalar comparator operand =>
    Construct.comparisonOperator.unless comparator ++ Construct.literal.unless operand
  | .membership list => Construct.listClosing.unless list

/-- The parts of a filter that were due when the input ran out. -/
def Filter.missing (f : Filter) : List Construct :=
  Construct.identifier.unless f.key ++ f.comparison.missing

/-- The records of what is missing from a filter. -/
def Filter.gaps (f : Filter) : List ParseEvent := f.missing.map .exhausted

theorem Filter.Whole.missing_eq_nil {f : Filter} (h : f.Whole) : f.missing = [] := by
  have hsome {α : Type} {expected : Construct} {x : Option α} (hx : x.isSome) :
      expected.unless x = [] := by
    obtain ⟨a, rfl⟩ := Option.isSome_iff_exists.mp hx
    rfl
  obtain ⟨key, x⟩ := f
  obtain ⟨hkey, hx⟩ := h
  rw [missing, hsome hkey]
  cases x with
  | scalar op operand => rw [Comparison.missing, hsome hx.1, hsome hx.2]; rfl
  | membership list => exact hsome hx

namespace Parse

variable {mode : Mode} {before : List ParseEvent}

theorem tells_missing (expected : Construct) :
    Logged.Tells before (missing mode expected) fun _ => before ++ [.exhausted expected] := by
  cases mode with
  | lenient => exact Logged.tells_write _
  | strict => exact Logged.tells_fail _ _

theorem tells_single {α : Type} (expected : Construct) (read : Token → Option α) (c : Cursor) :
    Logged.Tells before (single mode expected read c)
      fun r => before ++ (expected.unless r.1).map .exhausted := by
  unfold single
  split
  · exact (tells_missing expected).bind fun _ _ => Logged.tells_pure.mpr rfl
  · split
    · exact Logged.tells_pure.mpr (List.append_nil before).symm
    · exact Logged.tells_fail _ _

theorem tells_list (c : Cursor) :
    Logged.Tells before (list mode c)
      fun r => before ++ (Construct.listClosing.unless r.1).map .exhausted := by
  unfold list
  dsimp only
  split
  · exact (tells_missing _).bind fun _ _ => Logged.tells_pure.mpr rfl
  · split
    · exact Logged.tells_fail _ _
    · split
      · exact Logged.tells_fail _ _
      · exact Logged.tells_pure.mpr (List.append_nil before).symm

theorem tells_filter (c : Cursor) :
    Logged.Tells before (filter mode c) fun r => before ++ r.1.gaps := by
  have hcomparison (before : List ParseEvent) (c : Cursor) : Logged.Tells before (comparison mode c)
      fun r => before ++ r.1.missing.map .exhausted := by
    unfold comparison
    split
    · exact (tells_list _).bind fun _ _ => Logged.tells_pure.mpr rfl
    · rw [comparator_eq_single]
      refine (tells_single _ _ _).bind fun _ _ => ?_
      dsimp only
      rw [terminal_eq_single]
      refine (tells_single _ _ _).bind fun _ _ => Logged.tells_pure.mpr ?_
      rw [Comparison.missing, List.map_append, List.append_assoc]
  unfold filter
  rw [terminal_eq_single]
  refine (tells_single _ _ _).bind fun _ _ => (hcomparison _ _).bind fun _ _ => ?_
  rw [Logged.tells_pure, Filter.gaps, Filter.missing, List.map_append, List.append_assoc]

/-! ### Records of segments -/

theorem tells_segment (b : Balance) (c : Cursor) :
    Logged.Tells before (segment mode b c)
      fun r => before ++ .filters c.position :: r.1.filter.gaps := by
  refine (Logged.tells_write _).bind fun _ _ => (tells_filter _).bind fun _ _ => ?_
  rw [Logged.tells_pure, List.append_assoc]
  rfl

theorem segment_before_operator {b b' : Balance} {c d : Cursor} {s : Segment}
    (h : (segment mode b c).result = .ok (s, b', d)) (hd : d.current.kind = .logicalOperator) :
    s.filter.gaps = [] ∧ d.position = c.position + s.tokens.length := by
  obtain ⟨dropped, hpasses, ⟨hshaped, hwhole, -⟩, -⟩ := segment_ok_iff.mp h
  have hwhole := hwhole.resolve_right fun hend => by simp [Token.isEof, hd] at hend
  obtain rfl := hshaped.dropped_eq_nil hwhole
  rw [List.append_nil] at hpasses
  refine ⟨?_, hpasses.2⟩
  rw [Filter.gaps, hwhole.missing_eq_nil, List.map_nil]

end Parse

/-- Where the segments of a chain start if the first one starts at `position`. -/
def Chain.startsAt (position : Nat) : List (Segment × String) → List Nat
  | [] => [position]
  | l :: links => position :: startsAt (position + l.1.tokens.length + 1) links

/-- The records of a chain that starts at `position`. -/
def Chain.records (position : Nat) (x : Chain) : List ParseEvent :=
  (startsAt position x.links).map .filters ++ x.last.filter.gaps

namespace Parse

variable {mode : Mode} {before : List ParseEvent}

theorem tells_segments (b : Balance) (c : Cursor) : ∀ before,
    Logged.Tells before (segments mode b c) fun r => before ++ r.1.records c.position := by
  induction b, c using segments.induct mode with
  | case1 b c step e h =>
    intro before
    rw [segments_eq]
    refine (tells_segment b c).bind fun r hr => ?_
    cases h.symm.trans hr
  | case2 b c step s b' d h hd ih =>
    intro before
    obtain ⟨hgaps, hposition⟩ := segment_before_operator h hd
    rw [segments_eq]
    refine (tells_segment b c).bind fun r hr => ?_
    cases h.symm.trans hr
    dsimp only
    rw [if_pos hd]
    refine (ih _).bind fun r _ => Logged.tells_pure.mpr ?_
    have hstart : d.advance.position = c.position + s.tokens.length + 1 := by
      rw [← hposition]
      rfl
    rw [hgaps, hstart, List.append_assoc]
    rfl
  | case3 b c step s b' d h hd =>
    intro before
    rw [segments_eq]
    refine (tells_segment b c).bind fun r hr => ?_
    cases h.symm.trans hr
    dsimp only
    rw [if_neg hd]
    exact Logged.tells_pure.mpr rfl

theorem position_wrappers {c d : Cursor} {b : Balance} (h : wrappers .empty c = (b, d)) :
    d.position = c.position + b.count := by
  obtain ⟨n, hpasses, rfl, -⟩ := wrappers_eq_iff.mp h
  rw [Balance.count_empty_after, List.length_replicate, hpasses.2, List.length_replicate]

theorem tells_expression (c : Cursor) (before : List ParseEvent) :
    Logged.Tells before (expression mode c)
      fun r => before ++ r.1.chain.records (c.position + r.1.wrappers) := by
  have hchain (c : Cursor) : Logged.Tells before (chain mode c)
      fun r => before ++ r.1.records c.position := by
    rw [chain_eq]
    refine (tells_segments _ _ _).bind fun _ _ => (Logged.tells_ofExcept _).bind fun _ _ => ?_
    exact Logged.tells_pure.mpr rfl
  unfold expression
  have hposition := position_wrappers (c := c) rfl
  refine (hchain _).bind fun _ _ => (Logged.tells_ofExcept _).bind fun _ _ => ?_
  rw [hposition]
  exact Logged.tells_pure.mpr rfl

/-! ### Records of a whole run -/

/-- The record of what stands from a place on, if anything does. -/
def ignored (c : Cursor) : List ParseEvent :=
  if c.rest = [] then [] else [.ignored c.rest.length c.current.text]

theorem tells_trailing (c : Cursor) :
    Logged.Tells before (trailing mode c) fun _ => before ++ ignored c := by
  unfold trailing ignored
  split
  · exact Logged.tells_pure.mpr (List.append_nil before).symm
  · cases mode with
    | strict => exact Logged.tells_fail _ _
    | lenient => exact Logged.tells_write _

end Parse

/-- The records of a parser that reads `e` and stops at `d`. -/
def Expression.log (e : Expression) (d : Cursor) : List ParseEvent :=
  e.chain.records e.wrappers ++ Parse.ignored d ++ [.finished d.position]

namespace Parse

variable {mode : Mode}

theorem log_parse {ts : List Token} {e : Expression} (h : (parse mode ts).result = .ok e) :
    ∃ d, (expression mode (.start ts)).result = .ok (e, d) ∧ (mode = .strict → d.rest = []) ∧
      (parse mode ts).log = e.log d := by
  obtain ⟨hts, d, hexpression, hstrict⟩ := parse_bind_iff.mp h
  refine ⟨d, hexpression, hstrict, ?_⟩
  have hrecords : (expression mode (.start ts)).log = e.chain.records e.wrappers := by
    simpa [Cursor.start] using tells_expression (.start ts) [] _ hexpression
  have hbehind : Logged.Tells (e.chain.records e.wrappers) (do
      trailing mode d
      Logged.write (.finished d.position)
      return e) fun _ => e.log d :=
    (tells_trailing d).bind fun _ _ => (Logged.tells_write _).bind fun _ _ =>
      Logged.tells_pure.mpr rfl
  rw [parse, if_neg hts] at h ⊢
  obtain ⟨_, hexpression', h⟩ := Logged.result_bind_eq_ok.mp h
  cases hexpression.symm.trans hexpression'
  rw [Logged.log_bind_ok hexpression, hrecords]
  exact hbehind e h

theorem traces_of_error {ts : List Token} {e : ParseError} (h : (parse mode ts).result = .error e) :
    Traces (parse mode ts) := by
  by_cases hts : ts = []
  · rw [parse, if_pos hts]
    exact Logged.writes_fail _
  · rw [parse_error_iff hts] at h
    rw [parse, if_neg hts]
    refine Logged.writes_bind_iff.mpr ⟨traces_expression _ _, fun r hr => ?_⟩
    rcases h with h | ⟨x, d, hok, rfl, hd, -⟩
    · cases h.symm.trans hr
    · cases hok.symm.trans hr
      dsimp only
      rw [trailing, if_neg hd]
      exact Logged.writes_fail _

end Parse

/-! ### Places in a tree -/

namespace Node

/-- Whether a node is a leaf that stands for a token and not for missing input. -/
def isToken (n : Node) : Bool := !n.isEof && n.children.isEmpty

/-- For each filters node among `ns` the number of leaves of tokens in front of it, where there
are `before` in front of all. -/
def places (before : Nat) : List Node → List Nat
  | [] => []
  | n :: ns => (if n.kind = .filters then [before] else []) ++ places (before + n.isToken.toNat) ns

section
variable {before : Nat} {xs ys : List Node}

theorem places_append (before : Nat) (xs ys : List Node) :
    places before (xs ++ ys) = places before xs ++ places (before + xs.countP isToken) ys := by
  induction xs generalizing before with
  | nil => rfl
  | cons x xs ih =>
    have hcount : (x :: xs).countP isToken = x.isToken.toNat + xs.countP isToken := by
      rw [List.countP_cons, Nat.add_comm]
      cases x.isToken <;> rfl
    rw [List.cons_append, places, places, ih, hcount, List.append_assoc, Nat.add_assoc]

theorem length_places (before : Nat) (xs : List Node) :
    (places before xs).length = xs.countP (·.kind = .filters) := by
  induction xs generalizing before with
  | nil => rfl
  | cons x xs ih =>
    rw [places, List.length_append, ih, List.countP_cons, Nat.add_comm]
    by_cases hx : x.kind = .filters <;> simp [hx]

theorem places_of_ne (h : ∀ x ∈ xs, x.kind ≠ .filters) : places before xs = [] := by
  rw [← List.length_eq_zero_iff, length_places, List.countP_eq_zero]
  simpa using h

theorem getElem?_places {n : Node} (h : n.kind = .filters) :
    (places before (xs ++ n :: ys))[xs.countP (·.kind = .filters)]? =
      some (before + xs.countP isToken) := by
  rw [places_append, ← length_places before xs, List.getElem?_append_right le_rfl, Nat.sub_self,
    places, if_pos h]
  rfl

theorem places_filters (h : xs ≠ []) :
    places before (branch .filters xs :: ys) = before :: places before ys := by
  have hchildren : xs.isEmpty = false := List.isEmpty_eq_false_iff.mpr h
  simp [places, branch, isToken, hchildren]

theorem written_eq (t : Node) : t.written = t.subtrees.filter isToken := by
  rw [written, leaves, List.filter_filter]
  rfl

theorem filter_isToken_eq_take {t : Node} {ns : List Node} (hsplit : t.subtrees = xs ++ ys)
    (h : t.written <+: ns) : xs.filter isToken = ns.take (xs.countP isToken) := by
  have hfirst : xs.filter isToken <+: t.written := by
    rw [written_eq, hsplit, List.filter_append]
    exact List.prefix_append _ _
  rw [List.countP_eq_length_filter]
  exact List.prefix_iff_eq_take.mp (hfirst.trans h)

theorem countP_isToken (ns : List Node) :
    (ns.flatMap subtrees).countP isToken = (ns.flatMap written).length := by
  rw [List.countP_eq_length_filter, List.filter_flatMap]
  exact congrArg _ (List.flatMap_congr fun t _ => (written_eq t).symm)

end

end Node

section
variable {links : List (Segment × String)} {last : Segment} {dropped : List Token}

theorem countP_isToken_toNode {ts : List Token} (h : ∀ t ∈ ts, t.kind ≠ .eof) :
    (ts.map Token.toNode).countP Node.isToken = ts.length := by
  rw [← flatMap_subtrees, Node.countP_isToken, flatMap_written h, List.length_map]

theorem Chain.places_toNode (hl : ∀ l ∈ links, l.1.filter.Shaped [])
    (h : last.filter.Shaped dropped) (before : Nat) :
    Node.places before (Chain.mk links last).toNode.subtrees = startsAt before links := by
  induction links generalizing before with
  | nil =>
    change Node.places before (Node.branch .filters last.nodes).subtrees = _
    rw [Node.subtrees_branch, Node.places_filters (by simp [Segment.nodes]),
      Node.places_of_ne (Segment.kind_ne_filters h)]
    rfl
  | cons link links ih =>
    have ih := ih fun l hmem => hl l (List.mem_cons_of_mem _ hmem)
    have hs := hl link List.mem_cons_self
    have hcount : (link.1.nodes.flatMap Node.subtrees).countP Node.isToken =
        link.1.tokens.length := by
      rw [Node.countP_isToken, Segment.written_nodes hs, List.length_map]
    change Node.places before (Chain.cons link.1 link.2 ⟨links, last⟩).toNode.subtrees = _
    rw [toNode_cons, Node.subtrees_branch, Node.places_filters (by simp), List.flatMap_append,
      List.flatMap_cons, List.flatMap_singleton, Node.subtrees_toNode, Node.places_append,
      Node.places_of_ne (Segment.kind_ne_filters hs), hcount, Node.places_append,
      Node.places_of_ne (by simp [Token.kind_toNode_ne_filters]), ih]
    rfl

/-- The segments of an expression start where its tree has its filters nodes. -/
theorem Expression.places_toNode {e : Expression} {dropped : List Token} {next : Token}
    (h : e.Ends dropped next) :
    Node.places 0 e.toNode.subtrees = Chain.startsAt e.wrappers e.chain.links := by
  obtain ⟨hopenings, -⟩ := List.forall_mem_append.mp e.parens_ne_eof
  have hchain : Node.places e.wrappers e.chain.toNode.subtrees =
      Chain.startsAt e.wrappers e.chain.links :=
    Chain.places_toNode (fun l hl => (h.1 l hl).1) h.2.1 _
  have htokens (ts : List Token) (before : Nat) :
      Node.places before (ts.map Token.toNode) = [] := by
    rw [Node.places_of_ne]
    simp [Token.kind_toNode_ne_filters]
  have hroot : e.toNode.isToken = false := by simp [toNode, Node.branch, Node.isToken]
  have hkind : e.toNode.kind ≠ .filters := by simp [toNode, Node.branch]
  have hcount : (e.openings.map Token.toNode).countP Node.isToken = e.wrappers := by
    rw [countP_isToken_toNode hopenings, openings, List.length_replicate]
  rw [subtrees_toNode, List.cons_append, List.cons_append, Node.places, if_neg hkind, hroot,
    Node.places_append, Node.places_append, htokens, htokens, List.nil_append, List.nil_append,
    List.append_nil]
  simpa [hcount] using hchain

theorem Chain.le_of_mem_startsAt {position p : Nat} (h : p ∈ startsAt position links) :
    position ≤ p := by
  induction links generalizing position with
  | nil => exact (List.mem_singleton.mp h).ge
  | cons l links ih =>
    rcases List.mem_cons.mp h with rfl | h
    · exact le_rfl
    · have := ih h
      omega

theorem Chain.pairwise_startsAt (position : Nat) (links : List (Segment × String)) :
    (startsAt position links).Pairwise (· < ·) := by
  induction links generalizing position with
  | nil => exact List.pairwise_singleton _ _
  | cons l links ih =>
    refine List.pairwise_cons.mpr ⟨fun p hp => ?_, ih _⟩
    have := le_of_mem_startsAt hp
    omega

/-! ### What is missing in a tree -/

theorem Token.countP_isEof {t : Token} (h : t.kind ≠ .eof) :
    t.toNode.leaves.countP Node.isEof = 0 := by
  rw [Node.leaves, Node.subtrees_toNode, List.countP_eq_zero]
  intro n hn
  rw [List.mem_singleton.mp (List.mem_of_mem_filter hn), isEof_toNode h]
  exact Bool.false_ne_true

theorem countP_isEof_toNode {ts : List Token} (h : ∀ t ∈ ts, t.kind ≠ .eof) :
    ((ts.map Token.toNode).flatMap Node.leaves).countP Node.isEof = 0 := by
  rw [List.countP_flatMap, List.map_map, List.sum_eq_zero]
  rw [List.forall_mem_map]
  exact fun t ht => t.countP_isEof (h t ht)

theorem Node.countP_isEof_ofToken? {α : Type} (expected : Construct) {f : α → Token}
    (h : ∀ a, (f a).kind ≠ .eof) (x : Option α) :
    (Node.ofToken? (x.map f)).leaves.countP isEof = (expected.unless x).length := by
  cases x with
  | none => rfl
  | some a => exact Token.countP_isEof (h a)

theorem Comparison.countP_isEof {x : Comparison} (h : x.Shaped dropped) :
    x.toNode.leaves.countP Node.isEof = x.missing.length := by
  cases x with
  | scalar op operand =>
    have hop (op : Comparator) : op.token.kind ≠ .eof := by
      simp [Comparator.token, Token.comparison]
    have hoperand (value : String) : (Token.literal value).kind ≠ .eof := by simp [Token.literal]
    rw [toNode, Node.leaves_branch (by simp), List.flatMap_cons, List.flatMap_singleton,
      List.countP_append, Node.countP_isEof_ofToken? .comparisonOperator hop,
      Node.countP_isEof_ofToken? .literal hoperand, missing, List.length_append]
  | membership list =>
    have hin : Token.inOperator.kind ≠ .eof := by decide
    rw [toNode, Node.leaves_branch (by simp), List.flatMap_cons, List.flatMap_singleton,
      List.countP_append, Token.countP_isEof hin, Nat.zero_add]
    cases list with
    | none => rfl
    | some ts =>
      have hne : ts.map Token.toNode ≠ [] := by
        obtain ⟨opening, items, closing, rfl, -⟩ := h.1
        simp
      exact (congrArg _ (Node.leaves_branch hne)).trans (countP_isEof_toNode h.1.kind_ne_eof)

theorem Filter.countP_isEof {f : Filter} (h : f.Shaped dropped) :
    f.toNode.leaves.countP Node.isEof = f.missing.length := by
  have hkey (key : String) : (Token.identifier key).kind ≠ .eof := by simp [Token.identifier]
  rw [toNode, Node.leaves_branch (by simp), List.flatMap_cons, List.flatMap_singleton,
    List.countP_append, Node.countP_isEof_ofToken? .identifier hkey, Comparison.countP_isEof h.2,
    missing, List.length_append]

theorem Segment.countP_isEof {s : Segment} (h : s.filter.Shaped dropped) :
    (s.nodes.flatMap Node.leaves).countP Node.isEof = s.filter.missing.length := by
  obtain ⟨hopenings, hclosings⟩ := List.forall_mem_append.mp s.parens_ne_eof
  rw [nodes, List.flatMap_append, List.flatMap_cons, List.countP_append, List.countP_append,
    countP_isEof_toNode hopenings, countP_isEof_toNode hclosings, Filter.countP_isEof h,
    Nat.zero_add, Nat.add_zero]

theorem Chain.countP_isEof (hl : ∀ l ∈ links, l.1.filter.Shaped [] ∧ l.1.filter.Whole)
    (h : last.filter.Shaped dropped) :
    (Chain.mk links last).toNode.leaves.countP Node.isEof = last.filter.missing.length := by
  induction links with
  | nil =>
    change (Node.branch .filters last.nodes).leaves.countP Node.isEof = _
    rw [Node.leaves_branch (by simp [Segment.nodes]), Segment.countP_isEof h]
  | cons link links ih =>
    have ih := ih fun l hmem => hl l (List.mem_cons_of_mem _ hmem)
    obtain ⟨hs, hwhole⟩ := hl link List.mem_cons_self
    have hoperator : (Token.logical link.2).kind ≠ .eof := by simp [Token.logical]
    change (Chain.cons link.1 link.2 ⟨links, last⟩).toNode.leaves.countP Node.isEof = _
    rw [toNode_cons, Node.leaves_branch (by simp), List.flatMap_append, List.flatMap_cons,
      List.flatMap_singleton, List.countP_append, List.countP_append, Segment.countP_isEof hs,
      hwhole.missing_eq_nil, Token.countP_isEof hoperator, ih]
    simp

theorem Expression.countP_isEof {e : Expression} {next : Token} (h : e.Ends dropped next) :
    e.toNode.leaves.countP Node.isEof = e.chain.last.filter.missing.length := by
  obtain ⟨hopenings, hclosings⟩ := List.forall_mem_append.mp e.parens_ne_eof
  have hchain : e.chain.toNode.leaves.countP Node.isEof = e.chain.last.filter.missing.length :=
    Chain.countP_isEof h.1 h.2.1
  rw [toNode, Node.leaves_branch (by simp), List.flatMap_append, List.flatMap_cons,
    List.countP_append, List.countP_append, countP_isEof_toNode hopenings,
    countP_isEof_toNode hclosings, hchain, Nat.zero_add, Nat.add_zero]

end

/-! ### Log and tree -/

namespace ParseEvent

/-- The position of the segment that a record is about. -/
def start? : ParseEvent → Option Nat
  | .filters position => some position
  | _ => none

def isExhausted : ParseEvent → Bool
  | .exhausted _ => true
  | _ => false

end ParseEvent

/-- The log `rs` of a parser that makes the tree `t` of the tokens `ts` says of it what it is. -/
structure LogAgrees (mode : Mode) (ts : List Token) (t : Node) (rs : List ParseEvent) : Prop where
  segments : (rs.filterMap ParseEvent.start?).length = t.subtrees.countP (·.kind = .filters)
  increasing : (rs.filterMap ParseEvent.start?).Pairwise (· < ·)
  /-- A filters node with `i` others before it has as many leaves of tokens before it as the record
  with index `i` says. These tokens are the first ones. -/
  places : ∀ before n after, t.subtrees = before ++ n :: after → n.kind = .filters →
    (rs.filterMap ParseEvent.start?)[before.countP (·.kind = .filters)]? =
      some (before.countP Node.isToken) ∧
    before.filter Node.isToken = (ts.take (before.countP Node.isToken)).map Token.toNode
  missing : rs.countP ParseEvent.isExhausted = t.leaves.countP Node.isEof
  /-- One summary tells where the parser stopped. What stands from there on, if anything does, is
  warned of, in the lenient mode only. -/
  summary : ∃ n ≤ ts.length, Parse.stopPosition? mode ts = some n ∧
    rs.filter (·.severity = .debug) = [.finished n] ∧
    (rs.filter (·.severity = .warn) =
      if h : n < ts.length then [.ignored (ts.length - n) ts[n].text] else []) ∧
    (n < ts.length → mode = .lenient)

theorem Chain.filterMap_records (position : Nat) (x : Chain) :
    (x.records position).filterMap ParseEvent.start? = startsAt position x.links := by
  have hgaps : x.last.filter.gaps.filterMap ParseEvent.start? = [] := by
    simp [Filter.gaps, ParseEvent.start?]
  rw [records, List.filterMap_append, hgaps, List.filterMap_map, List.append_nil]
  exact List.filterMap_some

theorem Chain.countP_records (position : Nat) (x : Chain) :
    (x.records position).countP ParseEvent.isExhausted = x.last.filter.missing.length := by
  have hstarts : ((startsAt position x.links).map ParseEvent.filters).countP
      ParseEvent.isExhausted = 0 := by
    simp [List.countP_map, Function.comp_def, ParseEvent.isExhausted]
  rw [records, List.countP_append, hstarts, Nat.zero_add, Filter.gaps, List.countP_map]
  exact congrFun List.countP_true _

theorem Chain.filter_records {severity : Severity} (h : severity ≠ .trace) (position : Nat)
    (x : Chain) : (x.records position).filter (·.severity = severity) = [] := by
  rw [List.filter_eq_nil_iff, records, List.forall_mem_append, Filter.gaps, List.forall_mem_map,
    List.forall_mem_map]
  simp [ParseEvent.severity, h.symm]

namespace Expression

variable (e : Expression) (d : Cursor)

theorem filterMap_log :
    (e.log d).filterMap ParseEvent.start? = Chain.startsAt e.wrappers e.chain.links := by
  have hbehind : (Parse.ignored d).filterMap ParseEvent.start? = [] := by
    rw [Parse.ignored]
    split <;> rfl
  rw [log, List.filterMap_append, List.filterMap_append, hbehind, Chain.filterMap_records]
  simp [ParseEvent.start?]

theorem countP_log :
    (e.log d).countP ParseEvent.isExhausted = e.chain.last.filter.missing.length := by
  have hbehind : (Parse.ignored d).countP ParseEvent.isExhausted = 0 := by
    rw [Parse.ignored]
    split <;> rfl
  rw [log, List.countP_append, List.countP_append, hbehind, Chain.countP_records]
  rfl

theorem debug_log : (e.log d).filter (·.severity = .debug) = [.finished d.position] := by
  have hbehind : (Parse.ignored d).filter (·.severity = .debug) = [] := by
    rw [Parse.ignored]
    split <;> rfl
  rw [log, List.filter_append, List.filter_append, hbehind, Chain.filter_records (by decide)]
  rfl

theorem warn_log : (e.log d).filter (·.severity = .warn) = Parse.ignored d := by
  have hignored : (Parse.ignored d).filter (·.severity = .warn) = Parse.ignored d := by
    rw [Parse.ignored]
    split <;> rfl
  rw [log, List.filter_append, List.filter_append, hignored, Chain.filter_records (by decide)]
  exact List.append_nil _

end Expression

theorem Cursor.Passes.of_start {ts taken : List Token} {d : Cursor}
    (h : (Cursor.start ts).Passes taken d) :
    d.position ≤ ts.length ∧ d.rest = ts.drop d.position := by
  obtain ⟨hts, hposition⟩ := h
  obtain rfl : ts = taken ++ d.rest := hts
  have hposition : d.position = taken.length := by simpa [start] using hposition
  rw [hposition]
  simp

theorem Parse.ignored_eq {ts : List Token} {c : Cursor} (h : c.rest = ts.drop c.position) :
    ignored c = if h : c.position < ts.length then
      [.ignored (ts.length - c.position) ts[c.position].text] else [] := by
  obtain ⟨n, rest⟩ := c
  obtain rfl : rest = ts.drop n := h
  by_cases hn : n < ts.length
  · have hcurrent : Cursor.current ⟨n, ts.drop n⟩ = ts[n] :=
      congrArg (List.headD · Token.eof) (List.drop_eq_getElem_cons hn)
    rw [dif_pos hn, ignored, if_neg (by simpa using hn), hcurrent]
    simp only [List.length_drop]
  · rw [dif_neg hn, ignored, if_pos (by simpa using hn)]

end FilterQuery
