import FilterQuery.Query
import FilterQuery.Proofs.ChainAppend
import FilterQuery.Proofs.QuotedText
import FilterQuery.Proofs.TreeShape
/-!
# Queries joined by an operator

A query that the strict mode accepts goes on with another one behind a logical operator. The chain
of the second query then hangs in the last node of the chain of the first one.
-/
namespace FilterQuery

theorem IsGap.even_quotes {gap : List Char} (h : IsGap gap) : Even (gap.count '"') := by
  have hnone : '"' ∉ gap := fun hq => absurd (h '"' hq) (by decide)
  rw [List.count_eq_zero.mpr hnone]
  exact Even.zero

theorem WordsFit.even_quotes {words : List (Token × List Char)} (h : WordsFit words) :
    Even ((wordsText words).count '"') := by
  induction words with
  | nil => exact Even.zero
  | cons word words ih =>
    obtain ⟨hfits, hgap, hwords⟩ := h
    rw [wordsText, List.count_append, List.count_append]
    exact hfits.even_quotes.add (hgap.even_quotes.add (ih hwords))

theorem closed_of_tokenize_strict {query : String} {ts : List Token}
    (h : tokenize .strict query = .ok ts) (mode : Mode) :
    Even (query.toList.count '"') ∧ tokenize mode query = .ok ts := by
  rw [tokenize_eq] at h
  obtain ⟨s, hs, rfl⟩ := exists_spelling query.toList 0 ts h
  refine ⟨?_, s.tokenize_eq_tokens hs mode⟩
  rw [← hs, Spelling.text, List.count_append]
  exact s.lead_blank.even_quotes.add s.words_fit.even_quotes

theorem tokenize_spaced {mode : Mode} {left right : String} {xs ys : List Token}
    (hquotes : Even (left.toList.count '"')) (hleft : tokenize mode left = .ok xs)
    (hright : tokenize mode right = .ok ys) :
    tokenize mode (left ++ " " ++ right) = .ok (xs ++ ys) := by
  have hspace : isBlank ' ' := by decide
  have hblank : tokenize mode (" " ++ right) = .ok ys := by
    have hshift : tokenize mode (" " ++ right) = (tokenize mode right).mapError _ :=
      tokenize_blank hspace right
    rw [hshift, hright]
    rfl
  have hstop : ∀ c ∈ (" " ++ right).toList.head?, IsStop c := by
    simp [IsStop, hspace]
  rw [String.append_assoc, tokenize_append hquotes hstop, hleft, hblank]
  rfl

theorem tokenize_operator (mode : Mode) {op : String} (h : op ∈ ["&&", "||"]) :
    Even (op.toList.count '"') ∧ tokenize mode op = .ok [Token.logical op] := by
  simp only [List.mem_cons, List.not_mem_nil, or_false] at h
  rcases h with rfl | rfl <;> cases mode <;> exact ⟨by decide, by cbv⟩

theorem tokenize_joined {mode : Mode} {left right op : String} {xs ys : List Token}
    (hleft : tokenize .strict left = .ok xs) (hright : tokenize mode right = .ok ys)
    (hop : op ∈ ["&&", "||"]) :
    tokenize mode (left ++ " " ++ op ++ " " ++ right) = .ok (xs ++ Token.logical op :: ys) := by
  obtain ⟨hquotes, hleft⟩ := closed_of_tokenize_strict hleft mode
  obtain ⟨hplain, hoperator⟩ := tokenize_operator mode hop
  have hspace : Even (" ".toList.count '"') := by decide
  have hfront := tokenize_spaced hquotes hleft hoperator
  have heven : Even ((left ++ " " ++ op).toList.count '"') := by
    rw [String.toList_append, String.toList_append, List.count_append, List.count_append]
    exact (hquotes.add hspace).add hplain
  rw [tokenize_spaced heven hfront hright, List.append_assoc]
  rfl

namespace Node

mutual

/-- The tree with `extra` put behind the children of the last node that is reached from the root
through last children labelled as filter chains. -/
def graft (extra : List Node) : Node → Node
  | ⟨kind, value, children⟩ => ⟨kind, value, graftAll extra children⟩

def graftAll (extra : List Node) : List Node → List Node
  | [] => extra
  | [n] => if n.kind = .filters then [n.graft extra] else n :: extra
  | n :: m :: ns => n :: graftAll extra (m :: ns)

end

section
variable {extra : List Node}

theorem graft_branch (kind : NodeKind) (children : List Node) :
    (branch kind children).graft extra = branch kind (graftAll extra children) := by
  rw [branch, graft, branch]

theorem graftAll_append (ms : List Node) (n : Node) (ns : List Node) :
    graftAll extra (ms ++ n :: ns) = ms ++ graftAll extra (n :: ns) := by
  induction ms with
  | nil => rfl
  | cons m ms ih =>
    cases ms with
    | nil => rw [List.cons_append, List.nil_append, graftAll, List.cons_append, List.nil_append]
    | cons m' ms => rw [List.cons_append, List.cons_append, graftAll, ← List.cons_append, ih]; rfl

theorem graftAll_filters (ms : List Node) {n : Node} (h : n.kind = .filters) :
    graftAll extra (ms ++ [n]) = ms ++ [n.graft extra] := by
  rw [graftAll_append, graftAll, if_pos h]

theorem graftAll_of_ne (ms : List Node) {n : Node} (h : n.kind ≠ .filters) :
    graftAll extra (ms ++ [n]) = ms ++ n :: extra := by
  rw [graftAll_append, graftAll, if_neg h]

end

end Node

theorem Segment.exists_nodes_eq (s : Segment) :
    ∃ ms n, s.nodes = ms ++ [n] ∧ n.kind ≠ .filters := by
  obtain ⟨opening, filter, closing⟩ := s
  cases closing with
  | false => exact ⟨_, filter.toNode, rfl, by simp [Filter.toNode, Node.branch]⟩
  | true =>
    refine ⟨Segment.nodes ⟨opening, filter, false⟩, Token.closingParen.toNode, ?_, by decide⟩
    simp [nodes, openings, closings]

namespace Chain

theorem toNode_append (x : Chain) (operator : String) (y : Chain) :
    (x.append operator y).toNode =
      x.toNode.graft [(Token.logical operator).toNode, y.toNode] := by
  obtain ⟨links, last⟩ := x
  induction links with
  | nil =>
    obtain ⟨ms, n, hnodes, hn⟩ := last.exists_nodes_eq
    change Node.branch .filters (last.nodes ++ _) = (Node.branch .filters last.nodes).graft _
    rw [Node.graft_branch, hnodes, Node.graftAll_of_ne ms hn, List.append_assoc]
    rfl
  | cons link links ih =>
    change Node.branch .filters (link.1.nodes ++ [_, (append ⟨links, last⟩ operator y).toNode]) =
      (Node.branch .filters (link.1.nodes ++ [_, toNode ⟨links, last⟩])).graft _
    have hsplit (n : Node) : link.1.nodes ++ [(Token.logical link.2).toNode, n] =
        (link.1.nodes ++ [(Token.logical link.2).toNode]) ++ [n] := by simp
    rw [Node.graft_branch, hsplit, hsplit, Node.graftAll_filters _ (kind_toNode _), ih]

end Chain

namespace Expression

theorem eq_of_children {e : Expression} {n : Node} (h : e.toNode.children = [n]) :
    e = ⟨0, e.chain, false⟩ ∧ e.chain.toNode = n := by
  obtain ⟨wrappers, chain, closing⟩ := e
  have hlength := congrArg List.length h
  simp only [toNode, Node.branch, openings, closings, List.length_append, List.length_map,
    List.length_replicate, List.length_cons, List.length_nil] at hlength
  obtain rfl : wrappers = 0 := by omega
  cases closing with
  | true => simp at hlength
  | false => exact ⟨rfl, List.singleton_inj.mp h⟩

end Expression

/-- A chain that the strict parser accepts may stand in front of what either parser accepts. -/
theorem parse_joined {mode : Mode} {xs ys : List Token} {x y : Chain} (operator : String)
    (hx : (parse .strict xs).result = .ok ⟨0, x, false⟩)
    (hy : (parse mode ys).result = .ok ⟨0, y, false⟩) :
    (parse mode (xs ++ Token.logical operator :: ys)).result =
      .ok ⟨0, x.append operator y, false⟩ := by
  obtain ⟨⟨hsegments, -, -, -, hparens⟩, rfl⟩ := parse_strict_iff.mp hx
  obtain ⟨-, dropped, rest, rfl, ⟨hlinks, hlast⟩, ⟨-, -, -, hparens'⟩, hstrict⟩ :=
    Parse.parse_ok_iff.mp hy
  have hbare (z : Chain) : (⟨0, z, false⟩ : Expression).tokens = z.tokens := by
    simp [Expression.tokens, Expression.openings, Expression.closings]
  refine Parse.parse_ok_iff.mpr ⟨by simp, dropped, rest, ?_, ⟨?_, hlast⟩,
    ⟨by simp, by simp, rfl, ?_⟩, fun hm => ⟨?_, (hstrict hm).2⟩⟩
  · simp [hbare]
  · -- the last segment of the first chain is a link of the joined one
    obtain ⟨hfront, hs, hfull⟩ := Chain.forall_segments.mp hsegments
    refine List.forall_mem_append.mpr ⟨fun l hl => ?_, ?_⟩
    · exact ⟨(hfront l hl).1, (hfront l hl).2.whole⟩
    · exact List.forall_mem_cons.mpr ⟨⟨hs, hfull.whole⟩, hlinks⟩
  · change (x.append operator y).parens % 2 = 0
    rw [Chain.parens_append, Nat.add_mod, hparens, hparens']
  · intro s hs
    change s ∈ (x.append operator y).segments at hs
    rw [Chain.segments_append] at hs
    rcases List.mem_append.mp hs with hs | hs
    · exact (hsegments s hs).2
    · exact (hstrict hm).1 s hs

/-- Two accepted queries without further parentheses around them make an accepted query, whose
tree is that of the first with the operator and the chain of the second in its last chain node. -/
theorem queryTree_joined {mode : Mode} {left right op : String} {t u chain rest : Node}
    (ht : queryTree .strict left = .ok t) (hu : queryTree mode right = .ok u)
    (hchain : t.children = [chain]) (hrest : u.children = [rest]) (hop : op ∈ ["&&", "||"]) :
    chain.kind = .filters ∧ rest.kind = .filters ∧
      queryTree mode (left ++ " " ++ op ++ " " ++ right) =
        .ok { t with children := [chain.graft [.leaf .logicalOperator op, rest]] } := by
  obtain ⟨xs, e, hscan, hparse, rfl⟩ := queryTree_ok_iff.mp ht
  obtain ⟨ys, e', hscan', hparse', rfl⟩ := queryTree_ok_iff.mp hu
  obtain ⟨he, rfl⟩ := Expression.eq_of_children hchain
  obtain ⟨he', rfl⟩ := Expression.eq_of_children hrest
  rw [he] at hparse
  rw [he'] at hparse'
  refine ⟨Chain.kind_toNode _, Chain.kind_toNode _, queryTree_ok_iff.mpr ⟨_, _,
    tokenize_joined hscan hscan' hop, parse_joined op hparse hparse', ?_⟩⟩
  change Node.branch .expression [(e.chain.append op e'.chain).toNode] = _
  rw [Chain.toNode_append]
  rfl

/-- Both queries have parentheses of their own, and a part of the second one is passed over. -/
theorem queryTree_joined_skipped : ∃ t u chain rest : Node,
    queryTree .strict "(a eq: 1 && b gt: 2)" = .ok t ∧ queryTree .lenient "(c eq: $ 3) d" = .ok u ∧
    t.children = [chain] ∧ u.children = [rest] ∧
    queryTree .lenient ("(a eq: 1 && b gt: 2)" ++ " " ++ "||" ++ " " ++ "(c eq: $ 3) d") =
      .ok { t with children := [chain.graft [.leaf .logicalOperator "||", rest]] } := by
  let first : Chain :=
    ⟨[(⟨true, ⟨some "a", .scalar (some .eq) (some "1")⟩, false⟩, "&&")],
      ⟨false, ⟨some "b", .scalar (some .gt) (some "2")⟩, true⟩⟩
  let second : Chain := ⟨[], ⟨true, ⟨some "c", .scalar (some .eq) (some "3")⟩, true⟩⟩
  have hfirst : queryTree .strict "(a eq: 1 && b gt: 2)" =
      .ok (Expression.toNode ⟨0, first, false⟩) := by cbv
  have hsecond : queryTree .lenient "(c eq: $ 3) d" =
      .ok (Expression.toNode ⟨0, second, false⟩) := by cbv
  exact ⟨_, _, first.toNode, second.toNode, hfirst, hsecond, rfl, rfl,
    (queryTree_joined hfirst hsecond rfl rfl (by decide)).2.2⟩

end FilterQuery
