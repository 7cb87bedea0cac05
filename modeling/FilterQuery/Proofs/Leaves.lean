import FilterQuery.Query
import FilterQuery.Proofs.ExpressionReading
/-!
# The leaves of a tree

From left to right the leaves of an expression's tree are the tokens that it was read from; a part
that is missing adds a leaf for the end of the input. All that the parser reads and leaves out is
the list behind an `IN:` that is never closed.
-/
namespace FilterQuery

namespace Node

mutual

/-- A tree and the trees below its root, in preorder. -/
def subtrees : Node → List Node
  | ⟨kind, value, children⟩ => ⟨kind, value, children⟩ :: subtreesAll children

/-- Neighbouring trees and the trees below their roots, in preorder. -/
def subtreesAll : List Node → List Node
  | [] => []
  | n :: ns => subtrees n ++ subtreesAll ns

end

/-- The nodes without children, from left to right. -/
def leaves (t : Node) : List Node := t.subtrees.filter (·.children.isEmpty)

/-- The leaves that stand for tokens and not for missing input. -/
def written (t : Node) : List Node := t.leaves.filter (!·.isEof)

/-- Whether a node is a comparison by `IN:`. -/
def isMembership (n : Node) : Bool :=
  n.kind = .comparison && (n.child? 0).any (·.sameSymbol Token.inOperator.toNode)

def memberships (t : Node) : List Node := t.subtrees.filter isMembership

/-- The operand behind the last `IN:` of a tree. -/
def lastList? (t : Node) : Option Node := t.memberships.getLast?.bind (·.child? 1)

section
variable {kind : NodeKind} {children : List Node}

theorem subtreesAll_eq (ns : List Node) : subtreesAll ns = ns.flatMap subtrees := by
  induction ns with
  | nil => rw [subtreesAll, List.flatMap_nil]
  | cons n ns ih => rw [subtreesAll, ih, List.flatMap_cons]

theorem subtrees_mk (value : Option String) :
    subtrees ⟨kind, value, children⟩ = ⟨kind, value, children⟩ :: children.flatMap subtrees := by
  rw [subtrees, subtreesAll_eq]

@[simp] theorem subtrees_branch :
    (branch kind children).subtrees = branch kind children :: children.flatMap subtrees :=
  subtrees_mk none

@[simp] theorem subtrees_toNode (t : Token) : t.toNode.subtrees = [t.toNode] := subtrees_mk _

@[simp] theorem subtrees_eof : Node.eof.subtrees = [Node.eof] := subtrees_mk _

theorem leaves_mk (value : Option String) (h : children ≠ []) :
    leaves ⟨kind, value, children⟩ = children.flatMap leaves := by
  rw [leaves, subtrees_mk, List.filter_cons_of_neg (by simpa using h), List.filter_flatMap]
  rfl

theorem leaves_branch (h : children ≠ []) :
    (branch kind children).leaves = children.flatMap leaves :=
  leaves_mk none h

theorem written_mk (value : Option String) (h : children ≠ []) :
    written ⟨kind, value, children⟩ = children.flatMap written := by
  rw [written, leaves_mk value h, List.filter_flatMap]
  rfl

theorem written_branch (h : children ≠ []) :
    (branch kind children).written = children.flatMap written :=
  written_mk none h

@[simp] theorem written_eof : Node.eof.written = [] := by
  rw [written, leaves, subtrees_eof]
  rfl

theorem memberships_branch : (branch kind children).memberships =
    [branch kind children].filter isMembership ++ children.flatMap memberships := by
  rw [memberships, subtrees_branch, ← List.singleton_append, List.filter_append,
    List.filter_flatMap]
  rfl

theorem memberships_of_ne (h : kind ≠ .comparison) :
    (branch kind children).memberships = children.flatMap memberships := by
  have hroot : (branch kind children).isMembership = false := by
    simp [isMembership, branch, h]
  rw [memberships_branch, List.filter_cons_of_neg (by simp [hroot]), List.filter_nil,
    List.nil_append]

end

end Node

section
variable {t : Token} {ts : List Token}

theorem Token.kind_toNode_eq_eof : t.toNode.kind = .eof ↔ t.kind = .eof := by
  obtain ⟨kind, text⟩ := t
  cases kind <;> simp [toNode, TokenKind.toNodeKind]

theorem Token.isEof_toNode (h : t.kind ≠ .eof) : t.toNode.isEof = false := by
  simpa [Node.isEof] using mt kind_toNode_eq_eof.mp h

theorem Token.written_toNode (h : t.kind ≠ .eof) : t.toNode.written = [t.toNode] := by
  have hleaf : t.toNode.children.isEmpty := rfl
  simp [Node.written, Node.leaves, hleaf, isEof_toNode h]

theorem Token.toNode_mem_written (h : t.kind ≠ .eof) {n : Node} (hn : t.toNode ∈ n.subtrees) :
    t.toNode ∈ n.written := by
  have hleaf : t.toNode ∈ n.leaves := List.mem_filter.mpr ⟨hn, rfl⟩
  exact List.mem_filter.mpr ⟨hleaf, by rw [isEof_toNode h]; rfl⟩

theorem flatMap_written (h : ∀ t ∈ ts, t.kind ≠ .eof) :
    (ts.map Token.toNode).flatMap Node.written = ts.map Token.toNode := by
  induction ts with
  | nil => rfl
  | cons t ts ih =>
    rw [List.map_cons, List.flatMap_cons, Token.written_toNode (h t List.mem_cons_self),
      ih fun t ht => h t (List.mem_cons_of_mem _ ht), List.singleton_append]

theorem Node.written_ofToken? {t : Option Token} (h : ∀ token ∈ t, token.kind ≠ .eof) :
    (Node.ofToken? t).written = t.toList.map Token.toNode := by
  cases t with
  | none => exact written_eof
  | some token => exact Token.written_toNode (h token rfl)

/-- The labels that are grammar symbols and not token kinds. -/
def NodeKind.symbols : List NodeKind := [.expression, .filters, .filter, .comparison, .list]

theorem Token.kind_toNode_notMem (t : Token) : t.toNode.kind ∉ NodeKind.symbols := by
  obtain ⟨kind, text⟩ := t
  cases kind <;> simp [toNode, TokenKind.toNodeKind, NodeKind.symbols]

theorem Token.memberships_toNode (t : Token) : t.toNode.memberships = [] := by
  have hkind : t.toNode.kind ≠ .comparison :=
    fun h => t.kind_toNode_notMem (by simp [h, NodeKind.symbols])
  simp [Node.memberships, Node.isMembership, hkind]

theorem flatMap_memberships (ts : List Token) :
    (ts.map Token.toNode).flatMap Node.memberships = [] := by
  simp [List.flatMap_map, Token.memberships_toNode]

end

theorem Comparison.written_toNode {x : Comparison} {dropped : List Token} (h : x.Shaped dropped) :
    x.toNode.written = x.tokens.map Token.toNode := by
  cases x with
  | scalar op operand =>
    have hop : ∀ t ∈ op.map Comparator.token, t.kind ≠ .eof := by
      cases op <;> simp [Comparator.token, Token.comparison]
    have hoperand : ∀ t ∈ operand.map Token.literal, t.kind ≠ .eof := by
      cases operand <;> simp [Token.literal]
    rw [toNode, Node.written_branch (by simp)]
    simp [Node.written_ofToken? hop, Node.written_ofToken? hoperand, tokens]
  | membership list =>
    have hin : Token.inOperator.toNode.written = [Token.inOperator.toNode] :=
      Token.written_toNode (by decide)
    rw [toNode, Node.written_branch (by simp)]
    cases list with
    | none => simp [hin, tokens]
    | some ts =>
      have hne : ts.map Token.toNode ≠ [] := by
        obtain ⟨opening, items, closing, rfl, -⟩ := h.1
        simp
      simp [hin, tokens, Node.written_branch hne, flatMap_written h.1.kind_ne_eof]

theorem Filter.written_toNode {f : Filter} {dropped : List Token} (h : f.Shaped dropped) :
    f.toNode.written = f.tokens.map Token.toNode := by
  have hkey : ∀ t ∈ f.key.map Token.identifier, t.kind ≠ .eof := by
    cases f.key <;> simp [Token.identifier]
  rw [toNode, Node.written_branch (by simp)]
  simp [Node.written_ofToken? hkey, Comparison.written_toNode h.2, tokens]

theorem Segment.parens_ne_eof (s : Segment) : ∀ t ∈ s.openings ++ s.closings, t.kind ≠ .eof := by
  cases hopening : s.opening <;> cases hclosing : s.closing <;>
    simp [openings, closings, hopening, hclosing, Token.openingParen, Token.closingParen,
      Token.separator]

theorem Expression.parens_ne_eof (e : Expression) :
    ∀ t ∈ e.openings ++ e.closings, t.kind ≠ .eof := by
  rw [List.forall_mem_append]
  constructor
  · intro t ht
    rw [List.eq_of_mem_replicate ht]
    decide
  · cases hclosing : e.closing <;> simp [closings, hclosing, Token.closingParen, Token.separator]

theorem Segment.written_nodes {s : Segment} {dropped : List Token}
    (h : s.filter.Shaped dropped) :
    s.nodes.flatMap Node.written = s.tokens.map Token.toNode := by
  obtain ⟨hopenings, hclosings⟩ := List.forall_mem_append.mp s.parens_ne_eof
  rw [nodes, List.flatMap_append, List.flatMap_cons, flatMap_written hopenings,
    flatMap_written hclosings, Filter.written_toNode h, tokens, List.map_append, List.map_append,
    List.append_assoc]

theorem Chain.written_toNode {links : List (Segment × String)} {last : Segment}
    {dropped : List Token} (hl : ∀ l ∈ links, l.1.filter.Shaped [])
    (h : last.filter.Shaped dropped) :
    (Chain.mk links last).toNode.written = (Chain.mk links last).tokens.map Token.toNode := by
  induction links with
  | nil =>
    change (Node.branch .filters last.nodes).written = last.tokens.map Token.toNode
    rw [Node.written_branch (by simp [Segment.nodes]), Segment.written_nodes h]
  | cons link links ih =>
    have ih := ih fun l hmem => hl l (List.mem_cons_of_mem _ hmem)
    have hs := Segment.written_nodes (hl link List.mem_cons_self)
    have hoperator : (Token.logical link.2).toNode.written = [(Token.logical link.2).toNode] :=
      Token.written_toNode (by simp [Token.logical])
    change (Chain.cons link.1 link.2 ⟨links, last⟩).toNode.written =
      (Chain.cons link.1 link.2 ⟨links, last⟩).tokens.map Token.toNode
    rw [toNode_cons, tokens_cons, Node.written_branch (by simp [Segment.nodes]),
      List.flatMap_append, hs, List.flatMap_cons, hoperator, List.flatMap_singleton, ih,
      List.map_append, List.map_cons, List.singleton_append]

/-- The leaves of an expression's tree are its tokens. -/
theorem Expression.written_toNode {e : Expression} {dropped : List Token} {next : Token}
    (h : e.Ends dropped next) : e.toNode.written = e.tokens.map Token.toNode := by
  obtain ⟨hopenings, hclosings⟩ := List.forall_mem_append.mp e.parens_ne_eof
  have hchain : e.chain.toNode.written = e.chain.tokens.map Token.toNode :=
    Chain.written_toNode (fun l hmem => (h.1 l hmem).1) h.2.1
  rw [toNode, Node.written_branch (by simp), List.flatMap_append, List.flatMap_cons,
    flatMap_written hopenings, flatMap_written hclosings, hchain, tokens, List.map_append,
    List.map_append, List.append_assoc]

theorem Node.memberships_ofToken? (t : Option Token) : (Node.ofToken? t).memberships = [] := by
  cases t with
  | none => rfl
  | some token => exact token.memberships_toNode

theorem Comparison.memberships_toNode (x : Comparison) :
    x.toNode.memberships = match x with
      | .scalar _ _ => []
      | .membership _ => [x.toNode] := by
  cases x with
  | scalar op operand =>
    have hroot : (Comparison.scalar op operand).toNode.isMembership = false := by
      cases op with
      | none => rfl
      | some op => cases op <;> rfl
    have hchildren : [Node.ofToken? (op.map Comparator.token),
        Node.ofToken? (operand.map Token.literal)].flatMap Node.memberships = [] := by
      simp [Node.memberships_ofToken?]
    rw [toNode] at hroot ⊢
    rw [Node.memberships_branch, List.filter_cons_of_neg (by simp [hroot]), hchildren]
    rfl
  | membership list =>
    have hroot : (Comparison.membership list).toNode.isMembership := rfl
    have hlist : ((list.map fun ts => Node.branch .list (ts.map Token.toNode)).getD
        Node.eof).memberships = [] := by
      cases list with
      | none => rfl
      | some ts => exact (Node.memberships_of_ne (by decide)).trans (flatMap_memberships ts)
    rw [toNode] at hroot ⊢
    rw [Node.memberships_branch, List.filter_cons_of_pos hroot, List.flatMap_cons,
      Token.memberships_toNode, List.flatMap_singleton, hlist]
    rfl

theorem Filter.memberships_toNode (f : Filter) :
    f.toNode.memberships = f.comparison.toNode.memberships := by
  rw [toNode, Node.memberships_of_ne (by decide)]
  simp [Node.memberships_ofToken?]

theorem Segment.memberships_nodes (s : Segment) :
    s.nodes.flatMap Node.memberships = s.filter.comparison.toNode.memberships := by
  rw [nodes, List.flatMap_append, List.flatMap_cons, flatMap_memberships, flatMap_memberships,
    Filter.memberships_toNode, List.nil_append, List.append_nil]

theorem Chain.memberships_toNode (links : List (Segment × String)) (last : Segment) :
    (Chain.mk links last).toNode.memberships =
      links.flatMap (fun l => l.1.filter.comparison.toNode.memberships) ++
        last.filter.comparison.toNode.memberships := by
  induction links with
  | nil =>
    change (Node.branch .filters last.nodes).memberships = _
    rw [Node.memberships_of_ne (by decide), Segment.memberships_nodes]
    rfl
  | cons link links ih =>
    change (Chain.cons link.1 link.2 ⟨links, last⟩).toNode.memberships = _
    rw [toNode_cons, Node.memberships_of_ne (by decide), List.flatMap_append,
      Segment.memberships_nodes, List.flatMap_cons, Token.memberships_toNode,
      List.flatMap_singleton, ih, List.flatMap_cons, List.append_assoc]
    rfl

theorem Expression.memberships_toNode (e : Expression) :
    e.toNode.memberships =
      e.chain.links.flatMap (fun l => l.1.filter.comparison.toNode.memberships) ++
        e.chain.last.filter.comparison.toNode.memberships := by
  rw [toNode, Node.memberships_of_ne (by decide), List.flatMap_append, List.flatMap_cons,
    flatMap_memberships, flatMap_memberships, List.nil_append, List.append_nil]
  exact Chain.memberships_toNode _ _

theorem Expression.lastList?_isEof_iff {e : Expression} {dropped : List Token} {next : Token}
    (h : e.Ends dropped next) :
    e.toNode.lastList?.any Node.isEof ↔ e.chain.last.filter.comparison = .membership none := by
  rw [Node.lastList?, memberships_toNode, List.getLast?_append]
  cases hlast : e.chain.last.filter.comparison with
  | membership list =>
    rw [Comparison.memberships_toNode]
    cases list <;> simp [Comparison.toNode, Node.branch, Node.child?, Node.isEof, Node.eof,
      Node.leaf]
  | scalar op operand =>
    rw [Comparison.memberships_toNode, List.getLast?_nil, Option.none_or]
    -- an earlier list has been read to its end
    have hlists : ∀ n ∈ e.chain.links.flatMap (fun l => l.1.filter.comparison.toNode.memberships),
        (n.child? 1).any Node.isEof = false := by
      intro n hn
      obtain ⟨l, hl, hn⟩ := List.mem_flatMap.mp hn
      have hwhole := (h.1 l hl).2.2
      rw [Comparison.memberships_toNode] at hn
      cases hx : l.1.filter.comparison with
      | scalar op operand =>
        rw [hx] at hn
        cases hn
      | membership list =>
        rw [hx] at hn hwhole
        obtain ⟨ts, rfl⟩ := Option.isSome_iff_exists.mp hwhole
        rw [List.mem_singleton.mp hn]
        rfl
    apply iff_of_false
    · intro hany
      cases hg : (e.chain.links.flatMap
          fun l => l.1.filter.comparison.toNode.memberships).getLast? with
      | none =>
        rw [hg] at hany
        cases hany
      | some n =>
        rw [hg] at hany
        have hn := hlists n (List.mem_of_getLast? hg)
        rw [Option.bind_some, hn] at hany
        cases hany
    · intro hmem
      cases hmem

/-- What is left out lies between the last `IN:` and the end of the input. -/
theorem Expression.tokens_of_open_list {e : Expression} {dropped : List Token} {next : Token}
    (h : e.Ends dropped next) (hpaired : e.Paired)
    (hopen : e.chain.last.filter.comparison = .membership none) :
    (∃ init, e.tokens = init ++ [Token.inOperator]) ∧ (∀ t ∈ dropped, Parse.isInsideList t) ∧
      next.isEof := by
  obtain ⟨-, hshaped, hwhole, -⟩ := h
  have hnot : ¬ e.chain.last.filter.Whole := by
    simp [Filter.Whole, Comparison.Whole, hopen]
  obtain ⟨hclosing, hnext⟩ := hwhole.resolve_left hnot
  have hclose : e.closing = false := by
    by_contra hc
    have := hpaired.2.1 (by simpa using hc)
    simp [hclosing] at this
  refine ⟨⟨e.openings ++ (e.chain.links.flatMap (fun l => l.1.tokens ++ [Token.logical l.2]) ++
    (e.chain.last.openings ++ (e.chain.last.filter.key.map Token.identifier).toList)), ?_⟩, ?_,
    hnext⟩
  · simp [tokens, closings, hclose, Chain.tokens, Segment.tokens, Segment.closings, hclosing,
      Filter.tokens, Comparison.tokens, hopen]
  · have hdropped := hshaped.2
    rw [hopen] at hdropped
    exact hdropped

theorem Filter.Shaped.dropped_eq_nil_of_ne {f : Filter} {dropped : List Token}
    (h : f.Shaped dropped) (hne : f.comparison ≠ .membership none) : dropped = [] := by
  obtain ⟨key, x⟩ := f
  cases x with
  | scalar op operand => exact h.2.2
  | membership list =>
    cases list with
    | none => exact absurd rfl hne
    | some ts => exact h.2.2

/-- The number of tokens that the parser has passed behind the expression. -/
def Parse.stopPosition? (mode : Mode) (ts : List Token) : Option Nat :=
  match (Parse.expression mode (.start ts)).result with
  | .ok (_, c) => some c.position
  | .error _ => none

/-- The leaves of a tree are the tokens up to the place where the parser stops, or up to an `IN:`
whose list the input leaves open. -/
theorem tokensTree_leaves {mode : Mode} {ts : List Token} {t : Node}
    (h : tokensTree mode ts = .ok t) :
    t.written <+: ts.map Token.toNode ∧ (mode = .strict → t.written = ts.map Token.toNode) ∧
      ∃ n, Parse.stopPosition? mode ts = some n ∧ n ≤ ts.length ∧
        if t.lastList?.any Node.isEof then
          ∃ i < n, ts[i]? = some Token.inOperator ∧
            t.written = (ts.take (i + 1)).map Token.toNode ∧
            (∀ u ∈ (ts.take n).drop (i + 1), Parse.isInsideList u) ∧
            (ts[n]?.getD Token.eof).isEof
        else t.written = (ts.take n).map Token.toNode := by
  obtain ⟨e, hparse, rfl⟩ := tokensTree_ok_iff.mp h
  obtain ⟨-, stop, hexpression, hstrict⟩ := Parse.parse_bind_iff.mp hparse
  obtain ⟨dropped, ⟨hts, hposition⟩, hends, hpaired, hfull⟩ :=
    Parse.expression_ok_iff.mp hexpression
  have hts : ts = e.tokens ++ dropped ++ stop.rest := hts
  have hposition : stop.position = (e.tokens ++ dropped).length := by
    simpa [Cursor.start] using hposition
  have htake : ts.take stop.position = e.tokens ++ dropped := by
    rw [hposition, hts, List.take_left]
  have hstop : Parse.stopPosition? mode ts = some stop.position := by
    rw [Parse.stopPosition?, hexpression]
  have hwritten := Expression.written_toNode hends
  refine ⟨?_, fun hmode => ?_, stop.position, hstop, ?_, ?_⟩
  · rw [hwritten, hts, List.append_assoc, List.map_append]
    exact List.prefix_append _ _
  · have hlast := hfull hmode e.chain.last (by simp [Chain.segments])
    obtain rfl := hends.2.1.dropped_eq_nil hlast.whole
    rw [hwritten, hts, hstrict hmode, List.append_nil, List.append_nil]
  · rw [hposition, hts]
    simp
  · split
    · rename_i hany
      have hopen := (Expression.lastList?_isEof_iff hends).mp hany
      obtain ⟨⟨init, hinit⟩, hinside, hnext⟩ := Expression.tokens_of_open_list hends hpaired hopen
      have hlength : e.tokens.length = init.length + 1 := by simp [hinit]
      have hsplit : ts = init ++ Token.inOperator :: (dropped ++ stop.rest) := by
        rw [hts, hinit]
        simp
      refine ⟨init.length, ?_, ?_, ?_, ?_, ?_⟩
      · rw [hposition, List.length_append]
        omega
      · simp [hsplit]
      · rw [hwritten, ← hlength, hts, List.append_assoc, List.take_left]
      · rw [htake, ← hlength, List.drop_left]
        exact hinside
      · have hhead : ts[stop.position]? = stop.rest.head? := by
          rw [hts, hposition, List.getElem?_append_right (Nat.le_refl _), Nat.sub_self,
            List.head?_eq_getElem?]
        rw [hhead, ← List.headD_eq_head?_getD]
        exact hnext
    · rename_i hany
      have hne := mt (Expression.lastList?_isEof_iff hends).mpr hany
      rw [htake, hwritten, hends.2.1.dropped_eq_nil_of_ne hne, List.append_nil]

theorem leaves_of_open_list :
    let ts := [Token.identifier "a", Token.inOperator, Token.separator "[", Token.literal "1"]
    ∃ t, tokensTree .lenient ts = .ok t ∧ Parse.stopPosition? .lenient ts = some 4 ∧
      ∃ i < 4, ts[i]? = some Token.inOperator ∧ t.written = (ts.take (i + 1)).map Token.toNode := by
  intro ts
  have htree : tokensTree .lenient ts = .ok (.branch .expression [.branch .filters [.branch .filter
      [.leaf .identifier "a", .branch .comparison [Token.inOperator.toNode, .eof]]]]) := by cbv
  have hstop : Parse.stopPosition? .lenient ts = some 4 := by cbv
  obtain ⟨-, -, n, hn, -, hleaves⟩ := tokensTree_leaves htree
  obtain rfl : 4 = n := Option.some.inj (hstop.symm.trans hn)
  rw [if_pos (by cbv)] at hleaves
  obtain ⟨i, hi, hin, hwritten, -⟩ := hleaves
  exact ⟨_, htree, hstop, i, hi, hin, hwritten⟩

end FilterQuery
