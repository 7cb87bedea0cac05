import FilterQuery.Proofs.Grammar
import FilterQuery.Proofs.Leaves
import FilterQuery.Proofs.Parentheses
/-!
# The shape of an expression's tree

Every label allows certain children only. Parts can be missing from the last filter alone, and
nothing stands behind a missing part.
-/
namespace FilterQuery

/-- What a node looks like, by its label. A key that is missing leaves nothing to compare. -/
inductive Node.Formed : Node → Prop
  | expression {k : Nat} {c : Bool} {filters : Node} : filters.kind = .filters →
    (k + c.toNat) % 2 = 0 → Formed (.branch .expression (encloseNode k filters c.toNat))
  | last {a b : Bool} {filter : Node} : filter.kind = .filter →
    Formed (.branch .filters (encloseNode a.toNat filter b.toNat))
  | link {a b : Bool} {filter rest : Node} {operator : String} : filter.kind = .filter →
    rest.kind = .filters →
    Formed (.branch .filters
      (encloseNode a.toNat filter b.toNat ++ [.leaf .logicalOperator operator, rest]))
  | filter {key : String} {comparison : Node} : comparison.kind = .comparison →
    Formed (.branch .filter [.leaf .identifier key, comparison])
  | noFilter : Formed (.branch .filter [.eof, .branch .comparison [.eof, .eof]])
  | scalar (op : Comparator) (value : String) :
    Formed (.branch .comparison [.leaf .comparisonOperator op.text, .leaf .literal value])
  | noOperand (op : Comparator) :
    Formed (.branch .comparison [.leaf .comparisonOperator op.text, .eof])
  | membership {list : Node} : list.kind = .list →
    Formed (.branch .comparison [.leaf .comparisonOperator "IN:", list])
  | noList : Formed (.branch .comparison [.leaf .comparisonOperator "IN:", .eof])
  | noComparison : Formed (.branch .comparison [.eof, .eof])
  | list {ts : List Token} : IsList ts → Formed (.branch .list (ts.map Token.toNode))
  | token {t : Token} : t.kind ≠ .eof → Formed t.toNode
  | eof : Formed .eof

def Node.isParen (n : Node) : Bool :=
  n.kind = .separator && (n.value = some "(" || n.value = some ")")

/-- What a tree looks like that the parser makes of the tokens `ts`. -/
structure Node.WellFormed (ts : List Token) (t : Node) : Prop where
  /-- All but one of the parentheses in front of the tokens stand at the root. -/
  root : ∃ (filters : Node) (c : Bool), t = .branch .expression
    (encloseNode ((ts.takeWhile Token.isOpeningParen).length - 1) filters c.toNat) ∧
      ((ts.takeWhile Token.isOpeningParen).length - 1 + c.toNat) % 2 = 0 ∧
      filters.kind = .filters ∧ filters.leaves.countP Node.isParen % 2 = 0
  formed : ∀ n ∈ t.subtrees, n.Formed
  /-- Leaves for missing input stand below the last filter, and nothing behind them. -/
  missing : ∃ last filter before after,
    (t.subtrees.filter (·.kind = .filters)).getLast? = some last ∧
      filter ∈ last.children ∧ filter.kind = .filter ∧
      t.subtrees = before ++ filter.subtrees ++ after ∧ (∀ n ∈ before ++ after, n.kind ≠ .eof) ∧
      ((∃ n ∈ filter.subtrees, n.kind = .eof) → after = [])

section
variable {P : Node → Prop}

theorem forall_subtrees_branch {kind : NodeKind} {children : List Node} :
    (∀ n ∈ (Node.branch kind children).subtrees, P n) ↔
      P (.branch kind children) ∧ ∀ c ∈ children, ∀ n ∈ c.subtrees, P n := by
  rw [Node.subtrees_branch, List.forall_mem_cons, List.forall_mem_flatMap]

theorem forall_mem_tokens (htoken : ∀ t : Token, t.kind ≠ .eof → P t.toNode)
    {ts : List Token} (h : ∀ t ∈ ts, t.kind ≠ .eof) : ∀ n ∈ ts.map Token.toNode, P n := by
  rw [List.forall_mem_map]
  exact fun t ht => htoken t (h t ht)

theorem forall_subtrees_tokens (htoken : ∀ t : Token, t.kind ≠ .eof → P t.toNode)
    {ts : List Token} (h : ∀ t ∈ ts, t.kind ≠ .eof) :
    ∀ c ∈ ts.map Token.toNode, ∀ n ∈ c.subtrees, P n := by
  refine forall_mem_tokens (fun t ht => ?_) h
  rw [Node.subtrees_toNode, List.forall_mem_singleton]
  exact htoken t ht

theorem forall_subtrees_ofToken? (htoken : ∀ t : Token, t.kind ≠ .eof → P t.toNode)
    {t : Option Token} (h : ∀ token ∈ t, token.kind ≠ .eof) (heof : t = none → P .eof) :
    ∀ n ∈ (Node.ofToken? t).subtrees, P n := by
  cases t with
  | none => simpa [Node.ofToken?] using heof rfl
  | some token => simpa [Node.ofToken?] using htoken token (h token rfl)

theorem Filter.forall_subtrees {f : Filter} {dropped : List Token} (h : f.Shaped dropped)
    (hfilter : P f.toNode) (hcomparison : P f.comparison.toNode)
    (hlist : ∀ ts, IsList ts → P (.branch .list (ts.map Token.toNode)))
    (htoken : ∀ t : Token, t.kind ≠ .eof → P t.toNode) (heof : ¬ f.Whole → P .eof) :
    ∀ n ∈ f.toNode.subtrees, P n := by
  have hkey : ∀ t ∈ f.key.map Token.identifier, t.kind ≠ .eof := by
    cases f.key <;> simp [Token.identifier]
  have hkeyless : f.key.map Token.identifier = none → P .eof := by
    intro hnone
    refine heof fun hwhole => ?_
    have hsome := hwhole.1
    simp_all
  rw [toNode, forall_subtrees_branch, List.forall_mem_cons, List.forall_mem_singleton]
  refine ⟨hfilter, forall_subtrees_ofToken? htoken hkey hkeyless, ?_⟩
  have hpart : ¬ f.comparison.Whole → P .eof := fun hw => heof fun hwhole => hw hwhole.2
  have hshaped := h.2
  generalize f.comparison = x at hcomparison hpart hshaped
  cases x with
  | scalar op operand =>
    have hop : ∀ t ∈ op.map Comparator.token, t.kind ≠ .eof := by
      cases op <;> simp [Comparator.token, Token.comparison]
    have hoperand : ∀ t ∈ operand.map Token.literal, t.kind ≠ .eof := by
      cases operand <;> simp [Token.literal]
    rw [Comparison.toNode, forall_subtrees_branch, List.forall_mem_cons,
      List.forall_mem_singleton]
    refine ⟨hcomparison, forall_subtrees_ofToken? htoken hop fun hnone => hpart ?_,
      forall_subtrees_ofToken? htoken hoperand fun hnone => hpart ?_⟩
    · simp_all [Comparison.Whole]
    · simp_all [Comparison.Whole]
  | membership list =>
    rw [Comparison.toNode, forall_subtrees_branch, List.forall_mem_cons,
      List.forall_mem_singleton, Node.subtrees_toNode, List.forall_mem_singleton]
    refine ⟨hcomparison, htoken _ (by decide), ?_⟩
    cases list with
    | none => simpa using hpart (by simp [Comparison.Whole])
    | some ts =>
      exact forall_subtrees_branch.mpr
        ⟨hlist ts hshaped.1, forall_subtrees_tokens htoken hshaped.1.kind_ne_eof⟩

theorem Segment.forall_subtrees {s : Segment} (htoken : ∀ t : Token, t.kind ≠ .eof → P t.toNode)
    (hfilter : ∀ n ∈ s.filter.toNode.subtrees, P n) :
    ∀ c ∈ s.nodes, ∀ n ∈ c.subtrees, P n := by
  obtain ⟨hopenings, hclosings⟩ := List.forall_mem_append.mp s.parens_ne_eof
  rw [nodes, List.forall_mem_append, List.forall_mem_cons]
  exact ⟨forall_subtrees_tokens htoken hopenings, hfilter, forall_subtrees_tokens htoken hclosings⟩

end

theorem Comparison.kind_toNode (x : Comparison) : x.toNode.kind = .comparison := by
  cases x <;> rfl

theorem Chain.kind_toNode (x : Chain) : x.toNode.kind = .filters := by
  obtain ⟨links, last⟩ := x
  cases links <;> rfl

theorem Comparison.Shaped.formed {x : Comparison} {dropped : List Token} (h : x.Shaped dropped) :
    x.toNode.Formed := by
  cases x with
  | scalar op operand =>
    cases op with
    | none =>
      obtain rfl := h.1 rfl
      exact .noComparison
    | some op =>
      cases operand with
      | none => exact .noOperand op
      | some value => exact .scalar op value
  | membership list =>
    cases list with
    | none => exact .noList
    | some ts => exact .membership rfl

theorem Filter.Shaped.formed {f : Filter} {dropped : List Token} (h : f.Shaped dropped) :
    f.toNode.Formed := by
  obtain ⟨key, x⟩ := f
  cases key with
  | none =>
    obtain rfl : x = .scalar none none := h.1 rfl
    exact .noFilter
  | some key => exact .filter x.kind_toNode

theorem Filter.formed_subtrees {f : Filter} {dropped : List Token} (h : f.Shaped dropped) :
    ∀ n ∈ f.toNode.subtrees, n.Formed :=
  forall_subtrees h h.formed h.2.formed (fun _ => .list) (fun _ => .token) fun _ => .eof

theorem Chain.formed_subtrees {links : List (Segment × String)} {last : Segment}
    {dropped : List Token} (hl : ∀ l ∈ links, l.1.filter.Shaped [])
    (h : last.filter.Shaped dropped) :
    ∀ n ∈ (Chain.mk links last).toNode.subtrees, n.Formed := by
  induction links with
  | nil =>
    change ∀ n ∈ (Node.branch .filters last.nodes).subtrees, n.Formed
    rw [forall_subtrees_branch]
    refine ⟨?_, Segment.forall_subtrees (fun _ => .token) (Filter.formed_subtrees h)⟩
    rw [segment_nodes]
    exact .last rfl
  | cons link links ih =>
    have ih := ih fun l hmem => hl l (List.mem_cons_of_mem _ hmem)
    have hs := Filter.formed_subtrees (hl link List.mem_cons_self)
    change ∀ n ∈ (Chain.cons link.1 link.2 ⟨links, last⟩).toNode.subtrees, n.Formed
    rw [toNode_cons, forall_subtrees_branch, List.forall_mem_append, List.forall_mem_cons,
      List.forall_mem_singleton, Node.subtrees_toNode, List.forall_mem_singleton]
    refine ⟨?_, Segment.forall_subtrees (fun _ => .token) hs, .token (by simp [Token.logical]), ih⟩
    rw [segment_nodes]
    exact .link rfl (kind_toNode _)

theorem Filter.Whole.kind_ne_eof {f : Filter} {dropped : List Token} (hw : f.Whole)
    (h : f.Shaped dropped) : ∀ n ∈ f.toNode.subtrees, n.kind ≠ .eof := by
  refine forall_subtrees h (by simp [toNode, Node.branch]) ?_ (fun ts _ => by simp [Node.branch])
    (fun t ht => mt Token.kind_toNode_eq_eof.mp ht) fun hn => absurd hw hn
  rw [Comparison.kind_toNode]
  decide

theorem Token.kind_toNode_ne_filters (t : Token) : t.toNode.kind ≠ .filters :=
  fun h => t.kind_toNode_notMem (by simp [h, NodeKind.symbols])

theorem Filter.kind_ne_filters {f : Filter} {dropped : List Token} (h : f.Shaped dropped) :
    ∀ n ∈ f.toNode.subtrees, n.kind ≠ .filters := by
  refine forall_subtrees h (by simp [toNode, Node.branch]) ?_ (fun ts _ => by simp [Node.branch])
    (fun t _ => t.kind_toNode_ne_filters) fun _ => by decide
  rw [Comparison.kind_toNode]
  decide

theorem Segment.kind_ne_filters {s : Segment} {dropped : List Token}
    (h : s.filter.Shaped dropped) : ∀ n ∈ s.nodes.flatMap Node.subtrees, n.kind ≠ .filters := by
  rw [List.forall_mem_flatMap]
  exact forall_subtrees (fun t _ => t.kind_toNode_ne_filters) (Filter.kind_ne_filters h)

theorem flatMap_subtrees (ts : List Token) :
    (ts.map Token.toNode).flatMap Node.subtrees = ts.map Token.toNode := by
  rw [List.flatMap_map, List.map_eq_flatMap]
  apply List.flatMap_congr
  intro t _
  exact Node.subtrees_toNode t

/-- The last filter stands at the end of a chain, and no part is missing before it. -/
theorem Chain.subtrees_split {links : List (Segment × String)} (last : Segment)
    (hl : ∀ l ∈ links, l.1.filter.Shaped [] ∧ l.1.filter.Whole) :
    ∃ before, (Chain.mk links last).toNode.subtrees =
      before ++ last.filter.toNode.subtrees ++ last.closings.map Token.toNode ∧
        ∀ n ∈ before, n.kind ≠ .eof := by
  have htoken (t : Token) (ht : t.kind ≠ .eof) : t.toNode.kind ≠ .eof :=
    mt Token.kind_toNode_eq_eof.mp ht
  induction links with
  | nil =>
    refine ⟨.branch .filters last.nodes :: last.openings.map Token.toNode, ?_, ?_⟩
    · change (Node.branch .filters last.nodes).subtrees = _
      rw [Node.subtrees_branch, Segment.nodes, List.flatMap_append, List.flatMap_cons,
        flatMap_subtrees, flatMap_subtrees]
      simp
    · rw [List.forall_mem_cons]
      have hopenings := (List.forall_mem_append.mp last.parens_ne_eof).1
      exact ⟨by simp [Node.branch], forall_mem_tokens htoken hopenings⟩
  | cons link links ih =>
    obtain ⟨before, hsplit, hbefore⟩ := ih fun l hmem => hl l (List.mem_cons_of_mem _ hmem)
    obtain ⟨hs, hw⟩ := hl link List.mem_cons_self
    have hnodes : ∀ c ∈ link.1.nodes, ∀ n ∈ c.subtrees, n.kind ≠ .eof :=
      Segment.forall_subtrees htoken (hw.kind_ne_eof hs)
    refine ⟨(Chain.cons link.1 link.2 ⟨links, last⟩).toNode ::
      link.1.nodes.flatMap Node.subtrees ++ (Token.logical link.2).toNode :: before, ?_, ?_⟩
    · change (Chain.cons link.1 link.2 ⟨links, last⟩).toNode.subtrees = _
      rw [toNode_cons, Node.subtrees_branch, List.flatMap_append, List.flatMap_cons,
        List.flatMap_singleton, Node.subtrees_toNode, hsplit]
      simp
    · rw [List.forall_mem_append, List.forall_mem_cons, List.forall_mem_cons,
        List.forall_mem_flatMap]
      refine ⟨⟨?_, hnodes⟩, ?_, hbefore⟩
      · rw [kind_toNode]
        decide
      · exact htoken _ (by simp [Token.logical])

theorem Chain.getLast?_filters {links : List (Segment × String)} {last : Segment}
    {dropped : List Token} (h : last.filter.Shaped dropped) :
    ((Chain.mk links last).toNode.subtrees.filter (·.kind = .filters)).getLast? =
      some (.branch .filters last.nodes) := by
  induction links with
  | nil =>
    have hnone : (last.nodes.flatMap Node.subtrees).filter (·.kind = .filters) = [] := by
      rw [List.filter_eq_nil_iff]
      simpa only [decide_eq_true_eq] using Segment.kind_ne_filters h
    change ((Node.branch .filters last.nodes).subtrees.filter (·.kind = .filters)).getLast? = _
    rw [Node.subtrees_branch, List.filter_cons_of_pos (by simp [Node.branch]), hnone]
    rfl
  | cons link links ih =>
    change ((Chain.cons link.1 link.2 ⟨links, last⟩).toNode.subtrees.filter
      (·.kind = .filters)).getLast? = _
    rw [toNode_cons, Node.subtrees_branch, List.flatMap_append, List.flatMap_cons,
      List.flatMap_singleton, ← List.append_assoc, ← List.cons_append, List.filter_append,
      List.getLast?_append, ih, Option.some_or]

theorem Node.countP_leaves (t : Node) : t.leaves.countP isParen = t.written.countP isParen := by
  rw [written, List.countP_filter]
  apply List.countP_congr
  intro n _
  have hparen : n.isParen → n.kind ≠ .eof := by
    intro h hkind
    simp [isParen, hkind] at h
  by_cases h : n.isParen
  · simp [h, isEof, hparen h]
  · simp [h]

theorem Token.isParen_toNode (t : Token) : t.toNode.isParen = t.paren?.isSome := by
  obtain ⟨kind, text⟩ := t
  by_cases hkind : kind = .separator
  · subst hkind
    by_cases ho : text = "("
    · subst ho
      rfl
    · by_cases hc : text = ")"
      · subst hc
        rfl
      · simp [Node.isParen, toNode, paren?, openingParen, closingParen, separator, ho, hc]
  · have hnone : (Token.mk kind text).paren? = none := paren?_of_kind hkind
    rw [hnone]
    cases kind <;> simp_all [Node.isParen, toNode, TokenKind.toNodeKind]

theorem Chain.countP_isParen {links : List (Segment × String)} {last : Segment}
    {dropped : List Token} (hl : ∀ l ∈ links, l.1.filter.Shaped [])
    (h : last.filter.Shaped dropped) :
    (Chain.mk links last).toNode.leaves.countP Node.isParen = (Chain.mk links last).parens := by
  have hshaped : ∀ s ∈ (Chain.mk links last).segments, s.filter.Shaped [] := by
    intro s hs
    rcases List.mem_append.mp hs with hs | hs
    · obtain ⟨l, hmem, rfl⟩ := List.mem_map.mp hs
      exact hl l hmem
    · rw [List.mem_singleton.mp hs]
      exact h.nil
  rw [Node.countP_leaves, written_toNode hl h, List.countP_map]
  calc (Chain.mk links last).tokens.countP (Node.isParen ∘ Token.toNode)
    _ = (Chain.mk links last).tokens.countP (fun t => t.paren?.isSome) := by
      simp only [Function.comp_def, Token.isParen_toNode]
    _ = ((Chain.mk links last).tokens.filterMap Token.paren?).length :=
      List.length_filterMap_eq_countP.symm
    _ = (Chain.mk links last).parens := by
      rw [filterMap_tokens hshaped, length_parenWord]

theorem Parse.count_wrappers {ts : List Token} {b : Balance} {c : Cursor}
    (h : wrappers .empty (.start ts) = (b, c)) :
    b.count = (ts.takeWhile Token.isOpeningParen).length - 1 := by
  obtain ⟨n, hpasses, rfl, hopen, hnext⟩ := wrappers_eq_iff.mp h
  have hts : ts = List.replicate n Token.openingParen ++ c.rest := hpasses.1
  have hrun : ts.takeWhile Token.isOpeningParen =
      List.replicate n Token.openingParen ++ c.rest.takeWhile Token.isOpeningParen := by
    rw [hts, List.takeWhile_append_of_pos]
    intro t ht
    rw [List.eq_of_mem_replicate ht]
    rfl
  have hcount : (Balance.empty.after (List.replicate n Paren.opening)).count = n := by
    rw [Balance.count_after, List.length_replicate]
    exact Nat.zero_add n
  rw [hcount, hrun, List.length_append, List.length_replicate]
  rw [nextIsOpeningParen_iff] at hnext
  obtain ⟨position, rest⟩ := c
  have heof : Token.eof ≠ Token.openingParen := by decide
  match rest with
  | [] =>
    have hn : ¬ 0 < n := fun hn => heof (hopen hn)
    simp only [List.takeWhile_nil, List.length_nil]
    omega
  | t :: rest =>
    by_cases ht : t = Token.openingParen
    · -- the parenthesis behind the wrappers belongs to the first segment
      have hstop : rest.takeWhile Token.isOpeningParen = [] := by
        cases rest with
        | nil => rfl
        | cons t' rest =>
          have ht' : t' ≠ Token.openingParen := fun h => hnext ⟨ht, h⟩
          simp [Token.isOpeningParen, ht']
      have hopens : t.isOpeningParen := by simpa [Token.isOpeningParen] using ht
      rw [List.takeWhile_cons_of_pos hopens, hstop]
      simp
    · have hn : ¬ 0 < n := fun hn => ht (hopen hn)
      have hcloses : ¬ t.isOpeningParen := by simpa [Token.isOpeningParen] using ht
      rw [List.takeWhile_cons_of_neg hcloses, List.length_nil]
      omega

theorem Expression.subtrees_toNode (e : Expression) :
    e.toNode.subtrees = e.toNode :: e.openings.map Token.toNode ++ e.chain.toNode.subtrees ++
      e.closings.map Token.toNode := by
  rw [toNode, Node.subtrees_branch, List.flatMap_append, List.flatMap_cons, flatMap_subtrees,
    flatMap_subtrees]
  simp

theorem Expression.formed_subtrees {e : Expression} {dropped : List Token}
    (hlinks : ∀ l ∈ e.chain.links, l.1.filter.Shaped [])
    (hlast : e.chain.last.filter.Shaped dropped) (hpaired : e.Paired) :
    ∀ n ∈ e.toNode.subtrees, n.Formed := by
  obtain ⟨hopenings, hclosings⟩ := List.forall_mem_append.mp e.parens_ne_eof
  rw [subtrees_toNode, List.forall_mem_append, List.forall_mem_append, List.forall_mem_cons,
    expression_toNode]
  refine ⟨⟨⟨.expression e.chain.kind_toNode hpaired.2.2.1, ?_⟩, ?_⟩, ?_⟩
  · exact forall_mem_tokens (fun _ => .token) hopenings
  · exact Chain.formed_subtrees hlinks hlast
  · exact forall_mem_tokens (fun _ => .token) hclosings

theorem Node.Formed.value_cases {n : Node} (h : n.Formed) :
    n.value = none ∧ n.kind ∈ NodeKind.symbols ∨ n = .eof ∨
      ∃ t : Token, t.kind ≠ .eof ∧ n = t.toNode := by
  cases h with
  | token ht => exact .inr (.inr ⟨_, ht, rfl⟩)
  | eof => exact .inr (.inl rfl)
  | _ => exact .inl ⟨rfl, by simp [branch, NodeKind.symbols]⟩

/-- A node of an expression's tree is a grammar symbol without value, missing input, or one of the
tokens that were read. -/
theorem nodes_of_tokensTree {mode : Mode} {ts : List Token} {t : Node}
    (h : tokensTree mode ts = .ok t) :
    ∀ n ∈ t.subtrees, n.value = none ∧ n.kind ∈ NodeKind.symbols ∨ n = .eof ∨
      ∃ u ∈ ts, n = u.toNode := by
  obtain ⟨e, hparse, rfl⟩ := tokensTree_ok_iff.mp h
  obtain ⟨-, dropped, rest, hts, hends, hpaired, -⟩ := Parse.parse_ok_iff.mp hparse
  have hformed := Expression.formed_subtrees (fun l hl => (hends.1 l hl).1) hends.2.1 hpaired
  intro n hn
  rcases (hformed n hn).value_cases with hsymbol | heof | ⟨u, hu, rfl⟩
  · exact .inl hsymbol
  · exact .inr (.inl heof)
  · have hwritten := Token.toNode_mem_written hu hn
    rw [Expression.written_toNode hends] at hwritten
    obtain ⟨s, hs, heq⟩ := List.mem_map.mp hwritten
    refine .inr (.inr ⟨s, ?_, heq.symm⟩)
    rw [hts]
    exact List.mem_append_left _ (List.mem_append_left _ hs)

/-- Every tree that the parser returns is well formed. -/
theorem wellFormed_tokensTree {mode : Mode} {ts : List Token} {t : Node}
    (h : tokensTree mode ts = .ok t) : t.WellFormed ts := by
  obtain ⟨e, hparse, rfl⟩ := tokensTree_ok_iff.mp h
  obtain ⟨-, stop, hexpression, -⟩ := Parse.parse_bind_iff.mp hparse
  obtain ⟨dropped, -, ⟨hlinks, hlast, hwhole, -⟩, hpaired, -⟩ :=
    Parse.expression_ok_iff.mp hexpression
  obtain ⟨b, _, c, _, hwrappers, hcount, -⟩ := Parse.expression_bind_iff.mp hexpression
  have hleading := hcount.symm.trans (Parse.count_wrappers hwrappers)
  have ⟨_, hclosing, hwrapped, hparens⟩ := hpaired
  have hshaped : ∀ l ∈ e.chain.links, l.1.filter.Shaped [] := fun l hl => (hlinks l hl).1
  obtain ⟨hopenings, hclosings⟩ := List.forall_mem_append.mp e.parens_ne_eof
  have hnode (t : Token) (ht : t.kind ≠ .eof) : t.toNode.kind ≠ .eof :=
    mt Token.kind_toNode_eq_eof.mp ht
  refine ⟨⟨e.chain.toNode, e.closing, ?_, ?_, e.chain.kind_toNode, ?_⟩, ?_, ?_⟩
  · rw [← hleading]
    exact expression_toNode e
  · rw [← hleading]
    exact hwrapped
  · rw [Chain.countP_isParen hshaped hlast]
    exact hparens
  · exact Expression.formed_subtrees hshaped hlast hpaired
  · obtain ⟨before, hsplit, hbefore⟩ := Chain.subtrees_split e.chain.last hlinks
    have hsplit : e.chain.toNode.subtrees =
      before ++ e.chain.last.filter.toNode.subtrees ++ e.chain.last.closings.map Token.toNode :=
      hsplit
    refine ⟨.branch .filters e.chain.last.nodes, e.chain.last.filter.toNode,
      e.toNode :: e.openings.map Token.toNode ++ before,
      e.chain.last.closings.map Token.toNode ++ e.closings.map Token.toNode, ?_, ?_, rfl, ?_, ?_,
      ?_⟩
    · have hnone : (e.closings.map Token.toNode).filter (·.kind = .filters) = [] := by
        rw [List.filter_eq_nil_iff, List.forall_mem_map]
        intro t _
        simp [t.kind_toNode_ne_filters]
      rw [e.subtrees_toNode, List.filter_append, List.filter_append, List.getLast?_append, hnone,
        List.getLast?_nil, Option.none_or, List.getLast?_append,
        Chain.getLast?_filters hlast, Option.some_or]
    · simp [Node.branch, Segment.nodes]
    · rw [e.subtrees_toNode, hsplit]
      simp only [List.append_assoc]
    · have hlastClosings := (List.forall_mem_append.mp e.chain.last.parens_ne_eof).2
      rw [List.forall_mem_append, List.forall_mem_append, List.forall_mem_append,
        List.forall_mem_cons]
      exact ⟨⟨⟨by simp [Expression.toNode, Node.branch], forall_mem_tokens hnode hopenings⟩,
        hbefore⟩, forall_mem_tokens hnode hlastClosings, forall_mem_tokens hnode hclosings⟩
    · rintro ⟨n, hn, heof⟩
      have hnot : ¬ e.chain.last.filter.Whole := fun hw => hw.kind_ne_eof hlast n hn heof
      obtain ⟨hopen, -⟩ := hwhole.resolve_left hnot
      have hclose : e.closing = false := by
        by_contra hc
        have := hclosing (by simpa using hc)
        simp [hopen] at this
      simp [Segment.closings, Expression.closings, hopen, hclose]

theorem wellFormed_of_missing_operand :
    let ts := [Token.openingParen, Token.openingParen, Token.openingParen, .identifier "a",
      .comparison "eq:", .literal "1", Token.closingParen, .logical "&&", .identifier "b",
      .comparison "not:"]
    ∃ t, tokensTree .lenient ts = .ok t ∧ t.WellFormed ts := by
  intro ts
  have htree : ∃ t, tokensTree .lenient ts = .ok t := ⟨_, by cbv⟩
  obtain ⟨t, ht⟩ := htree
  exact ⟨t, ht, wellFormed_tokensTree ht⟩

end FilterQuery
