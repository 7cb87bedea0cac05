import FilterQuery.Query
import FilterQuery.Proofs.ExpressionReading
/-!
# Renaming texts

The parser compares the text of a token with a few texts of the grammar and with nothing else. So
a renaming that keeps those apart from all other texts renames the tree, or the error, as it
renames the tokens.
-/
namespace FilterQuery

/-- The texts that tokens are compared with, and the text of missing input. -/
def syntaxTexts : List String :=
  [eofText, "(", ")", "[", "]", ",", "IN:"] ++ Comparator.all.map Comparator.text

structure Renaming where
  apply : String → String
  /-- The texts of the grammar stay what they are, and no other text becomes one of them. -/
  keeps : ∀ text ∈ syntaxTexts, ∀ x, apply x = text ↔ x = text

section
variable (ρ : Renaming)

def Token.rename (t : Token) : Token := { t with text := ρ.apply t.text }

def Cursor.rename (c : Cursor) : Cursor := { c with rest := c.rest.map (Token.rename ρ) }

def Comparison.rename : Comparison → Comparison
  | .scalar comparator operand => .scalar comparator (operand.map ρ.apply)
  | .membership list => .membership (list.map (List.map (Token.rename ρ)))

def Filter.rename (f : Filter) : Filter := ⟨f.key.map ρ.apply, f.comparison.rename ρ⟩

def Segment.rename (s : Segment) : Segment := { s with filter := s.filter.rename ρ }

def Chain.rename (c : Chain) : Chain :=
  ⟨c.links.map (Prod.map (Segment.rename ρ) ρ.apply), c.last.rename ρ⟩

def Expression.rename (e : Expression) : Expression := { e with chain := e.chain.rename ρ }

def ParseError.rename : ParseError → ParseError
  | .unexpectedToken expected found => .unexpectedToken expected (ρ.apply found)
  | .trailingInput found => .trailingInput (ρ.apply found)
  | .emptyInput => .emptyInput
  | .unbalancedParens missing => .unbalancedParens missing
  | .unexpectedEnd expected => .unexpectedEnd expected

mutual

/-- A tree with its values renamed. -/
def Node.rename : Node → Node
  | ⟨kind, value, children⟩ => ⟨kind, value.map ρ.apply, renameAll children⟩

def Node.renameAll : List Node → List Node
  | [] => []
  | n :: ns => rename n :: renameAll ns

end

end

section
variable {ρ : Renaming} {mode : Mode}

theorem Node.renameAll_eq (ns : List Node) : renameAll ρ ns = ns.map (rename ρ) := by
  induction ns with
  | nil => rw [renameAll, List.map_nil]
  | cons n ns ih => rw [renameAll, ih, List.map_cons]

theorem Node.rename_mk (kind : NodeKind) (value : Option String) (children : List Node) :
    rename ρ ⟨kind, value, children⟩ = ⟨kind, value.map ρ.apply, children.map (rename ρ)⟩ := by
  rw [rename, renameAll_eq]

@[simp] theorem Node.rename_branch (kind : NodeKind) (children : List Node) :
    (branch kind children).rename ρ = branch kind (children.map (rename ρ)) :=
  rename_mk kind none children

@[simp] theorem Token.rename_toNode (t : Token) : (t.rename ρ).toNode = t.toNode.rename ρ :=
  (Node.rename_mk t.kind.toNodeKind (some t.text) []).symm

theorem Renaming.apply_eq (ρ : Renaming) {text : String} (h : text ∈ syntaxTexts) :
    ρ.apply text = text :=
  (ρ.keeps text h text).mpr rfl

theorem Token.rename_eq_iff {t s : Token} (h : s.text ∈ syntaxTexts) : t.rename ρ = s ↔ t = s := by
  obtain ⟨kind, text⟩ := t
  obtain ⟨kind', text'⟩ := s
  simp only [rename, Token.mk.injEq, ρ.keeps text' h]

theorem Token.rename_eq {t : Token} (h : t.text ∈ syntaxTexts) : t.rename ρ = t :=
  (rename_eq_iff h).mpr rfl

theorem Paren.text_mem (p : Paren) : p.token.text ∈ syntaxTexts := by
  cases p <;> decide

theorem Comparator.text_mem (op : Comparator) : op.text ∈ syntaxTexts := by
  cases op <;> decide

@[simp] theorem Token.isEof_rename (t : Token) : (t.rename ρ).isEof = t.isEof := rfl

@[simp] theorem Token.kind_rename (t : Token) : (t.rename ρ).kind = t.kind := rfl

theorem Token.comparator?_rename (t : Token) : (t.rename ρ).comparator? = t.comparator? := by
  have htext : Comparator.ofText? (ρ.apply t.text) = Comparator.ofText? t.text := by
    ext op
    rw [Comparator.ofText?_eq_some_iff, Comparator.ofText?_eq_some_iff, ρ.keeps _ op.text_mem]
  change (if t.kind = .comparisonOperator then Comparator.ofText? (ρ.apply t.text) else none) = _
  rw [htext, comparator?]

namespace Cursor

@[simp] theorem current_rename (c : Cursor) : (c.rename ρ).current = c.current.rename ρ := by
  obtain ⟨position, rest⟩ := c
  cases rest with
  | nil => exact (Token.rename_eq (show eofText ∈ syntaxTexts by decide)).symm
  | cons t rest => rfl

@[simp] theorem skip_rename (c : Cursor) (n : Nat) : (c.rename ρ).skip n = (c.skip n).rename ρ := by
  simp [skip, rename, List.map_drop]

@[simp] theorem advance_rename (c : Cursor) : (c.rename ρ).advance = c.advance.rename ρ :=
  skip_rename c 1

theorem nextIsOpeningParen_rename (c : Cursor) :
    (c.rename ρ).nextIsOpeningParen = c.nextIsOpeningParen := by
  rw [Bool.eq_iff_iff, Parse.nextIsOpeningParen_iff, Parse.nextIsOpeningParen_iff, advance_rename,
    current_rename]
  exact Token.rename_eq_iff (Paren.text_mem .opening)

end Cursor

namespace Parse

/-- `y` ends as `x` does, up to the texts: its value is that of `x` under `f`. -/
def Renames {α β : Type} (ρ : Renaming) (f : α → β) (x : Parsed α) (y : Parsed β) : Prop :=
  y.result = (x.result.map f).mapError (ParseError.rename ρ)

theorem Renames.bind {α β γ δ : Type} {f : α → β} {g : γ → δ} {x : Parsed α} {y : Parsed β}
    {k : α → Parsed γ} {l : β → Parsed δ} (hx : Renames ρ f x y)
    (hk : ∀ a, Renames ρ g (k a) (l (f a))) : Renames ρ g (x >>= k) (y >>= l) := by
  unfold Renames
  rw [Logged.result_bind, Logged.result_bind, hx]
  cases x.result with
  | error e => rfl
  | ok a => exact hk a

theorem Renames.ok {α β : Type} {f : α → β} {x : Parsed α} {y : Parsed β} (h : Renames ρ f x y)
    {a : α} (hx : x.result = .ok a) : y.result = .ok (f a) := by
  rw [h, hx]
  rfl

theorem Renames.error {α β : Type} {f : α → β} {x : Parsed α} {y : Parsed β} (h : Renames ρ f x y)
    {e : ParseError} (hx : x.result = .error e) : y.result = .error (e.rename ρ) := by
  rw [h, hx]
  rfl

theorem renames_missing (expected : Construct) :
    Renames ρ id (missing mode expected) (missing mode expected) := by
  cases mode <;> rfl

theorem renames_unexpected {α β : Type} (f : α → β) (expected : Construct) (found : Token) :
    Renames ρ f (unexpected expected found) (unexpected expected (found.rename ρ)) := rfl

theorem renames_ofExcept {x : Except ParseError Unit}
    (h : x.mapError (ParseError.rename ρ) = x) :
    Renames ρ id (Logged.ofExcept x) (Logged.ofExcept x) := by
  change x = (x.map id).mapError (ParseError.rename ρ)
  cases x with
  | error e => exact h.symm
  | ok u => rfl

theorem renames_terminal (kind : TokenKind) (expected : Construct) (c : Cursor) :
    Renames ρ (Prod.map (Option.map ρ.apply) (Cursor.rename ρ)) (terminal mode kind expected c)
      (terminal mode kind expected (c.rename ρ)) := by
  unfold terminal
  rw [Cursor.current_rename, Token.isEof_rename, Token.kind_rename, Cursor.advance_rename]
  split
  · exact (renames_missing expected).bind fun _ => rfl
  · split
    · rfl
    · exact renames_unexpected _ expected c.current

theorem renames_comparator (c : Cursor) :
    Renames ρ (Prod.map id (Cursor.rename ρ)) (comparator mode c)
      (comparator mode (c.rename ρ)) := by
  unfold comparator
  rw [Cursor.current_rename, Token.isEof_rename, Token.comparator?_rename, Cursor.advance_rename]
  split
  · exact (renames_missing _).bind fun _ => rfl
  · split
    · rfl
    · exact renames_unexpected _ _ c.current

theorem isInsideList_rename (t : Token) : isInsideList (t.rename ρ) = isInsideList t := by
  have htext : (t.rename ρ).text = "]" ↔ t.text = "]" := ρ.keeps "]" (by decide) t.text
  rw [Bool.eq_iff_iff]
  simp [isInsideList, htext]

theorem expectedAt_rename (last index : Nat) (t : Token) :
    expectedAt last index (t.rename ρ) = expectedAt last index t := by
  have hopening : (t.rename ρ).text = "[" ↔ t.text = "[" := ρ.keeps "[" (by decide) t.text
  have hclosing : (t.rename ρ).text = "]" ↔ t.text = "]" := ρ.keeps "]" (by decide) t.text
  have hcomma : (t.rename ρ).text = "," ↔ t.text = "," := ρ.keeps "," (by decide) t.text
  refine if_congr .rfl (if_congr hopening rfl rfl) (if_congr .rfl (if_congr hclosing rfl rfl) ?_)
  exact if_congr .rfl rfl (if_congr hcomma rfl rfl)

theorem listFault?_rename (ts : List Token) :
    listFault? (ts.map (Token.rename ρ)) = (listFault? ts).map (ParseError.rename ρ) := by
  unfold listFault?
  rw [List.length_map, List.zipIdx_map, List.findSome?_map, List.map_findSome?]
  congr 1
  funext ⟨t, index⟩
  change (expectedAt _ index (t.rename ρ)).map _ = ((expectedAt _ index t).map _).map _
  rw [expectedAt_rename, Option.map_map]
  rfl

theorem renames_list (c : Cursor) :
    Renames ρ (Prod.map (Option.map (List.map (Token.rename ρ))) (Cursor.rename ρ)) (list mode c)
      (list mode (c.rename ρ)) := by
  have hinside : (c.rename ρ).rest.takeWhile isInsideList =
      (c.rest.takeWhile isInsideList).map (Token.rename ρ) := by
    change (c.rest.map (Token.rename ρ)).takeWhile isInsideList = _
    rw [List.takeWhile_map]
    congr 2
    funext t
    exact isInsideList_rename t
  unfold list
  dsimp only
  rw [hinside, List.length_map, Cursor.skip_rename]
  generalize c.rest.takeWhile isInsideList = inside
  generalize c.skip inside.length = stop
  have hlist : inside.map (Token.rename ρ) ++ [(stop.rename ρ).current] =
      (inside ++ [stop.current]).map (Token.rename ρ) := by
    rw [Cursor.current_rename, List.map_append, List.map_singleton]
  rw [hlist, Cursor.current_rename, Token.isEof_rename, listFault?_rename, List.length_map,
    Cursor.advance_rename]
  split
  · exact (renames_missing _).bind fun _ => rfl
  · cases listFault? (inside ++ [stop.current]) with
    | some e => rfl
    | none =>
      dsimp only [Option.map_none]
      split
      · exact renames_unexpected _ _ stop.current
      · rfl

theorem renames_comparison (c : Cursor) :
    Renames ρ (Prod.map (Comparison.rename ρ) (Cursor.rename ρ)) (comparison mode c)
      (comparison mode (c.rename ρ)) := by
  have hin : (c.rename ρ).current = Token.inOperator ↔ c.current = Token.inOperator := by
    rw [Cursor.current_rename]
    exact Token.rename_eq_iff (by decide)
  unfold comparison
  simp only [hin, Cursor.advance_rename]
  split
  · exact (renames_list c.advance).bind fun _ => rfl
  · exact (renames_comparator c).bind fun r => (renames_terminal _ _ r.2).bind fun _ => rfl

theorem renames_filter (c : Cursor) :
    Renames ρ (Prod.map (Filter.rename ρ) (Cursor.rename ρ)) (filter mode c)
      (filter mode (c.rename ρ)) :=
  (renames_terminal _ _ c).bind fun r => (renames_comparison r.2).bind fun _ => rfl

theorem paren_rename (p : Paren) (b : Balance) (c : Cursor) :
    paren p b (c.rename ρ) = Prod.map id (Prod.map id (Cursor.rename ρ)) (paren p b c) := by
  have hp : (c.rename ρ).current = p.token ↔ c.current = p.token := by
    rw [Cursor.current_rename]
    exact Token.rename_eq_iff p.text_mem
  unfold paren
  simp only [hp, Cursor.advance_rename]
  split <;> rfl

theorem renames_segment (b : Balance) (c : Cursor) :
    Renames ρ (Prod.map (Segment.rename ρ) (Prod.map id (Cursor.rename ρ))) (segment mode b c)
      (segment mode b (c.rename ρ)) := by
  unfold segment
  rw [paren_rename]
  obtain ⟨opening, b, c⟩ := paren .opening b c
  dsimp only [Prod.map_apply, id]
  refine Renames.bind (f := id) rfl fun _ => (renames_filter c).bind fun r => ?_
  obtain ⟨filter, d⟩ := r
  have hclosing := paren_rename (ρ := ρ) .closing b d
  dsimp only [Prod.map_apply]
  rw [hclosing]
  rfl

theorem renames_segments (b : Balance) (c : Cursor) :
    Renames ρ (Prod.map (Chain.rename ρ) (Prod.map id (Cursor.rename ρ))) (segments mode b c)
      (segments mode b (c.rename ρ)) := by
  fun_induction segments mode b c with
  | case1 b c step e h =>
    have hstep : (segment mode b (c.rename ρ)).result = .error (e.rename ρ) :=
      (renames_segment b c).error h
    rw [segments_of_error hstep]
    rfl
  | case2 b c step s b' d h hd tail ih =>
    have hstep : (segment mode b (c.rename ρ)).result = .ok (s.rename ρ, b', d.rename ρ) :=
      (renames_segment b c).ok h
    have hd : (d.rename ρ).current.kind = .logicalOperator := by rwa [Cursor.current_rename]
    rw [← Cursor.advance_rename] at ih
    rw [segments_of_link hstep hd]
    unfold Renames at ih ⊢
    dsimp only
    rw [ih, Cursor.current_rename]
    cases tail.result with
    | error e => rfl
    | ok r => rfl
  | case3 b c step s b' d h hd =>
    have hstep : (segment mode b (c.rename ρ)).result = .ok (s.rename ρ, b', d.rename ρ) :=
      (renames_segment b c).ok h
    have hd : (d.rename ρ).current.kind ≠ .logicalOperator := by rwa [Cursor.current_rename]
    rw [segments_of_last hstep hd]
    rfl

theorem check_rename (b : Balance) : b.check.mapError (ParseError.rename ρ) = b.check := by
  unfold Balance.check
  split <;> rfl

theorem renames_chain (c : Cursor) :
    Renames ρ (Prod.map (Chain.rename ρ) (Cursor.rename ρ)) (chain mode c)
      (chain mode (c.rename ρ)) := by
  rw [chain_eq, chain_eq]
  refine (renames_segments .empty c).bind fun r => ?_
  obtain ⟨x, b, d⟩ := r
  exact (renames_ofExcept (check_rename b)).bind fun _ => rfl

theorem wrappers_rename (b : Balance) (c : Cursor) :
    wrappers b (c.rename ρ) = Prod.map id (Cursor.rename ρ) (wrappers b c) := by
  have hopen (c : Cursor) : (c.rename ρ).current = Token.openingParen ∧
      (c.rename ρ).nextIsOpeningParen ↔ c.current = Token.openingParen ∧ c.nextIsOpeningParen := by
    rw [Cursor.current_rename, Cursor.nextIsOpeningParen_rename]
    exact and_congr_left' (Token.rename_eq_iff (Paren.text_mem .opening))
  fun_induction wrappers b c with
  | case1 b c h ih =>
    rw [wrappers, dif_pos ((hopen c).mpr h), Cursor.advance_rename, ih]
  | case2 b c h =>
    rw [wrappers, dif_neg (mt (hopen c).mp h)]
    rfl

theorem renames_expression (c : Cursor) :
    Renames ρ (Prod.map (Expression.rename ρ) (Cursor.rename ρ)) (expression mode c)
      (expression mode (c.rename ρ)) := by
  unfold expression
  rw [wrappers_rename]
  obtain ⟨b, c⟩ := wrappers .empty c
  dsimp only [Prod.map_apply, id]
  refine (renames_chain c).bind fun r => ?_
  obtain ⟨x, d⟩ := r
  have hclosing := paren_rename (ρ := ρ) .closing b d
  dsimp only [Prod.map_apply]
  rw [hclosing]
  obtain ⟨closing, b', d⟩ := paren .closing b d
  exact (renames_ofExcept (check_rename b')).bind fun _ => rfl

theorem renames_trailing (c : Cursor) :
    Renames ρ id (trailing mode c) (trailing mode (c.rename ρ)) := by
  have hrest : (c.rename ρ).rest = [] ↔ c.rest = [] := List.map_eq_nil_iff
  unfold trailing
  simp only [hrest, Cursor.current_rename]
  split
  · rfl
  · cases mode <;> rfl

theorem renames_parse (ts : List Token) :
    Renames ρ (Expression.rename ρ) (parse mode ts) (parse mode (ts.map (Token.rename ρ))) := by
  unfold parse
  simp only [List.map_eq_nil_iff]
  split
  · rfl
  · refine (renames_expression (.start ts)).bind fun r => ?_
    obtain ⟨e, c⟩ := r
    refine (renames_trailing c).bind fun _ => ?_
    exact Renames.bind (f := id) rfl fun _ => rfl

end Parse

theorem Node.rename_eof : Node.eof.rename ρ = Node.eof := by
  change Node.rename ρ ⟨.eof, some eofText, []⟩ = ⟨.eof, some eofText, []⟩
  rw [rename_mk, Option.map_some, ρ.apply_eq (by decide), List.map_nil]

theorem Node.rename_ofToken? (t : Option Token) :
    (ofToken? t).rename ρ = ofToken? (t.map (Token.rename ρ)) := by
  cases t with
  | none => exact rename_eof
  | some t => exact t.rename_toNode.symm

theorem map_rename_toNode (ts : List Token) :
    (ts.map Token.toNode).map (Node.rename ρ) = (ts.map (Token.rename ρ)).map Token.toNode := by
  simp [Function.comp_def]

theorem Comparison.rename_toNode (x : Comparison) : (x.rename ρ).toNode = x.toNode.rename ρ := by
  cases x with
  | scalar op operand =>
    have hop : (op.map Comparator.token).map (Token.rename ρ) = op.map Comparator.token := by
      rw [Option.map_map]
      congr 1
      funext op
      exact Token.rename_eq op.text_mem
    simp only [toNode, rename, Node.rename_branch, List.map_cons, List.map_nil,
      Node.rename_ofToken?, hop, Option.map_map]
    rfl
  | membership list =>
    have hin : Token.inOperator.toNode.rename ρ = Token.inOperator.toNode := by
      rw [← Token.rename_toNode, Token.rename_eq (by decide)]
    simp only [toNode, rename, Node.rename_branch, List.map_cons, List.map_nil, hin]
    cases list with
    | none => simp [Node.rename_eof]
    | some ts =>
      simp only [Option.map_some, Option.getD_some, Node.rename_branch, map_rename_toNode]

theorem Filter.rename_toNode (f : Filter) : (f.rename ρ).toNode = f.toNode.rename ρ := by
  simp only [toNode, rename, Node.rename_branch, List.map_cons, List.map_nil,
    Node.rename_ofToken?, Option.map_map, Comparison.rename_toNode]
  rfl

theorem map_rename_parens {ts : List Token} (h : ∀ t ∈ ts, t.text ∈ syntaxTexts) :
    (ts.map Token.toNode).map (Node.rename ρ) = ts.map Token.toNode := by
  rw [map_rename_toNode, List.map_congr_left fun t ht => Token.rename_eq (h t ht), List.map_id']

theorem Segment.rename_nodes (s : Segment) : (s.rename ρ).nodes = s.nodes.map (Node.rename ρ) := by
  have hopenings : ∀ t ∈ s.openings, t.text ∈ syntaxTexts := by
    unfold openings
    split
    · exact List.forall_mem_singleton.mpr (Paren.text_mem .opening)
    · exact List.forall_mem_nil _
  have hclosings : ∀ t ∈ s.closings, t.text ∈ syntaxTexts := by
    unfold closings
    split
    · exact List.forall_mem_singleton.mpr (Paren.text_mem .closing)
    · exact List.forall_mem_nil _
  rw [nodes, nodes, List.map_append, List.map_cons, map_rename_parens hopenings,
    map_rename_parens hclosings, ← Filter.rename_toNode]
  rfl

theorem Chain.rename_toNode (links : List (Segment × String)) (last : Segment) :
    ((Chain.mk links last).rename ρ).toNode = (Chain.mk links last).toNode.rename ρ := by
  induction links with
  | nil =>
    change Node.branch .filters (last.rename ρ).nodes = (Node.branch .filters last.nodes).rename ρ
    rw [Node.rename_branch, Segment.rename_nodes]
  | cons link links ih =>
    change (Chain.cons (link.1.rename ρ) (ρ.apply link.2) ((Chain.mk links last).rename ρ)).toNode =
      (Chain.cons link.1 link.2 ⟨links, last⟩).toNode.rename ρ
    rw [toNode_cons, toNode_cons, Node.rename_branch, List.map_append, List.map_cons,
      List.map_singleton, ih, Segment.rename_nodes, ← Token.rename_toNode]
    rfl

theorem Expression.rename_toNode (e : Expression) : (e.rename ρ).toNode = e.toNode.rename ρ := by
  have hopenings : ∀ t ∈ e.openings, t.text ∈ syntaxTexts := by
    intro t ht
    rw [List.eq_of_mem_replicate ht]
    exact Paren.text_mem .opening
  have hclosings : ∀ t ∈ e.closings, t.text ∈ syntaxTexts := by
    unfold closings
    split
    · exact List.forall_mem_singleton.mpr (Paren.text_mem .closing)
    · exact List.forall_mem_nil _
  rw [toNode, toNode, Node.rename_branch, List.map_append, List.map_cons,
    map_rename_parens hopenings, map_rename_parens hclosings, ← Chain.rename_toNode]
  rfl

/-- Renamed tokens have the renamed tree, or fail with the renamed error. -/
theorem tokensTree_rename (ρ : Renaming) (mode : Mode) (ts : List Token) :
    tokensTree mode (ts.map (Token.rename ρ)) =
      ((tokensTree mode ts).map (Node.rename ρ)).mapError (ParseError.rename ρ) := by
  rw [tokensTree, tokensTree, Parse.renames_parse ts]
  cases (parse mode ts).result with
  | error e => rfl
  | ok e => exact congrArg Except.ok e.rename_toNode

end

end FilterQuery
