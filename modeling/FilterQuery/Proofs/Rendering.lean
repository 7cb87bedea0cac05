import FilterQuery.Command
import FilterQuery.Proofs.ExportReading
import FilterQuery.Proofs.QuotedText
import FilterQuery.Proofs.TreeShape
import FilterQuery.Proofs.Unparsing
/-!
# Plain text output

Nothing is escaped in the outline of a tree and in the lines of a token list. But a text that comes
from a query shows where it ends: it stands in double quotes, or has no quotes at all. So both
outputs can be taken apart from the left.
-/
namespace FilterQuery

section
variable {α β : Type}

theorem split_inj {a : α} {xs ys rest rest' : List α} (hx : a ∉ xs) (hy : a ∉ ys)
    (h : xs ++ a :: rest = ys ++ a :: rest') : xs = ys ∧ rest = rest' := by
  induction xs generalizing ys with
  | nil =>
    cases ys with
    | nil => exact ⟨rfl, (List.cons.inj h).2⟩
    | cons y ys => exact absurd ((List.cons.inj h).1 ▸ List.mem_cons_self) hy
  | cons x xs ih =>
    cases ys with
    | nil => exact absurd ((List.cons.inj h).1 ▸ List.mem_cons_self) hx
    | cons y ys =>
      obtain ⟨rfl, htail⟩ := List.cons.inj h
      obtain ⟨rfl, rfl⟩ := ih (List.not_mem_of_not_mem_cons hx) (List.not_mem_of_not_mem_cons hy)
        htail
      exact ⟨rfl, rfl⟩

/-- Whether the texts of all `b` with `P b` tell where they end, whatever stands behind them. -/
def Delimited (P : β → Prop) (text : β → List α) : Prop :=
  ∀ ⦃b b' : β⦄ ⦃rest rest' : List α⦄, P b → P b' →
    text b ++ rest = text b' ++ rest' → b = b' ∧ rest = rest'

variable {P : β → Prop} {text : β → List α}

theorem Delimited.flatMap_inj (h : Delimited P text) (hne : ∀ b, text b ≠ []) {bs cs : List β}
    (hbs : ∀ b ∈ bs, P b) (hcs : ∀ c ∈ cs, P c) (htext : bs.flatMap text = cs.flatMap text) :
    bs = cs := by
  induction bs generalizing cs with
  | nil =>
    cases cs with
    | nil => rfl
    | cons c cs => simp [hne c] at htext
  | cons b bs ih =>
    cases cs with
    | nil => simp [hne b] at htext
    | cons c cs =>
      obtain ⟨hb, hbtail⟩ := List.forall_mem_cons.mp hbs
      obtain ⟨hc, hctail⟩ := List.forall_mem_cons.mp hcs
      rw [List.flatMap_cons, List.flatMap_cons] at htext
      obtain ⟨rfl, htail⟩ := h hb hc htext
      rw [ih hbtail hctail htail]

theorem Delimited.append_left (h : Delimited P text) (front : List α) :
    Delimited P fun b => front ++ text b := by
  intro b b' rest rest' hb hb' heq
  rw [List.append_assoc, List.append_assoc] at heq
  exact h hb hb' (List.append_cancel_left heq)

theorem intercalate_cons (sep xs : List α) (xss : List (List α)) :
    sep.intercalate (xs :: xss) = xs ++ xss.flatMap (sep ++ ·) := by
  induction xss generalizing xs with
  | nil => simp [List.intercalate]
  | cons ys xss ih => rw [List.intercalate_cons_cons, ih, List.flatMap_cons]; simp

theorem Delimited.intercalate_inj (h : Delimited P text) (hne : ∀ b, text b ≠ []) (sep : List α)
    {bs cs : List β} (hbs : ∀ b ∈ bs, P b) (hcs : ∀ c ∈ cs, P c)
    (htext : sep.intercalate (bs.map text) = sep.intercalate (cs.map text)) : bs = cs := by
  cases bs with
  | nil =>
    cases cs with
    | nil => rfl
    | cons c cs =>
      rw [List.map_cons, intercalate_cons] at htext
      simp [hne c, List.intercalate] at htext
  | cons b bs =>
    cases cs with
    | nil =>
      rw [List.map_cons, intercalate_cons] at htext
      simp [hne b, List.intercalate] at htext
    | cons c cs =>
      obtain ⟨hb, hbtail⟩ := List.forall_mem_cons.mp hbs
      obtain ⟨hc, hctail⟩ := List.forall_mem_cons.mp hcs
      rw [List.map_cons, List.map_cons, intercalate_cons, intercalate_cons, List.flatMap_map,
        List.flatMap_map] at htext
      obtain ⟨rfl, htail⟩ := h hb hc htext
      rw [(h.append_left sep).flatMap_inj (by simp [hne]) hbtail hctail htail]

end

theorem SelfClosed.inj {q : Char} (hq : q ∈ ['"', '\'']) {text text' rest rest' : List Char}
    (h : SelfClosed text) (h' : SelfClosed text')
    (heq : text ++ q :: rest = text' ++ q :: rest') : text = text' ∧ rest = rest' := by
  -- a text without quotes does not start like one in quotes
  have hmixed {body plain back back' : List Char} (hne : plain ≠ []) (hplain : '"' ∉ plain) :
      '"' :: body ++ ['"'] ++ q :: back ≠ plain ++ q :: back' := by
    obtain ⟨c, cs, rfl⟩ := List.exists_cons_of_ne_nil hne
    intro hcons
    exact hplain ((List.cons.inj hcons).1 ▸ List.mem_cons_self)
  rcases h with ⟨body, rfl, hbody⟩ | ⟨hne, hdouble, hsingle⟩
  · rcases h' with ⟨body', rfl, hbody'⟩ | ⟨hne', hdouble', -⟩
    · simp only [List.cons_append, List.append_assoc, List.nil_append, List.cons.injEq,
        true_and] at heq
      obtain ⟨rfl, hrest⟩ := split_inj hbody hbody' heq
      exact ⟨rfl, (List.cons.inj hrest).2⟩
    · exact absurd heq (hmixed hne' hdouble')
  · rcases h' with ⟨body', rfl, hbody'⟩ | ⟨hne', hdouble', hsingle'⟩
    · exact absurd heq.symm (hmixed hne hdouble)
    · simp only [List.mem_cons, List.not_mem_nil, or_false] at hq
      rcases hq with rfl | rfl
      · exact split_inj hdouble hdouble' heq
      · exact split_inj hsingle hsingle' heq

theorem NodeKind.name_inj {k k' : NodeKind} (h : k.name = k'.name) : k = k' := by
  rw [← Option.some_inj, ← ofName?_name, h, ofName?_name]

theorem TokenKind.name_inj {k k' : TokenKind} (h : k.name = k'.name) : k = k' := by
  rw [← Option.some_inj, ← ofName?_name, h, ofName?_name]

/-! ### Token lists -/

theorem toList_render (t : Token) :
    t.render.toList = t.kind.name.toList ++ '(' :: '"' :: (t.text.toList ++ ['"', ')']) := by
  simp [Token.render]

theorem delimited_render : Delimited (fun t => SelfClosed t.text.toList)
    fun t : Token => t.render.toList := by
  intro t t' rest rest' ht ht' h
  have hname (kind : TokenKind) : '(' ∉ kind.name.toList := by
    cases kind <;> decide
  simp only [toList_render, List.append_assoc, List.cons_append] at h
  obtain ⟨hkind, htail⟩ := split_inj (hname _) (hname _) h
  obtain ⟨htext, hrest⟩ := SelfClosed.inj (by simp) ht ht' (List.cons.inj htail).2
  obtain ⟨kind, text⟩ := t
  obtain ⟨kind', text'⟩ := t'
  cases TokenKind.name_inj (String.toList_inj.mp hkind)
  cases String.toList_inj.mp htext
  exact ⟨rfl, by simpa using hrest⟩

/-- Lines of tokens whose texts are closed show the tokens. -/
theorem renderTokens_inj {ts us : List Token} (hts : ∀ t ∈ ts, SelfClosed t.text.toList)
    (hus : ∀ u ∈ us, SelfClosed u.text.toList)
    (h : "\n".intercalate (ts.map Token.render) = "\n".intercalate (us.map Token.render)) :
    ts = us := by
  have htext := congrArg String.toList h
  rw [String.toList_intercalate, String.toList_intercalate, List.map_map, List.map_map] at htext
  refine delimited_render.intercalate_inj (fun t => ?_) _ hts hus htext
  simp [toList_render]

/-! ### Outlines -/

theorem outlineIndent_succ (depth : Nat) : (outlineIndent (depth + 1)).toList =
    '\n' :: (List.replicate (3 * depth) ' ' ++ ['└', '─', ' ']) := by
  simp [outlineIndent]

theorem outlineIndent_inj {depth depth' : Nat} {rest rest' : List Char}
    (h : (outlineIndent depth).toList ++ 'N' :: rest =
      (outlineIndent depth').toList ++ 'N' :: rest') : depth = depth' ∧ rest = rest' := by
  have hspaces (n : Nat) : '└' ∉ List.replicate n ' ' :=
    fun hmem => absurd (List.eq_of_mem_replicate hmem) (by decide)
  cases depth with
  | zero =>
    cases depth' with
    | zero => exact ⟨rfl, (List.cons.inj h).2⟩
    | succ depth' =>
      rw [outlineIndent_succ] at h
      exact absurd (List.cons.inj h).1 (by decide)
  | succ depth =>
    cases depth' with
    | zero =>
      rw [outlineIndent_succ] at h
      exact absurd (List.cons.inj h).1 (by decide)
    | succ depth' =>
      simp only [outlineIndent_succ, List.cons_append, List.append_assoc] at h
      obtain ⟨hdepth, hrest⟩ := split_inj (hspaces _) (hspaces _) (List.cons.inj h).2
      have hlength := congrArg List.length hdepth
      rw [List.length_replicate, List.length_replicate] at hlength
      exact ⟨by omega, by simpa using hrest⟩

/-- What the value of a node looks like if it comes from a query: grammar symbols have none, and
other nodes have a closed text. -/
def ClosedValue (kind : NodeKind) (value : Option String) : Prop :=
  value = none ∧ kind ∈ NodeKind.symbols ∨
    ∃ text, value = some text ∧ kind ∉ NodeKind.symbols ∧ SelfClosed text.toList

section
variable {kind kind' : NodeKind} {value value' : Option String}

theorem ClosedValue.selfClosed (h : ClosedValue kind value) :
    SelfClosed (value.getD "null").toList := by
  rcases h with ⟨rfl, -⟩ | ⟨text, rfl, -, htext⟩
  · exact .inr (by decide)
  · exact htext

theorem ClosedValue.inj (h : ClosedValue kind value) (h' : ClosedValue kind value')
    (htext : value.getD "null" = value'.getD "null") : value = value' := by
  rcases h with ⟨rfl, hkind⟩ | ⟨text, rfl, hkind, -⟩
  · rcases h' with ⟨rfl, -⟩ | ⟨text', rfl, hkind', -⟩
    · rfl
    · exact absurd hkind hkind'
  · rcases h' with ⟨rfl, hkind'⟩ | ⟨text', rfl, -⟩
    · exact absurd hkind' hkind
    · exact congrArg some htext

theorem toList_outlineHeader : (outlineHeader kind value).toList =
    'N' :: ("ode[".toList ++ (kind.name.toList ++
      ' ' :: ("= '".toList ++ ((value.getD "null").toList ++ ['\'', ']'])))) := by
  simp [outlineHeader]

theorem outlineHeader_inj {rest rest' : List Char} (h : ClosedValue kind value)
    (h' : ClosedValue kind' value')
    (heq : (outlineHeader kind value).toList ++ rest =
      (outlineHeader kind' value').toList ++ rest') :
    kind = kind' ∧ value = value' ∧ rest = rest' := by
  have hname (k : NodeKind) : ' ' ∉ k.name.toList := by
    cases k <;> decide
  simp only [toList_outlineHeader, List.cons_append, List.append_assoc] at heq
  have hnames := List.append_cancel_left (List.cons.inj heq).2
  obtain ⟨hkind, hvalue⟩ := split_inj (hname _) (hname _) hnames
  obtain rfl := NodeKind.name_inj (String.toList_inj.mp hkind)
  obtain ⟨htext, hrest⟩ :=
    SelfClosed.inj (by simp) h.selfClosed h'.selfClosed (List.append_cancel_left hvalue)
  exact ⟨rfl, h.inj h' (String.toList_inj.mp htext), by simpa using hrest⟩

end

theorem delimited_outline : Delimited (fun e : Entry => ClosedValue e.kind e.value)
    fun e => e.outline.toList := by
  rintro ⟨depth, kind, value⟩ ⟨depth', kind', value'⟩ rest rest' he he' h
  simp only [Entry.outline, String.toList_append, List.append_assoc] at h
  have hindent := h
  rw [toList_outlineHeader, toList_outlineHeader] at hindent
  obtain ⟨rfl, -⟩ := outlineIndent_inj hindent
  obtain ⟨rfl, rfl, rfl⟩ := outlineHeader_inj he he' (List.append_cancel_left h)
  exact ⟨rfl, rfl⟩

namespace Node

theorem exists_of_mem_entriesFrom (n : Node) : ∀ {depth : Nat}, ∀ e ∈ entriesFrom depth n,
    ∃ m ∈ n.subtrees, m.kind = e.kind ∧ m.value = e.value := by
  induction n using Node.induct with
  | step kind value children ih =>
    intro depth e he
    rw [entriesFrom_eq] at he
    rw [subtrees_mk]
    rcases List.mem_cons.mp he with rfl | he
    · exact ⟨_, List.mem_cons_self, rfl, rfl⟩
    · obtain ⟨c, hc, he⟩ := List.mem_flatMap.mp he
      obtain ⟨m, hm, hlabel⟩ := ih c hc e he
      exact ⟨m, List.mem_cons_of_mem _ (List.mem_flatMap.mpr ⟨c, hc, hm⟩), hlabel⟩

/-- Outlines of trees whose values are closed show the trees. -/
theorem outline_inj {a b : Node} (ha : ∀ n ∈ a.subtrees, ClosedValue n.kind n.value)
    (hb : ∀ n ∈ b.subtrees, ClosedValue n.kind n.value) (h : a.outline = b.outline) : a = b := by
  have hclosed {n : Node} (hn : ∀ m ∈ n.subtrees, ClosedValue m.kind m.value) :
      ∀ e ∈ n.preorder, ClosedValue e.kind e.value := by
    intro e he
    rw [preorder_eq] at he
    obtain ⟨m, hm, hkind, hvalue⟩ := n.exists_of_mem_entriesFrom e he
    rw [← hkind, ← hvalue]
    exact hn m hm
  have hne (e : Entry) : e.outline.toList ≠ [] := by
    simp [Entry.outline, toList_outlineHeader]
  have htext := congrArg String.toList h
  simp only [outline, String.toList_join, List.flatMap_map] at htext
  exact preorder_inj (delimited_outline.flatMap_inj hne (hclosed ha) (hclosed hb) htext)

end Node

theorem closedValue_of_queryTree {mode : Mode} {query : String} {t : Node}
    (h : queryTree mode query = .ok t) : ∀ n ∈ t.subtrees, ClosedValue n.kind n.value := by
  obtain ⟨ts, e, hscan, hparse, rfl⟩ := queryTree_ok_iff.mp h
  intro n hn
  rcases nodes_of_tokensTree (tokensTree_ok_iff.mpr ⟨e, hparse, rfl⟩) n hn with
    hsymbol | rfl | ⟨u, hu, rfl⟩
  · exact .inl hsymbol
  · exact .inr ⟨_, rfl, by decide, .inr (by decide)⟩
  · exact .inr ⟨_, rfl, u.kind_toNode_notMem, (fits_of_tokenize hscan u hu).selfClosed⟩

/-- On what comes from queries, outlines are equal for equal trees only, and lines of tokens for
equal token lists only. Outlines of other trees may be equal. -/
theorem plain_output_unambiguous (left right : String) (m n : Mode) (pretty pretty' : Bool) :
    (∀ t u, queryTree m left = .ok t → queryTree n right = .ok u →
      (t.outline = u.outline ↔ t.structurallyEq u)) ∧
    (∀ ts us, tokenize m left = .ok ts → tokenize n right = .ok us →
      ∃ x y, (Request.mk .tokens false pretty m).execute left = .ok (.rendered x) ∧
        (Request.mk .tokens false pretty' n).execute right = .ok (.rendered y) ∧
        (x = y ↔ ts = us)) ∧
    ∃ a b : Node, a.outline = b.outline ∧ ¬ a.structurallyEq b := by
  refine ⟨fun t u ht hu => ?_, fun ts us hts hus => ?_, ?_⟩
  · rw [Node.structurallyEq_iff]
    constructor
    · exact Node.outline_inj (closedValue_of_queryTree ht) (closedValue_of_queryTree hu)
    · rintro rfl
      rfl
  · have hclosed {mode : Mode} {query : String} {ts : List Token}
        (h : tokenize mode query = .ok ts) : ∀ t ∈ ts, SelfClosed t.text.toList :=
      fun t ht => (fits_of_tokenize h t ht).selfClosed
    refine ⟨"\n".intercalate (ts.map Token.render), "\n".intercalate (us.map Token.render), ?_, ?_,
      renderTokens_inj (hclosed hts) (hclosed hus), ?_⟩
    · simp only [Request.execute_eq, hts]
      rfl
    · simp only [Request.execute_eq, hus]
      rfl
    · rintro rfl
      rfl
  · -- a value that writes out a child
    refine ⟨⟨.filters, some "a']\n└─ Node[LITERAL = 'b", []⟩,
      ⟨.filters, some "a", [.leaf .literal "b"]⟩, ?_, ?_⟩
    · simp only [Node.outline, Node.preorder_eq]
      cbv
    · rw [Node.structurallyEq_iff]
      simp

/-- Quoted texts that go on like the rest of an outline, or of a list of tokens. -/
theorem plain_output_of_imitation : ∃ t u x y,
    queryTree .strict "a eq: \"']\n└─ Node[EOF = 'NULL\"" = .ok t ∧
    queryTree .lenient "a eq: \")\nLITERAL(\"" = .ok u ∧ t.outline ≠ u.outline ∧
    (Request.mk .tokens false false .strict).execute "a eq: \"']\n└─ Node[EOF = 'NULL\"" =
      .ok (.rendered x) ∧
    (Request.mk .tokens false true .lenient).execute "a eq: \")\nLITERAL(\"" =
      .ok (.rendered y) ∧ x ≠ y := by
  let tree (text : String) : Node := .branch .expression [.branch .filters [.branch .filter
    [.leaf .identifier "a", .branch .comparison
      [.leaf .comparisonOperator "eq:", .leaf .literal text]]]]
  have ht : queryTree .strict "a eq: \"']\n└─ Node[EOF = 'NULL\"" =
    .ok (tree "\"']\n└─ Node[EOF = 'NULL\"") := by cbv
  have hu : queryTree .lenient "a eq: \")\nLITERAL(\"" = .ok (tree "\")\nLITERAL(\"") := by cbv
  have hleft : tokenize .strict "a eq: \"']\n└─ Node[EOF = 'NULL\"" =
    .ok [.identifier "a", .comparison "eq:", .literal "\"']\n└─ Node[EOF = 'NULL\""] := by cbv
  have hright : tokenize .lenient "a eq: \")\nLITERAL(\"" =
    .ok [.identifier "a", .comparison "eq:", .literal "\")\nLITERAL(\""] := by cbv
  obtain ⟨houtline, hlines, -⟩ := plain_output_unambiguous "a eq: \"']\n└─ Node[EOF = 'NULL\""
    "a eq: \")\nLITERAL(\"" .strict .lenient false true
  obtain ⟨x, y, hx, hy, hxy⟩ := hlines _ _ hleft hright
  refine ⟨_, _, x, y, ht, hu, fun h => ?_, hx, hy, fun h => ?_⟩
  · have heq := Node.structurallyEq_iff.mp ((houtline _ _ ht hu).mp h)
    simp [tree, Node.branch, Node.leaf] at heq
  · exact absurd (hxy.mp h) (by decide)

end FilterQuery
