import FilterQuery.Proofs.QuotedText
import FilterQuery.Proofs.Renaming
import FilterQuery.Proofs.TreeShape
import FilterQuery.Proofs.Unparsing
/-!
# The content of a quoted text

What stands between two quotes is seen at one place of the result and has no part in anything else.
With a literal without text in its place, a hole, the tokens of a query have a tree or an error with
a hole in it, and the quoted text fills the one as it fills the other.
-/
namespace FilterQuery

/-- The trees are the same, but for one leaf with `index` leaves of tokens before it, which is the
literal `v` in the one and `w` in the other. -/
inductive Node.DifferAt (v w : String) : Nat → Node → Node → Prop
  | leaf : DifferAt v w 0 (.leaf .literal v) (.leaf .literal w)
  | child {kind : NodeKind} {value : Option String} {left right : List Node} {t t' : Node}
    {index : Nat} : DifferAt v w index t t' →
      DifferAt v w ((left.flatMap Node.written).length + index)
        ⟨kind, value, left ++ t :: right⟩ ⟨kind, value, left ++ t' :: right⟩

/-- The errors are the same, but the one may report the text `v` where the other reports `w`. -/
inductive ParseError.Alike (v w : String) : ParseError → ParseError → Prop
  | same (e : ParseError) : Alike v w e e
  | unexpectedToken (expected : Construct) :
    Alike v w (.unexpectedToken expected v) (.unexpectedToken expected w)
  | trailingInput : Alike v w (.trailingInput v) (.trailingInput w)

/-- A literal without text. No scan returns it. -/
def hole : Token := Token.literal ""

/-- Gives the hole a text that does not belong to the grammar. -/
def Renaming.fill (text : String) (h : text ∉ syntaxTexts) : Renaming where
  apply x := if x = "" then text else x
  keeps := by
    have hempty : "" ∉ syntaxTexts := by decide
    intro s hs x
    split
    · rename_i hx
      apply iff_of_false
      · rintro rfl
        exact h hs
      · rintro rfl
        exact hempty (hx ▸ hs)
    · rfl

section
variable {text : String} {h : text ∉ syntaxTexts}

theorem Renaming.fill_of_ne {x : String} (hx : x ≠ "") : (fill text h).apply x = x := if_neg hx

theorem Token.rename_fill {t : Token} (ht : t.text ≠ "") : t.rename (.fill text h) = t := by
  rw [rename, Renaming.fill_of_ne ht]

theorem hole_rename : hole.rename (.fill text h) = Token.literal text := rfl

end

namespace Node

theorem rename_eq_self {ρ : Renaming} {t : Node}
    (h : ∀ n ∈ t.subtrees, ∀ x ∈ n.value, ρ.apply x = x) : t.rename ρ = t := by
  induction t using Node.induct with
  | step kind value children ih =>
    rw [subtrees_mk, List.forall_mem_cons, List.forall_mem_flatMap] at h
    have hvalue : value.map ρ.apply = value := by
      cases value with
      | none => rfl
      | some x => exact congrArg some (h.1 x rfl)
    have hchildren : children.map (rename ρ) = children := by
      rw [List.map_congr_left fun c hc => ih c hc (h.2 c hc), List.map_id']
    rw [rename_mk, hvalue, hchildren]

/-- A node of the tree whose text is empty is a hole. -/
def OnlyHoles (t : Node) : Prop := ∀ n ∈ t.subtrees, n.value = some "" → n = hole.toNode

section
variable {text : String} {htext : text ∉ syntaxTexts} {kind : NodeKind} {value : Option String}
  {children : List Node}

theorem OnlyHoles.below (h : OnlyHoles ⟨kind, value, children⟩) : ∀ c ∈ children, c.OnlyHoles := by
  rw [OnlyHoles, subtrees_mk, List.forall_mem_cons, List.forall_mem_flatMap] at h
  exact h.2

theorem OnlyHoles.map_value (h : OnlyHoles ⟨kind, value, children⟩) (hne : children ≠ []) :
    value.map (Renaming.fill text htext).apply = value := by
  cases value with
  | none => rfl
  | some x =>
    refine congrArg some (Renaming.fill_of_ne ?_)
    rintro rfl
    have hroot := h _ (by rw [subtrees_mk]; exact List.mem_cons_self) rfl
    exact hne (congrArg Node.children hroot)

theorem rename_fill {t : Node} (h : t.OnlyHoles) (hnone : hole.toNode ∉ t.written) :
    t.rename (.fill text htext) = t := by
  apply rename_eq_self
  intro n hn x hx
  apply Renaming.fill_of_ne
  rintro rfl
  rw [h n hn hx] at hn
  exact hnone (Token.toNode_mem_written (by decide) hn)

theorem map_rename_fill {ns : List Node} (h : ∀ n ∈ ns, n.OnlyHoles)
    (hnone : hole.toNode ∉ ns.flatMap written) : ns.map (rename (.fill text htext)) = ns := by
  have hself : ∀ n ∈ ns, n.rename (.fill text htext) = n := fun n hn =>
    rename_fill (h n hn) fun hhole => hnone (List.mem_flatMap.mpr ⟨n, hn, hhole⟩)
  rw [List.map_congr_left hself, List.map_id']

end

theorem differAt_fill {v w : String} (hv : v ∉ syntaxTexts) (hw : w ∉ syntaxTexts) {t : Node}
    (h : t.OnlyHoles) {before after : List Node}
    (hwritten : t.written = before ++ hole.toNode :: after) (hbefore : hole.toNode ∉ before)
    (hafter : hole.toNode ∉ after) :
    DifferAt v w before.length (t.rename (.fill v hv)) (t.rename (.fill w hw)) := by
  have hmem : hole.toNode ∈ t.written := by simp [hwritten]
  induction t using Node.induct generalizing before after with
  | step kind value children ih =>
    by_cases hleaf : children = []
    · subst hleaf
      obtain ⟨hmem, -⟩ := List.mem_filter.mp (List.mem_filter.mp hmem).1
      rw [subtrees_mk, List.flatMap_nil, List.mem_singleton] at hmem
      rw [← hmem, Token.written_toNode (by decide)] at hwritten
      have hlength := congrArg List.length hwritten
      have hzero : before.length = 0 := by
        simp only [List.length_append, List.length_cons, List.length_nil] at hlength
        omega
      rw [hzero, ← hmem, ← Token.rename_toNode, ← Token.rename_toNode]
      exact .leaf
    · rw [written_mk value hleaf] at hwritten hmem
      obtain ⟨c, hc, hbelow⟩ := List.mem_flatMap.mp hmem
      obtain ⟨left, right, rfl⟩ := List.append_of_mem hc
      obtain ⟨l, r, hl⟩ := List.append_of_mem hbelow
      have hsplit : before ++ hole.toNode :: after =
          (left.flatMap written ++ l) ++ hole.toNode :: (r ++ right.flatMap written) := by
        rw [← hwritten, List.flatMap_append, List.flatMap_cons, hl]
        simp only [List.append_assoc, List.cons_append]
      obtain ⟨rfl, -, rfl⟩ := (List.append_cons_inj_of_notMem hbefore hafter).mp hsplit
      rw [List.mem_append, not_or] at hbefore hafter
      have hchildren := h.below
      rw [List.forall_mem_append, List.forall_mem_cons] at hchildren
      obtain ⟨hleft, hhole, hright⟩ := hchildren
      have hdiffer := ih c hc hhole hl hbefore.2 hafter.1 hbelow
      rw [rename_mk, rename_mk, h.map_value hleaf, h.map_value hleaf, List.map_append, List.map_append,
        List.map_cons, List.map_cons, map_rename_fill hleft hbefore.1,
        map_rename_fill hleft hbefore.1, map_rename_fill hright hafter.2,
        map_rename_fill hright hafter.2, List.length_append]
      exact .child hdiffer

end Node

theorem ParseError.alike_fill {v w : String} (hv : v ∉ syntaxTexts) (hw : w ∉ syntaxTexts)
    (e : ParseError) : Alike v w (e.rename (.fill v hv)) (e.rename (.fill w hw)) := by
  cases e with
  | unexpectedToken expected found =>
    by_cases hfound : found = ""
    · subst hfound
      exact .unexpectedToken expected
    · rw [rename, rename, Renaming.fill_of_ne hfound, Renaming.fill_of_ne hfound]
      exact .same _
  | trailingInput found =>
    by_cases hfound : found = ""
    · subst hfound
      exact .trailingInput
    · rw [rename, rename, Renaming.fill_of_ne hfound, Renaming.fill_of_ne hfound]
      exact .same _
  | emptyInput => exact .same _
  | unbalancedParens missing => exact .same _
  | unexpectedEnd expected => exact .same _

theorem hole_notMem {ts : List Token} (h : ∀ t ∈ ts, t.text ≠ "") :
    hole.toNode ∉ ts.map Token.toNode := by
  intro hmem
  obtain ⟨t, ht, heq⟩ := List.mem_map.mp hmem
  exact h t ht (Option.some.inj (congrArg Node.value heq))

section
variable {mode : Mode} {before after : List Token} (hne : ∀ t ∈ before ++ after, t.text ≠ "")
include hne

theorem map_rename_fill_tokens {text : String} (htext : text ∉ syntaxTexts) :
    (before ++ hole :: after).map (Token.rename (.fill text htext)) =
      before ++ .literal text :: after := by
  obtain ⟨hbefore, hafter⟩ := List.forall_mem_append.mp hne
  have hself {ts : List Token} (h : ∀ t ∈ ts, t.text ≠ "") :
      ts.map (Token.rename (.fill text htext)) = ts := by
    rw [List.map_congr_left fun t ht => Token.rename_fill (h t ht), List.map_id']
  rw [List.map_append, List.map_cons, hself hbefore, hself hafter, hole_rename]

theorem onlyHoles_of_tokensTree {t : Node}
    (h : tokensTree mode (before ++ hole :: after) = .ok t) : t.OnlyHoles := by
  intro n hn hvalue
  rcases nodes_of_tokensTree h n hn with ⟨hnone, -⟩ | rfl | ⟨u, hu, rfl⟩
  · rw [hnone] at hvalue
    cases hvalue
  · exact absurd hvalue (by decide)
  · have hempty : u.text = "" := Option.some.inj hvalue
    rw [List.mem_append, List.mem_cons, or_left_comm, ← List.mem_append] at hu
    obtain rfl := hu.resolve_right fun hother => hne u hother hempty
    rfl

theorem written_of_tokensTree {t : Node}
    (h : tokensTree mode (before ++ hole :: after) = .ok t) :
    hole.toNode ∉ t.written ∨ ∃ rest, t.written = before.map Token.toNode ++ hole.toNode :: rest ∧
      hole.toNode ∉ rest := by
  obtain ⟨hbefore, hafter⟩ := List.forall_mem_append.mp hne
  obtain ⟨e, hparse, rfl⟩ := tokensTree_ok_iff.mp h
  obtain ⟨-, dropped, rest, hts, hends, -⟩ := Parse.parse_ok_iff.mp hparse
  rw [Expression.written_toNode hends]
  rw [List.append_assoc] at hts
  rcases List.append_eq_append_iff.mp hts with ⟨read, htokens, hread⟩ | ⟨unread, hsplit, -⟩
  · cases read with
    | nil =>
      left
      rw [htokens, List.append_nil]
      exact hole_notMem hbefore
    | cons u read =>
      obtain ⟨rfl, rfl⟩ := List.cons.inj hread
      right
      refine ⟨read.map Token.toNode, by rw [htokens, List.map_append, List.map_cons], ?_⟩
      apply hole_notMem
      exact fun s hs => hafter s (List.mem_append_left _ hs)
  · left
    apply hole_notMem
    intro s hs
    exact hbefore s (by rw [hsplit]; exact List.mem_append_left _ hs)

/-- Two token lists that differ in the text of one literal have trees that differ at most at its
leaf, or errors that differ at most in naming it. -/
theorem tokensTree_literal {v w : String} (hv : v ∉ syntaxTexts) (hw : w ∉ syntaxTexts) :
    (∃ t t', tokensTree mode (before ++ .literal v :: after) = .ok t ∧
      tokensTree mode (before ++ .literal w :: after) = .ok t' ∧
      (t = t' ∨ Node.DifferAt v w before.length t t')) ∨
    ∃ e e', tokensTree mode (before ++ .literal v :: after) = .error e ∧
      tokensTree mode (before ++ .literal w :: after) = .error e' ∧ ParseError.Alike v w e e' := by
  rw [← map_rename_fill_tokens hne hv, ← map_rename_fill_tokens hne hw, tokensTree_rename,
    tokensTree_rename]
  cases ht : tokensTree mode (before ++ hole :: after) with
  | error e => exact .inr ⟨_, _, rfl, rfl, e.alike_fill hv hw⟩
  | ok t =>
    refine .inl ⟨_, _, rfl, rfl, ?_⟩
    have honly := onlyHoles_of_tokensTree hne ht
    rcases written_of_tokensTree hne ht with hnone | ⟨rest, hwritten, hrest⟩
    · left
      rw [Node.rename_fill honly hnone, Node.rename_fill honly hnone]
    · right
      have hbefore := hole_notMem (List.forall_mem_append.mp hne).1
      have hdiffer := Node.differAt_fill hv hw honly hwritten hbefore hrest
      rwa [List.length_map] at hdiffer

end

theorem quoted_notMem (body : String) : quoted body ∉ syntaxTexts := by
  have hnone : ∀ text ∈ syntaxTexts, text.toList.head? ≠ some '"' := by decide
  intro hmem
  apply hnone _ hmem
  simp [quoted]

theorem Token.Fits.text_ne_empty {t : Token} {rest : List Char} (h : t.Fits rest) :
    t.text ≠ "" := by
  obtain ⟨c, cs, htext, -⟩ := h.head
  intro hempty
  rw [hempty] at htext
  cases htext

/-- The content of a quoted text has no influence on the structure of a query. -/
theorem quoted_noninterference (mode : Mode) {left body body' : String} (right : String)
    (hleft : Even (left.toList.count '"')) (hbody : '"' ∉ body.toList)
    (hbody' : '"' ∉ body'.toList) :
    let query := left ++ quoted body ++ right
    let query' := left ++ quoted body' ++ right
    (∃ before after, tokenize mode query = .ok (before ++ .literal (quoted body) :: after) ∧
      tokenize mode query' = .ok (before ++ .literal (quoted body') :: after) ∧
      ((∃ t t', queryTree mode query = .ok t ∧ queryTree mode query' = .ok t' ∧
        (t = t' ∨ Node.DifferAt (quoted body) (quoted body') before.length t t')) ∨
      ∃ e e', queryTree mode query = .error (.parse e) ∧
        queryTree mode query' = .error (.parse e') ∧
        ParseError.Alike (quoted body) (quoted body') e e')) ∨
    ∃ e e', tokenize mode query = .error e ∧ tokenize mode query' = .error e' ∧
      e' = e.withColumn e'.column ∧
      (e.column ≤ left.length ∧ e'.column = e.column ∨
        left.length + body.length + 2 < e.column ∧
          e'.column + body.length = e.column + body'.length) := by
  intro query query'
  have hquery : tokenize mode query = _ := tokenize_quoted right hleft hbody
  have hquery' : tokenize mode query' = _ := tokenize_quoted right hleft hbody'
  cases hbefore : tokenize mode left with
  | error e =>
    right
    rw [hbefore] at hquery hquery'
    exact ⟨e, e, hquery, hquery', e.withColumn_column.symm,
      .inl ⟨(column_of_tokenize hbefore).2, rfl⟩⟩
  | ok before =>
    rw [hbefore] at hquery hquery'
    cases hafter : tokenize mode right with
    | error e =>
      right
      rw [hafter] at hquery hquery'
      refine ⟨_, _, hquery, hquery', ?_, .inr ?_⟩
      · simp [ScanError.after]
      · have hpos := (column_of_tokenize hafter).1
        simp only [ScanError.after, ScanError.column_withColumn]
        omega
    | ok after =>
      left
      rw [hafter] at hquery hquery'
      refine ⟨before, after, hquery, hquery', ?_⟩
      rw [queryTree_of_tokenize hquery, queryTree_of_tokenize hquery']
      have hne : ∀ t ∈ before ++ after, t.text ≠ "" := by
        rw [List.forall_mem_append]
        exact ⟨fun t ht => (fits_of_tokenize hbefore t ht).text_ne_empty,
          fun t ht => (fits_of_tokenize hafter t ht).text_ne_empty⟩
      rcases tokensTree_literal hne (quoted_notMem body) (quoted_notMem body') with
        ⟨t, t', ht, ht', hdiffer⟩ | ⟨e, e', he, he', halike⟩
      · rw [ht, ht']
        exact .inl ⟨t, t', rfl, rfl, hdiffer⟩
      · rw [he, he']
        exact .inr ⟨e, e', rfl, rfl, halike⟩

theorem noninterference_of_parens :
    let query := "(a eq: " ++ quoted "b" ++ ")&& c IN: ["
    let query' := "(a eq: " ++ quoted ") && x eq: (" ++ ")&& c IN: ["
    ∃ t t' n, queryTree .lenient query = .ok t ∧ queryTree .lenient query' = .ok t' ∧
      (t = t' ∨ Node.DifferAt (quoted "b") (quoted ") && x eq: (") n t t') := by
  intro query query'
  have htree : ∃ t, queryTree .lenient query = .ok t := ⟨_, by cbv⟩
  obtain ⟨t, ht⟩ := htree
  have hleft : Even ("(a eq: ".toList.count '"') := by decide
  have hbody : '"' ∉ "b".toList := by decide
  have hbody' : '"' ∉ ") && x eq: (".toList := by decide
  rcases quoted_noninterference .lenient ")&& c IN: [" hleft hbody hbody' with
    ⟨before, after, -, -, ⟨s, s', hs, hs', hdiffer⟩ | ⟨e, e', he, -⟩⟩ | ⟨e, e', he, -⟩
  · exact ⟨s, s', before.length, hs, hs', hdiffer⟩
  · cases ht.symm.trans he
  · have hscan : ∃ ts, tokenize .lenient query = .ok ts := ⟨_, by cbv⟩
    obtain ⟨ts, hts⟩ := hscan
    cases hts.symm.trans he

end FilterQuery
