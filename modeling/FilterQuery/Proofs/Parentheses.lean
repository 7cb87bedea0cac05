import FilterQuery.Query
import FilterQuery.Proofs.ExpressionReading
import FilterQuery.Proofs.Spelling
/-!
# The parentheses of strict queries

The strict mode counts parentheses in two groups, those around the filters and those around the
whole chain, and asks for an even number in each. It does not ask that they nest.
-/
namespace FilterQuery

/-- Every prefix closes at most as many parentheses as it opens, and the whole list as many. -/
def Balanced (ts : List Token) : Prop :=
  (∀ p, p <+: ts → p.count Token.closingParen ≤ p.count Token.openingParen) ∧
    ts.count Token.closingParen = ts.count Token.openingParen

theorem not_balanced_of_accepted : ¬ ∀ query ts t, tokenize .strict query = .ok ts →
    queryTree .strict query = .ok t → Balanced ts := by
  intro h
  -- two parentheses that both close: their number is even
  have hscan : ∃ ts, tokenize .strict "a eq: 1) && b eq: 2)" = .ok ts ∧
      ts.count Token.closingParen ≠ ts.count Token.openingParen := ⟨_, by cbv, by decide⟩
  have hparse : ∃ t, queryTree .strict "a eq: 1) && b eq: 2)" = .ok t := ⟨_, by cbv⟩
  obtain ⟨ts, hts, hcount⟩ := hscan
  obtain ⟨t, ht⟩ := hparse
  exact hcount (h _ ts t hts ht).2

/-- The parenthesis that a token is. -/
def Token.paren? (t : Token) : Option Paren :=
  if t = openingParen then some .opening else if t = closingParen then some .closing else none

/-- The parentheses of a chain, one pair of marks for each of its filters. -/
def marksWord (marks : List (Bool × Bool)) : List Paren :=
  marks.flatMap fun m => Paren.opening.when m.1 ++ Paren.closing.when m.2

/-- Parentheses that the strict mode accepts: `k` in front, then those around each filter, then
possibly a closing one. Those outside stand next to one of the first or the last filter. -/
def EvenGroups (w : List Paren) : Prop :=
  ∃ (k : Nat) (marks : List (Bool × Bool)) (closing : Bool),
    w = List.replicate k .opening ++ marksWord marks ++ Paren.closing.when closing ∧
    marks ≠ [] ∧ (0 < k → ∀ m ∈ marks.head?, m.1) ∧ (closing → ∀ m ∈ marks.getLast?, m.2) ∧
    (k + closing.toNat) % 2 = 0 ∧ (marksWord marks).length % 2 = 0

/-- A token list without parentheses. -/
def Bare (ts : List Token) : Prop := ∀ t ∈ ts, t.paren? = none

theorem paren?_of_kind {t : Token} (h : t.kind ≠ .separator) : t.paren? = none := by
  have ho : t ≠ Token.openingParen := fun ht => h (by rw [ht]; rfl)
  have hc : t ≠ Token.closingParen := fun ht => h (by rw [ht]; rfl)
  simp [Token.paren?, ho, hc]

theorem paren?_of_text {t : Token} (ho : t.text ≠ "(") (hc : t.text ≠ ")") : t.paren? = none := by
  have ho : t ≠ Token.openingParen := fun ht => ho (by rw [ht]; rfl)
  have hc : t ≠ Token.closingParen := fun ht => hc (by rw [ht]; rfl)
  simp [Token.paren?, ho, hc]

theorem Alternates.bare {ts : List Token} (h : Alternates ts) : Bare ts := by
  have hliteral {t : Token} (h : t.kind = .literal) : t.paren? = none :=
    paren?_of_kind (by rw [h]; decide)
  induction h with
  | nil => exact nofun
  | literal ht => simpa [Bare] using hliteral ht
  | comma ht hs _ ih =>
    have hcomma := paren?_of_text (by rw [hs]; decide) (by rw [hs]; decide)
    simpa [Bare, hliteral ht, hcomma] using ih

theorem IsList.bare {ts : List Token} (h : IsList ts) : Bare ts := by
  obtain ⟨opening, items, closing, rfl, ho, hi, hc, -, -⟩ := h
  have hopening := paren?_of_text (t := opening) (by rw [ho]; decide) (by rw [ho]; decide)
  have hclosing := paren?_of_text (t := closing) (by rw [hc]; decide) (by rw [hc]; decide)
  intro t ht
  simp only [List.cons_append, List.mem_cons, List.mem_append, List.not_mem_nil, or_false] at ht
  rcases ht with rfl | ht | rfl
  · exact hopening
  · exact hi.bare t ht
  · exact hclosing

theorem Filter.bare {f : Filter} (h : f.Shaped []) : Bare f.tokens := by
  have hkey (key : String) : (Token.identifier key).paren? = none :=
    paren?_of_kind (by simp [Token.identifier])
  have hop (op : String) : (Token.comparison op).paren? = none :=
    paren?_of_kind (by simp [Token.comparison])
  have hvalue (value : String) : (Token.literal value).paren? = none :=
    paren?_of_kind (by simp [Token.literal])
  obtain ⟨key, x⟩ := f
  have hx : Bare x.tokens := by
    cases x with
    | scalar op operand =>
      cases op <;> cases operand <;> simp [Bare, Comparison.tokens, Comparator.token, hop, hvalue]
    | membership list =>
      cases list with
      | none => simpa [Bare, Comparison.tokens, Token.inOperator] using hop "IN:"
      | some ts =>
        have hts := h.2.1.bare
        simpa [Bare, Comparison.tokens, Token.inOperator, hop] using hts
  cases key with
  | none => exact hx
  | some key => simpa [Bare, Filter.tokens, hkey] using hx

theorem Bare.filterMap {ts : List Token} (h : Bare ts) : ts.filterMap Token.paren? = [] :=
  List.filterMap_eq_nil_iff.mpr h

theorem filterMap_when (p : Paren) (present : Bool) :
    ((p.when present).map Paren.token).filterMap Token.paren? = p.when present := by
  cases p <;> cases present <;> rfl

theorem Segment.filterMap_tokens {s : Segment} (h : s.filter.Shaped []) :
    s.tokens.filterMap Token.paren? = s.parenWord := by
  rw [tokens_eq, List.filterMap_append, List.filterMap_append, filterMap_when, filterMap_when,
    (Filter.bare h).filterMap, List.nil_append, parenWord]

theorem Chain.filterMap_tokens {x : Chain} (h : ∀ s ∈ x.segments, s.filter.Shaped []) :
    x.tokens.filterMap Token.paren? = x.parenWord := by
  obtain ⟨links, last⟩ := x
  induction links with
  | nil =>
    have hlast := Segment.filterMap_tokens (h last (by simp [segments]))
    simpa [tokens, parenWord, segments] using hlast
  | cons link links ih =>
    obtain ⟨s, operator⟩ := link
    have hs := Segment.filterMap_tokens (h s (by simp [segments]))
    have hoperator : (Token.logical operator).paren? = none :=
      paren?_of_kind (by simp [Token.logical])
    have hx : Chain.mk ((s, operator) :: links) last = cons s operator ⟨links, last⟩ := rfl
    rw [hx, tokens_cons, parenWord_cons, List.filterMap_append, hs,
      List.filterMap_cons_none hoperator, ih fun s hs => h s (List.mem_cons_of_mem _ hs)]

theorem Expression.filterMap_tokens {e : Expression} (h : e.Proper) :
    e.tokens.filterMap Token.paren? = e.parenWord := by
  have hopenings : e.openings.filterMap Token.paren? = List.replicate e.wrappers .opening := by
    rw [openings, List.filterMap_replicate]
    rfl
  have hclosings : e.closings.filterMap Token.paren? = Paren.closing.when e.closing := by
    rw [closings]
    cases e.closing <;> rfl
  rw [tokens, List.filterMap_append, List.filterMap_append, hopenings, hclosings,
    Chain.filterMap_tokens fun s hs => (h.1 s hs).1, parenWord]

/-- Whether a parenthesis stands before and behind each filter of a chain. -/
def Chain.marks (x : Chain) : List (Bool × Bool) := x.segments.map fun s => (s.opening, s.closing)

theorem Chain.marksWord_marks (x : Chain) : marksWord x.marks = x.parenWord := by
  rw [marksWord, marks, List.flatMap_map]
  rfl

theorem Chain.head?_marks (x : Chain) :
    x.marks.head? = some (x.first.opening, x.first.closing) := by
  obtain ⟨links, last⟩ := x
  cases links <;> rfl

theorem Chain.getLast?_marks (x : Chain) :
    x.marks.getLast? = some (x.last.opening, x.last.closing) := by
  simp [marks, segments]

theorem Expression.Proper.evenGroups {e : Expression} (h : e.Proper) : EvenGroups e.parenWord := by
  obtain ⟨-, hopen, hclose, hwrappers, hparens⟩ := h
  refine ⟨e.wrappers, e.chain.marks, e.closing, ?_, ?_, ?_, ?_, hwrappers, ?_⟩
  · rw [Chain.marksWord_marks, parenWord]
  · simp [Chain.marks, Chain.segments]
  · simpa [Chain.head?_marks] using hopen
  · simpa [Chain.getLast?_marks] using hclose
  · rw [Chain.marksWord_marks, Chain.length_parenWord, hparens]

/-- The chain of filters `a eq: 1` with the given parentheses around them. -/
def sampleChain (marks : List (Bool × Bool)) (last : Bool × Bool) : Chain where
  links := marks.map fun m => (⟨m.1, ⟨some "a", .scalar (some .eq) (some "1")⟩, m.2⟩, "&&")
  last := ⟨last.1, ⟨some "a", .scalar (some .eq) (some "1")⟩, last.2⟩

theorem marks_sampleChain (marks : List (Bool × Bool)) (last : Bool × Bool) :
    (sampleChain marks last).marks = marks ++ [last] := by
  simp [sampleChain, Chain.marks, Chain.segments, Function.comp_def]

theorem filter_sampleChain {marks : List (Bool × Bool)} {last : Bool × Bool} {s : Segment}
    (h : s ∈ (sampleChain marks last).segments) :
    s.filter = ⟨some "a", .scalar (some .eq) (some "1")⟩ := by
  simp only [sampleChain, Chain.segments, List.map_map, List.mem_append, List.mem_map,
    List.mem_singleton] at h
  rcases h with ⟨m, -, rfl⟩ | rfl <;> rfl

theorem fits_of_mem_sampleFilter {t : Token}
    (h : t ∈ (Filter.mk (some "a") (.scalar (some .eq) (some "1"))).tokens) : t.Fits [] := by
  simp only [Filter.tokens, Comparison.tokens, Option.map_some, Option.toList_some,
    List.cons_append, List.nil_append, List.mem_cons, List.not_mem_nil, or_false] at h
  rcases h with rfl | rfl | rfl
  · refine ⟨by decide, List.forall_mem_singleton.mpr (by decide), ?_, by simp, by decide⟩
    intro c hc
    obtain rfl : 'a' = c := Option.some.inj hc
    decide
  · exact List.mem_of_elem_eq_true rfl
  · exact .inl ⟨by decide, List.forall_mem_singleton.mpr (by decide), by simp⟩

theorem fits_paren (p : Paren) : p.token.Fits [] := by
  cases p <;> exact List.mem_of_elem_eq_true rfl

theorem Segment.mem_tokens {s : Segment} {t : Token} (h : t ∈ s.tokens) :
    t ∈ s.filter.tokens ∨ ∃ p : Paren, t = p.token := by
  rw [tokens_eq] at h
  simp only [List.mem_append, List.mem_map] at h
  rcases h with ⟨p, -, rfl⟩ | h | ⟨p, -, rfl⟩
  · exact .inr ⟨p, rfl⟩
  · exact .inl h
  · exact .inr ⟨p, rfl⟩

theorem fits_of_mem_sampleChain {marks : List (Bool × Bool)} {last : Bool × Bool} {t : Token}
    (h : t ∈ (sampleChain marks last).tokens) : t.Fits [] := by
  have hsegment {s : Segment} (hs : s ∈ (sampleChain marks last).segments) (ht : t ∈ s.tokens) :
      t.Fits [] := by
    rcases Segment.mem_tokens ht with ht | ⟨p, rfl⟩
    · rw [filter_sampleChain hs] at ht
      exact fits_of_mem_sampleFilter ht
    · exact fits_paren p
  simp only [Chain.tokens, List.mem_append, List.mem_flatMap, List.mem_singleton] at h
  rcases h with ⟨link, hlink, ht | rfl⟩ | ht
  · exact hsegment (List.mem_append_left _ (List.mem_map_of_mem hlink)) ht
  · obtain ⟨m, -, rfl⟩ := List.mem_map.mp hlink
    exact List.mem_of_elem_eq_true rfl
  · exact hsegment (List.mem_append_right _ (List.mem_singleton.mpr rfl)) ht

theorem exists_query_of_fits {e : Expression} (h : e.Proper) (hfits : ∀ t ∈ e.tokens, t.Fits []) :
    ∃ query, tokenize .strict query = .ok e.tokens ∧ queryTree .strict query = .ok e.toNode := by
  let s := Spelling.spaced e.tokens hfits
  have hscan : tokenize .strict (String.ofList s.text) = .ok e.tokens := by
    rw [s.tokenize_eq_tokens (String.toList_ofList).symm, Spelling.tokens_spaced]
  exact ⟨_, hscan, queryTree_ok_iff.mpr ⟨_, e, hscan, parse_strict_iff.mpr ⟨h, rfl⟩, rfl⟩⟩

theorem exists_expression_of_evenGroups {w : List Paren} (h : EvenGroups w) :
    ∃ e : Expression, e.Proper ∧ e.parenWord = w ∧ ∀ t ∈ e.tokens, t.Fits [] := by
  obtain ⟨k, marks, closing, rfl, hne, hopen, hclose, hk, hm⟩ := h
  obtain ⟨init, last, rfl⟩ : ∃ init last, marks = init ++ [last] :=
    ⟨marks.dropLast, marks.getLast hne, (List.dropLast_concat_getLast hne).symm⟩
  rw [← marks_sampleChain] at hopen hclose hm ⊢
  refine ⟨⟨k, sampleChain init last, closing⟩, ⟨fun s hs => ?_, ?_, ?_, hk, ?_⟩, ?_, ?_⟩
  · rw [filter_sampleChain hs]
    simp [Filter.Shaped, Comparison.Shaped, Filter.Full, Comparison.Full]
  · simpa [Chain.head?_marks] using hopen
  · simpa [Chain.getLast?_marks] using hclose
  · rw [← Chain.length_parenWord, ← Chain.marksWord_marks, hm]
  · rw [Expression.parenWord, Chain.marksWord_marks]
  · intro t ht
    simp only [Expression.tokens, List.mem_append] at ht
    rcases ht with (ht | ht) | ht
    · rw [List.eq_of_mem_replicate ht]
      exact fits_paren .opening
    · exact fits_of_mem_sampleChain ht
    · rw [Expression.closings] at ht
      split at ht
      · rw [List.mem_singleton.mp ht]
        exact fits_paren .closing
      · cases ht

/-- The parentheses of the queries that the strict mode accepts are those in even groups, whether
they nest or not. -/
theorem strict_parens_iff (w : List Paren) :
    (∃ query ts t, tokenize .strict query = .ok ts ∧ queryTree .strict query = .ok t ∧
      ts.filterMap Token.paren? = w) ↔ EvenGroups w := by
  constructor
  · rintro ⟨query, ts, t, hscan, htree, rfl⟩
    obtain ⟨ts', e, hscan', hparse, -⟩ := queryTree_ok_iff.mp htree
    cases hscan.symm.trans hscan'
    obtain ⟨hproper, rfl⟩ := parse_strict_iff.mp hparse
    rw [Expression.filterMap_tokens hproper]
    exact hproper.evenGroups
  · intro h
    obtain ⟨e, hproper, rfl, hfits⟩ := exists_expression_of_evenGroups h
    obtain ⟨query, hscan, htree⟩ := exists_query_of_fits hproper hfits
    exact ⟨query, e.tokens, e.toNode, hscan, htree, Expression.filterMap_tokens hproper⟩

end FilterQuery
