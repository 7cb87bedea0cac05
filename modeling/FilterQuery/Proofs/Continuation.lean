import FilterQuery.Proofs.Failing
import FilterQuery.Proofs.ListFault
import FilterQuery.Proofs.NestedChain
/-!
# Tokens behind the input

What a parser makes of its input stays the same when tokens are put behind it, as long as it has
not met the end. It has not when it blames a token or stops before one. An end-of-input token is no
different to it from the end, so behind that everything stays the same.
-/
namespace FilterQuery

/-- The errors that name a token of the input. -/
def ParseError.BlamesToken : ParseError → Prop
  | .unexpectedToken _ _ => True
  | .trailingInput _ => True
  | _ => False

namespace Cursor

variable {s : List Token} {c d : Cursor}

/-- The same place when the tokens `s` stand behind the input. -/
def extend (s : List Token) (c : Cursor) : Cursor := ⟨c.position, c.rest ++ s⟩

/-- What can be seen at a place does not depend on the tokens `s` behind the input: a token is
left, or `s` begins as if the input ended. -/
def Ignores (s : List Token) (c : Cursor) : Prop := c.rest = [] → (s.headD Token.eof).isEof

theorem Ignores.of_reaches (h : d.Ignores s) (hreaches : c.Reaches d) : c.Ignores s := by
  obtain ⟨taken, hrest, -, -⟩ := hreaches
  intro hnil
  rw [hrest, List.append_eq_nil_iff] at hnil
  exact h hnil.2

theorem ignores_of_rest_ne_nil (h : c.rest ≠ []) : c.Ignores s := fun hnil => absurd hnil h

theorem rest_ne_nil_of_isEof (h : c.current.isEof = false) : c.rest ≠ [] := by
  rw [rest_of_current_ne_eof h]
  exact List.cons_ne_nil _ _

theorem current_extend (h : c.rest ≠ []) : (c.extend s).current = c.current := by
  obtain ⟨t, ts, hrest⟩ := List.exists_cons_of_ne_nil h
  simp [current, extend, hrest]

theorem advance_extend (h : c.current.isEof = false) :
    (c.extend s).advance = c.advance.extend s := by
  have hrest := rest_of_current_ne_eof h
  rw [extend, advance, advance, skip, skip, extend, hrest]
  rfl

theorem Ignores.current_or (h : c.Ignores s) :
    (c.extend s).current = c.current ∨ (c.extend s).current.isEof ∧ c.current.isEof := by
  by_cases hrest : c.rest = []
  · refine .inr ⟨?_, by rw [current, hrest]; rfl⟩
    rw [current, extend, hrest]
    exact h hrest
  · exact .inl (current_extend hrest)

theorem Ignores.isEof_current (h : c.Ignores s) :
    (c.extend s).current.isEof = c.current.isEof := by
  rcases h.current_or with heq | ⟨hs, hc⟩
  · rw [heq]
  · rw [hs, hc]

theorem Ignores.current_eq_iff (h : c.Ignores s) {t : Token} (ht : t.isEof = false) :
    (c.extend s).current = t ↔ c.current = t := by
  rcases h.current_or with heq | ⟨hs, hc⟩
  · rw [heq]
  · constructor <;> rintro rfl
    · cases ht.symm.trans hs
    · cases ht.symm.trans hc

theorem Ignores.kind_current (h : c.Ignores s) : (c.extend s).current.kind = c.current.kind := by
  rcases h.current_or with heq | ⟨hs, hc⟩
  · rw [heq]
  · rw [Token.isEof, decide_eq_true_iff] at hs hc
    rw [hs, hc]

end Cursor

namespace Parse

section
variable {s : List Token} {α β : Type} {place : α → Cursor} {place' : β → Cursor} {f : α → α}
  {g : β → β} {c d : Cursor}

/-- The tokens `s` behind the input cannot change this outcome of a parser that ends at the place
of its value. -/
def Settled (s : List Token) (place : α → Cursor) : Except ParseError α → Prop
  | .ok a => (place a).Ignores s
  | .error e => e.BlamesToken ∨ (s.headD Token.eof).isEof

theorem settled_of_isEof (h : (s.headD Token.eof).isEof) (r : Except ParseError α) :
    Settled s place r := by
  cases r with
  | error e => exact .inr h
  | ok a => exact fun _ => h

/-- The run `x` from `c` and the same run `y` with `s` behind the input: if `s` cannot change the
outcome of `x`, it is that of `y` too, up to the places in its value. -/
def Keeps (s : List Token) (place : α → Cursor) (f : α → α) (c : Cursor) (x y : Parsed α) : Prop :=
  Settled s place x.result → c.Ignores s ∧ y.result = x.result.map f

theorem Keeps.bind {x y : Parsed α} {k l : α → Parsed β} (hx : Keeps s place f c x y)
    (hk : ∀ a, x.result = .ok a → Keeps s place' g (place a) (k a) (l (f a))) :
    Keeps s place' g c (x >>= k) (y >>= l) := by
  intro h
  rw [Logged.result_bind] at h
  rw [Logged.result_bind, Logged.result_bind]
  cases hresult : x.result with
  | error e =>
    rw [hresult] at h
    obtain ⟨hc, hy⟩ := hx (by rw [hresult]; exact h)
    rw [hy, hresult]
    exact ⟨hc, rfl⟩
  | ok a =>
    rw [hresult] at h
    obtain ⟨ha, hl⟩ := hk a hresult h
    obtain ⟨hc, hy⟩ := hx (by rw [hresult]; exact ha)
    rw [hy, hresult]
    exact ⟨hc, hl⟩

theorem keeps_pure (a : α) : Keeps s place f (place a) (pure a) (pure (f a)) := fun h => ⟨h, rfl⟩

theorem keeps_same {x : Parsed α} (h : ∀ e, x.result = .error e → ¬ e.BlamesToken) :
    Keeps s (fun _ => c) id c x x := by
  intro hsettled
  cases hx : x.result with
  | error e =>
    rw [hx] at hsettled
    exact ⟨fun _ => hsettled.resolve_left (h e hx), rfl⟩
  | ok a =>
    rw [hx] at hsettled
    exact ⟨hsettled, rfl⟩

theorem Keeps.congr {x y z : Parsed α} (h : Keeps s place f c x y) (hz : c.Ignores s → z = y) :
    Keeps s place f c x z := by
  intro hsettled
  obtain ⟨hc, hy⟩ := h hsettled
  exact ⟨hc, by rw [hz hc, hy]⟩

theorem Keeps.of_reaches {x y : Parsed α} (h : Keeps s place f d x y) (hreaches : c.Reaches d) :
    Keeps s place f c x y :=
  fun hsettled => (h hsettled).imp_left (·.of_reaches hreaches)

end

section
variable {s : List Token} {mode : Mode} {b : Balance} {c : Cursor}

/-- The value of a production with its place, when `s` stands behind the input. -/
abbrev atEnd {α : Type} (s : List Token) : α × Cursor → α × Cursor := Prod.map id (Cursor.extend s)

theorem keeps_missing (expected : Construct) :
    Keeps s (fun _ => c) id c (missing mode expected) (missing mode expected) := by
  refine keeps_same fun e he => ?_
  cases mode with
  | lenient => cases he
  | strict =>
    cases he
    exact id

theorem keeps_exhausted {α : Type} (expected : Construct) (a : α) :
    Keeps s Prod.snd (atEnd s) c
      (do missing mode expected
          return (a, c))
      (do missing mode expected
          return (a, c.extend s)) :=
  (keeps_missing expected).bind fun _ _ => keeps_pure (a, c)

theorem keeps_fail {α : Type} {place : α → Cursor} {f : α → α} {e : ParseError}
    (he : c.rest ≠ []) : Keeps s place f c (Logged.fail e) (Logged.fail e) :=
  fun _ => ⟨Cursor.ignores_of_rest_ne_nil he, rfl⟩

theorem keeps_single {α : Type} (expected : Construct) (read : Token → Option α) (c : Cursor) :
    Keeps s Prod.snd (atEnd s) c (single mode expected read c)
      (single mode expected read (c.extend s)) := by
  by_cases hc : c.current.isEof
  · rw [single, if_pos hc]
    refine (keeps_exhausted expected none).congr fun hignores => ?_
    rw [single, if_pos (by rw [hignores.isEof_current, hc])]
  · have hc : c.current.isEof = false := by simpa using hc
    have hrest := Cursor.rest_ne_nil_of_isEof hc
    rw [single, single, Cursor.current_extend hrest, if_neg (by simp [hc]), if_neg (by simp [hc]),
      Cursor.advance_extend hc]
    cases read c.current with
    | some a => exact (keeps_pure (some a, c.advance)).of_reaches (Cursor.reaches_advance hc)
    | none => exact keeps_fail hrest

theorem keeps_terminal (kind : TokenKind) (expected : Construct) (c : Cursor) :
    Keeps s Prod.snd (atEnd s) c (terminal mode kind expected c)
      (terminal mode kind expected (c.extend s)) := by
  rw [terminal_eq_single, terminal_eq_single]
  exact keeps_single expected _ c

theorem keeps_comparator (c : Cursor) :
    Keeps s Prod.snd (atEnd s) c (comparator mode c) (comparator mode (c.extend s)) := by
  rw [comparator_eq_single, comparator_eq_single]
  exact keeps_single _ _ c

theorem passes_extend {d : Cursor} {taken : List Token} (h : c.Passes taken d) :
    (c.extend s).Passes taken (d.extend s) := by
  refine ⟨?_, h.2⟩
  rw [Cursor.extend, Cursor.extend, h.1, List.append_assoc]

theorem keeps_list (c : Cursor) :
    Keeps s Prod.snd (atEnd s) c (list mode c) (list mode (c.extend s)) := by
  obtain ⟨hpasses, hstop⟩ := inside_spec c
  have hinside : ∀ t ∈ c.rest.takeWhile isInsideList, isInsideList t :=
    List.all_eq_true.mp List.all_takeWhile
  have hreaches := reaches_inside c
  generalize c.rest.takeWhile isInsideList = inside at *
  generalize c.skip inside.length = stop at *
  refine Keeps.of_reaches ?_ hreaches
  by_cases heof : stop.current.isEof
  · rw [list_unclosed hpasses hinside heof]
    refine (keeps_exhausted .listClosing none).congr fun hignores => ?_
    exact list_unclosed (passes_extend hpasses) hinside (by rw [hignores.isEof_current, heof])
  · have heof : stop.current.isEof = false := by simpa using heof
    have hrest := Cursor.rest_ne_nil_of_isEof heof
    have hcurrent := Cursor.current_extend (s := s) hrest
    rw [list_closed hpasses hinside heof hstop,
      list_closed (passes_extend hpasses) hinside (by rw [hcurrent, heof]) (by rw [hcurrent, hstop]),
      hcurrent, Cursor.advance_extend heof]
    cases listFault? (inside ++ [stop.current]) with
    | some e => exact keeps_fail hrest
    | none =>
      rw [Option.elim_none]
      split
      · exact keeps_fail hrest
      · exact (keeps_pure (some _, stop.advance)).of_reaches (Cursor.reaches_advance heof)

theorem keeps_comparison (c : Cursor) :
    Keeps s Prod.snd (atEnd s) c (comparison mode c) (comparison mode (c.extend s)) := by
  unfold comparison
  by_cases hin : c.current = Token.inOperator
  · have hc : c.current.isEof = false := by rw [hin]; rfl
    have hcurrent := Cursor.current_extend (s := s) (Cursor.rest_ne_nil_of_isEof hc)
    rw [if_pos hin, if_pos (by rw [hcurrent, hin]), Cursor.advance_extend hc]
    refine Keeps.of_reaches ?_ (Cursor.reaches_advance hc)
    exact (keeps_list c.advance).bind fun r _ => keeps_pure (Comparison.membership r.1, r.2)
  · rw [if_neg hin]
    refine Keeps.congr ?_ fun hignores => if_neg (mt (hignores.current_eq_iff rfl).mp hin)
    refine (keeps_comparator c).bind fun r _ => ?_
    exact (keeps_terminal _ _ r.2).bind fun r' _ => keeps_pure (Comparison.scalar r.1 r'.1, r'.2)

theorem keeps_filter (c : Cursor) :
    Keeps s Prod.snd (atEnd s) c (filter mode c) (filter mode (c.extend s)) := by
  refine (keeps_terminal _ _ c).bind fun r _ => ?_
  exact (keeps_comparison r.2).bind fun r' _ => keeps_pure (Filter.mk r.1 r'.1, r'.2)

/-- The value of a production that counts parentheses, when `s` stands behind the input. -/
abbrev countedAtEnd {α : Type} (s : List Token) : α × Balance × Cursor → α × Balance × Cursor :=
  Prod.map id (atEnd s)

theorem paren_extend {p : Paren} (h : (paren p b c).2.2.Ignores s) :
    paren p b (c.extend s) = countedAtEnd s (paren p b c) := by
  by_cases hc : c.current = p.token
  · have heof : c.current.isEof = false := by rw [hc, p.token_isEof]
    have hcurrent := Cursor.current_extend (s := s) (Cursor.rest_ne_nil_of_isEof heof)
    rw [paren, paren, hcurrent, if_pos hc, if_pos hc, Cursor.advance_extend heof]
    rfl
  · rw [paren, if_neg hc] at h
    rw [paren, paren, if_neg hc, if_neg (mt (h.current_eq_iff p.token_isEof).mp hc)]
    rfl

theorem keeps_paren (p : Paren) (b : Balance) (c : Cursor) :
    Keeps s (·.2.2) (countedAtEnd s) c (pure (paren p b c)) (pure (paren p b (c.extend s))) :=
  fun h => ⟨h.of_reaches (reaches_paren p b c), congrArg Except.ok (paren_extend h)⟩

/-- What a segment reads behind the place of the parenthesis that may open it. -/
def segmentBehind (mode : Mode) (r : Bool × Balance × Cursor) :
    Parsed (Segment × Balance × Cursor) := do
  let r' ← filter mode r.2.2
  let r'' ← pure (paren .closing r.2.1 r'.2)
  return (⟨r.1, r'.1, r''.1⟩, r''.2)

theorem result_segment (mode : Mode) (b : Balance) (c : Cursor) :
    (segment mode b c).result = (segmentBehind mode (paren .opening b c)).result := rfl

theorem keeps_segment (b : Balance) (c : Cursor) :
    Keeps s (·.2.2) (countedAtEnd s) (paren .opening b c).2.2 (segment mode b c)
      (segment mode b (c.extend s)) := by
  have hbehind (r : Bool × Balance × Cursor) :
      Keeps s (·.2.2) (countedAtEnd s) r.2.2 (segmentBehind mode r)
        (segmentBehind mode (countedAtEnd s r)) :=
    (keeps_filter r.2.2).bind fun r' _ => (keeps_paren .closing r.2.1 r'.2).bind fun r'' _ =>
      keeps_pure (Segment.mk r.1 r'.1 r''.1, r''.2)
  intro h
  obtain ⟨hignores, hresult⟩ := hbehind (paren .opening b c) h
  refine ⟨hignores, ?_⟩
  rw [result_segment, paren_extend hignores, hresult]
  rfl

theorem keeps_segments (b : Balance) (c : Cursor) :
    Keeps s (·.2.2) (countedAtEnd s) (paren .opening b c).2.2 (segments mode b c)
      (segments mode b (c.extend s)) := by
  induction b, c using segments.induct mode with
  | case1 b c step e h =>
    rw [segments_eq, segments_eq]
    refine (keeps_segment b c).bind fun r hr => ?_
    cases h.symm.trans hr
  | case2 b c step x b' d h hd ih =>
    have heof : d.current.isEof = false := by simp [Token.isEof, hd]
    have hcurrent := Cursor.current_extend (s := s) (Cursor.rest_ne_nil_of_isEof heof)
    rw [segments_eq, segments_eq]
    refine (keeps_segment b c).bind fun r hr => ?_
    cases h.symm.trans hr
    change Keeps s _ _ d (if d.current.kind = .logicalOperator then _ else _)
      (if (d.extend s).current.kind = .logicalOperator then _ else _)
    rw [hcurrent, if_pos hd, if_pos hd, Cursor.advance_extend heof]
    refine Keeps.of_reaches ?_ ((Cursor.reaches_advance heof).trans (reaches_paren .opening b' _))
    exact ih.bind fun r _ => keeps_pure (r.1.cons x d.current.text, r.2)
  | case3 b c step x b' d h hd =>
    rw [segments_eq, segments_eq]
    refine (keeps_segment b c).bind fun r hr => ?_
    cases h.symm.trans hr
    change Keeps s _ _ d (if d.current.kind = .logicalOperator then _ else _)
      (if (d.extend s).current.kind = .logicalOperator then _ else _)
    rw [if_neg hd]
    refine (keeps_pure (Chain.mk [] x, b', d)).congr fun hignores => ?_
    exact if_neg (by rwa [hignores.kind_current])

theorem keeps_check (b : Balance) (c : Cursor) :
    Keeps s (fun _ => c) id c (Logged.ofExcept b.check) (Logged.ofExcept b.check) := by
  refine keeps_same fun e he => ?_
  unfold Balance.check at he
  split at he
  · cases he
  · cases he
    exact id

theorem keeps_chain (c : Cursor) :
    Keeps s Prod.snd (atEnd s) (paren .opening .empty c).2.2 (chain mode c)
      (chain mode (c.extend s)) := by
  rw [chain_eq, chain_eq]
  refine (keeps_segments .empty c).bind fun r _ => ?_
  exact (keeps_check r.2.1 r.2.2).bind fun _ _ => keeps_pure (r.1, r.2.2)

theorem wrappers_extend (h : (paren .opening .empty (wrappers b c).2).2.2.Ignores s) :
    wrappers b (c.extend s) = atEnd s (wrappers b c) := by
  fun_induction wrappers b c with
  | case1 b c hc ih =>
    have heof : c.current.isEof = false := by rw [hc.1]; rfl
    have hcurrent := Cursor.current_extend (s := s) (Cursor.rest_ne_nil_of_isEof heof)
    have hnext := nextIsOpeningParen_iff.mp hc.2
    have hnext' : (c.extend s).nextIsOpeningParen := by
      rw [nextIsOpeningParen_iff, Cursor.advance_extend heof, Cursor.current_extend, hnext]
      exact Cursor.rest_ne_nil_of_isEof (by rw [hnext]; rfl)
    rw [wrappers, dif_pos ⟨by rw [hcurrent, hc.1], hnext'⟩, Cursor.advance_extend heof, ih h]
  | case2 b c hc =>
    have hstop : ¬ ((c.extend s).current = Token.openingParen ∧
        (c.extend s).nextIsOpeningParen) := by
      rw [nextIsOpeningParen_iff] at hc ⊢
      by_cases hopen : c.current = Token.openingParen
      · have heof : c.current.isEof = false := by rw [hopen]; rfl
        have h : c.advance.Ignores s := by simpa [paren, Paren.token, hopen] using h
        rw [Cursor.advance_extend heof, h.current_eq_iff rfl]
        exact fun h => hc ⟨hopen, h.2⟩
      · have h : c.Ignores s := by simpa [paren, Paren.token, hopen] using h
        exact fun h' => hopen ((h.current_eq_iff rfl).mp h'.1)
    rw [wrappers, dif_neg hstop]
    rfl

/-- What an expression reads behind its wrappers. -/
def expressionBehind (mode : Mode) (w : Balance × Cursor) : Parsed (Expression × Cursor) := do
  let r ← chain mode w.2
  let r' ← pure (paren .closing w.1 r.2)
  Logged.ofExcept r'.2.1.check
  return (⟨w.1.count, r.1, r'.1⟩, r'.2.2)

theorem expression_eq (mode : Mode) (c : Cursor) :
    expression mode c = expressionBehind mode (wrappers .empty c) := rfl

theorem keeps_expressionBehind (w : Balance × Cursor) :
    Keeps s Prod.snd (atEnd s) (paren .opening .empty w.2).2.2 (expressionBehind mode w)
      (expressionBehind mode (atEnd s w)) :=
  (keeps_chain w.2).bind fun r _ => (keeps_paren .closing w.1 r.2).bind fun r' _ =>
    (keeps_check r'.2.1 r'.2.2).bind fun _ _ =>
      keeps_pure (Expression.mk w.1.count r.1 r'.1, r'.2.2)

/-- An outcome that the tokens behind the input cannot change is the outcome with them. -/
theorem result_expression_extend
    (h : Settled s Prod.snd (expression mode c).result) :
    (expression mode (c.extend s)).result = (expression mode c).result.map (atEnd s) := by
  rw [expression_eq] at h ⊢
  obtain ⟨hignores, hresult⟩ := keeps_expressionBehind _ h
  rw [expression_eq, wrappers_extend hignores, hresult]

end

end Parse

section
variable {mode : Mode} {ts s : List Token} {e : ParseError}

/-- An error is the same with `s` behind the tokens, if it blames one of them or `s` begins as if the
input ended. -/
theorem tokensTree_append_error (hts : ts ≠ []) (h : tokensTree mode ts = .error e)
    (he : e.BlamesToken ∨ (s.headD Token.eof).isEof) :
    tokensTree mode (ts ++ s) = .error e := by
  rw [tokensTree_error_iff, Parse.parse_error_iff hts] at h
  rw [tokensTree_error_iff, Parse.parse_error_iff (List.append_ne_nil_of_left_ne_nil hts s)]
  rcases h with h | ⟨x, d, hx, hmode, hd, rfl⟩
  · left
    have hsettled : Parse.Settled s Prod.snd (Parse.expression mode (.start ts)).result := by
      rw [h]
      exact he
    have hextend := Parse.result_expression_extend hsettled
    rw [h] at hextend
    exact hextend
  · right
    have hsettled : Parse.Settled s Prod.snd (Parse.expression mode (.start ts)).result := by
      rw [hx]
      exact Cursor.ignores_of_rest_ne_nil hd
    have hextend := Parse.result_expression_extend hsettled
    rw [hx] at hextend
    refine ⟨x, d.extend s, hextend, hmode, ?_, ?_⟩
    · exact List.append_ne_nil_of_left_ne_nil hd s
    · rw [Cursor.current_extend hd]

/-- An error that blames a token is the error of all inputs that begin with this one. -/
theorem tokensTree_error_append (h : tokensTree mode ts = .error e) (he : e.BlamesToken)
    (s : List Token) : tokensTree mode (ts ++ s) = .error e := by
  refine tokensTree_append_error ?_ h (.inl he)
  rintro rfl
  cases h
  exact he

/-- A parenthesis behind a wrapper and one behind a strict expression, neither of which is where the
parser stopped. -/
theorem error_of_longer_inputs :
    let open_list : List Token := [.openingParen, .openingParen, .identifier "a", .inOperator,
      .separator "[", .separator ",", .separator "]"]
    let group : List Token := [.identifier "a", Comparator.eq.token, .literal "1", .openingParen]
    tokensTree .lenient open_list = .error (.unexpectedToken .literal ",") ∧
    tokensTree .lenient (open_list ++ [.closingParen, .logical "&&"]) =
      .error (.unexpectedToken .literal ",") ∧
    tokensTree .strict group = .error (.trailingInput "(") ∧
    tokensTree .strict (group ++ [.openingParen, .eof]) = .error (.trailingInput "(") := by
  intro open_list group
  have hlist : tokensTree .lenient open_list = .error (.unexpectedToken .literal ",") := by cbv
  have hgroup : tokensTree .strict group = .error (.trailingInput "(") := by cbv
  exact ⟨hlist, tokensTree_error_append hlist trivial _, hgroup,
    tokensTree_error_append hgroup trivial _⟩

theorem tokensTree_lenient (hts : ts ≠ []) : tokensTree .lenient ts =
    (Parse.expression .lenient (.start ts)).result.map fun r => r.1.toNode := by
  have htrailing (d : Cursor) : (Parse.trailing .lenient d).result = .ok () := by
    unfold Parse.trailing
    split <;> rfl
  rw [tokensTree, parse, if_neg hts, Logged.result_bind]
  cases (Parse.expression .lenient (.start ts)).result with
  | error e => rfl
  | ok r =>
    simp only [Except.bind, Logged.result_bind, htrailing]
    rfl

/-- An end-of-input token ends the input: a lenient parser ignores it and all behind it, and a
strict one fails as it would without them, or for that token if nothing else is wrong. -/
theorem tokensTree_cut_at_eof (hts : ts ≠ []) (text : String) (rest : List Token) :
    tokensTree .lenient (ts ++ ⟨.eof, text⟩ :: rest) = tokensTree .lenient ts ∧
    (∀ e, tokensTree .strict ts = .error e →
      tokensTree .strict (ts ++ ⟨.eof, text⟩ :: rest) = .error e) ∧
    ∀ t, tokensTree .strict ts = .ok t →
      tokensTree .strict (ts ++ ⟨.eof, text⟩ :: rest) = .error (.trailingInput text) := by
  have hne : ts ++ ⟨.eof, text⟩ :: rest ≠ [] := List.append_ne_nil_of_left_ne_nil hts _
  have hextend (mode : Mode) :
      (Parse.expression mode (.start (ts ++ ⟨.eof, text⟩ :: rest))).result =
        (Parse.expression mode (.start ts)).result.map (Parse.atEnd (⟨.eof, text⟩ :: rest)) :=
    Parse.result_expression_extend (s := ⟨.eof, text⟩ :: rest) (c := .start ts)
      (Parse.settled_of_isEof rfl _)
  refine ⟨?_, fun e he => tokensTree_append_error hts he (.inr rfl), fun t ht => ?_⟩
  · rw [tokensTree_lenient hne, tokensTree_lenient hts, hextend]
    cases (Parse.expression .lenient (.start ts)).result <;> rfl
  · obtain ⟨x, hx, -⟩ := tokensTree_ok_iff.mp ht
    obtain ⟨-, d, hx, hend⟩ := Parse.parse_bind_iff.mp hx
    have hresult := hextend .strict
    rw [hx] at hresult
    rw [tokensTree_error_iff, Parse.parse_error_iff hne]
    refine .inr ⟨x, d.extend (⟨.eof, text⟩ :: rest), hresult, rfl, ?_, ?_⟩
    · simp [Cursor.extend]
    · rw [Cursor.current, Cursor.extend, hend rfl]
      rfl

/-- End-of-input tokens behind a parenthesis that would be a wrapper, within an open list, and behind
a whole expression. -/
theorem cut_at_eof_of_groups :
    tokensTree .lenient [.openingParen, ⟨.eof, "x"⟩, .openingParen, .identifier "a"] =
      .error (.unbalancedParens .closing) ∧
    tokensTree .strict [.identifier "a", .inOperator, .separator "[", ⟨.eof, "x"⟩, .separator "]"] =
      .error (.unexpectedEnd .listClosing) ∧
    tokensTree .strict [.identifier "a", Comparator.eq.token, .literal "1", ⟨.eof, "x"⟩,
      .closingParen] = .error (.trailingInput "x") := by
  have hopen : tokensTree .lenient [.openingParen] = .error (.unbalancedParens .closing) := by cbv
  have hlist : tokensTree .strict [.identifier "a", .inOperator, .separator "["] =
      .error (.unexpectedEnd .listClosing) := by cbv
  have haccepted : ∃ t, tokensTree .strict [.identifier "a", Comparator.eq.token, .literal "1"] =
      .ok t := ⟨_, by cbv⟩
  obtain ⟨t, ht⟩ := haccepted
  refine ⟨?_, ?_, ?_⟩
  · exact ((tokensTree_cut_at_eof (List.cons_ne_nil _ _) "x" _).1).trans hopen
  · exact (tokensTree_cut_at_eof (List.cons_ne_nil _ _) "x" _).2.1 _ hlist
  · exact (tokensTree_cut_at_eof (List.cons_ne_nil _ _) "x" _).2.2 t ht

end

end FilterQuery
